/-
Offsets on lines.

Every offset of a text is on one line. It lies in the text of the line or at its end, where
boundaries are those of the line by itself, or else between the two characters of the pair that
ends the line.

* `Line.Holds` — an offset is on a line;
* `Line.Holds.unique`, `Line.Holds.within` — on one line only, and where on it;
* `Text.floorBoundary_line`, `Text.isBoundary_line_iff` — boundaries, line by line;
* `Text.InPair` — an offset is between the two characters of a pair;
* `Text.inPair_iff_of_holds` — such an offset is behind the first character of a delimiter.
-/
import Newline.Proofs.LfView

namespace Newline

namespace Delimiter

theorem byteLen_text_crlf : Text.byteLen (text crlf) = 2 := rfl

theorem byteLen_text_le_one {d : Delimiter} (h : d ≠ .crlf) : Text.byteLen d.text ≤ 1 := by
  cases d with
  | crlf => exact absurd rfl h
  | lf => exact Nat.le_refl 1
  | cr => exact Nat.le_refl 1
  | eof => exact Nat.zero_le 1

theorem byteLen_text_pos {d : Delimiter} (h : d ≠ .eof) : 0 < Text.byteLen d.text := by
  cases d with
  | eof => exact absurd rfl h
  | lf => exact Nat.one_pos
  | cr => exact Nat.one_pos
  | crlf => exact Nat.two_pos

end Delimiter

namespace Line

/-! ### The line of an offset -/

theorem byteLen_text (l : Line) :
    Text.byteLen l.text = Text.byteLen l.body + Text.byteLen l.delimiter.text :=
  Text.byteLen_append _ _

/-- The LF form has no pairs. -/
theorem delimiter_withEnding_lf_ne (l : Line) : (l.withEnding .lf).delimiter ≠ .crlf := by
  rw [delimiter_withEnding]
  split
  · simp
  · simp [Ending.delimiter]

theorem concat_around {ls : List Line} {i : Nat} {l : Line} (h : ls[i]? = some l) :
    concat (ls.take i) ++ (l.body ++ (l.delimiter.text ++ concat (ls.drop (i + 1))))
      = concat ls := by
  obtain ⟨hi, rfl⟩ := List.getElem?_eq_some_iff.mp h
  conv_rhs => rw [← List.take_append_drop i ls, List.drop_eq_getElem_cons hi]
  rw [concat_append, concat_cons, text, List.append_assoc ls[i].body]

/-- The offset `x` is on line `i`: the line starts no later than there, and the next line, if
there is one, only after it. -/
structure Holds (ls : List Line) (i x : Nat) : Prop where
  lt : i < ls.length
  start_le : startOf ls i ≤ x
  lt_next : i + 1 < ls.length → x < startOf ls (i + 1)

theorem exists_holds (t : Text) (x : Nat) : ∃ i, Holds (split t) i x := by
  obtain ⟨i, hi, hle, hlt⟩ := LineIndex.exists_line t x
  exact ⟨i, hi, hle, hlt⟩

section Holds

variable {ls : List Line} {i j x y : Nat} {l : Line}

theorem Holds.exists_line (h : Holds ls i x) : ∃ l, ls[i]? = some l :=
  ⟨_, List.getElem?_eq_getElem h.lt⟩

theorem Holds.mono (hx : Holds ls i x) (hy : Holds ls j y) (h : x ≤ y) : i ≤ j := by
  by_contra hlt
  -- Line `j` would end before line `i` starts.
  have hstarts := startOf_mono ls (show j + 1 ≤ i by omega)
  have hi := hx.lt
  have hle := hx.start_le
  have hnext := hy.lt_next (by omega)
  omega

theorem Holds.unique (hi : Holds ls i x) (hj : Holds ls j x) : i = j :=
  Nat.le_antisymm (hi.mono hj (Nat.le_refl x)) (hj.mono hi (Nat.le_refl x))

/-- What lies in the text of a line or at its end is on the line. -/
theorem Complete.holds (hls : Complete ls) (hl : ls[i]? = some l)
    (hx : x ≤ Text.byteLen l.body) : Holds ls i (startOf ls i + x) := by
  have hi := (List.getElem?_eq_some_iff.mp hl).choose
  refine ⟨hi, Nat.le_add_right _ _, fun hnext => ?_⟩
  have hne : l.delimiter ≠ .eof := by
    intro heof
    have hlast := (hls.delimiter_eq_eof_iff hl).mp heof
    omega
  have hpos := Delimiter.byteLen_text_pos hne
  rw [startOf_succ hl, byteLen_text]
  omega

/-- **Where on its line an offset is**: in its text or at the end of it, or else between the two
characters of the pair that ends the line. -/
theorem Holds.within (hls : Complete ls) (hl : ls[i]? = some l) (h : Holds ls i x)
    (hx : x ≤ Text.byteLen (concat ls)) :
    x ≤ startOf ls i + Text.byteLen l.body ∨
      l.delimiter = .crlf ∧ x = startOf ls i + Text.byteLen l.body + 1 := by
  have hi := h.lt
  have hsucc := startOf_succ hl
  rw [byteLen_text] at hsucc
  by_cases hnext : i + 1 < ls.length
  · have hlt := h.lt_next hnext
    by_cases hcrlf : l.delimiter = .crlf
    · rw [hcrlf, Delimiter.byteLen_text_crlf] at hsucc
      by_cases hin : x ≤ startOf ls i + Text.byteLen l.body
      · exact Or.inl hin
      · exact Or.inr ⟨hcrlf, by omega⟩
    · have hone := Delimiter.byteLen_text_le_one hcrlf
      exact Or.inl (by omega)
  · -- The last line has no delimiter, and ends with the text.
    have heof := (hls.delimiter_eq_eof_iff hl).mpr (by omega)
    rw [startOf_of_length_le (by omega), heof, Delimiter.text_eof, Text.byteLen_nil] at hsucc
    exact Or.inl (by omega)

end Holds

end Line

namespace Text

open Line

variable {t : Text} {i x : Nat} {l : Line}

/-! ### Boundaries, line by line -/

theorem takeBytes_concat {ls : List Line} (hl : ls[i]? = some l) (hx : x ≤ byteLen l.body) :
    takeBytes (startOf ls i + x) (concat ls) = concat (ls.take i) ++ takeBytes x l.body := by
  rw [← concat_around hl, startOf, takeBytes_append_add, takeBytes_append_of_le _ hx]

theorem takeBytes_line (hl : (split t)[i]? = some l) (hx : x ≤ byteLen l.body) :
    takeBytes (startOf (split t) i + x) t
      = concat ((split t).take i) ++ takeBytes x l.body := by
  have htake := takeBytes_concat hl hx
  rwa [concat_split] at htake

/-- Within the text of a line, an offset is moved back as in that text alone. -/
theorem floorBoundary_concat {ls : List Line} (hl : ls[i]? = some l) (hx : x ≤ byteLen l.body) :
    floorBoundary (concat ls) (startOf ls i + x) = startOf ls i + floorBoundary l.body x := by
  rw [← concat_around hl, startOf, floorBoundary_append_add, floorBoundary_append_of_le _ hx]

theorem floorBoundary_line (hl : (split t)[i]? = some l) (hx : x ≤ byteLen l.body) :
    floorBoundary t (startOf (split t) i + x)
      = startOf (split t) i + floorBoundary l.body x := by
  have hfloor := floorBoundary_concat hl hx
  rwa [concat_split] at hfloor

theorem isBoundary_line_iff (hl : (split t)[i]? = some l) (hx : x ≤ byteLen l.body) :
    IsBoundary t (startOf (split t) i + x) ↔ IsBoundary l.body x := by
  rw [IsBoundary, IsBoundary, floorBoundary_line hl hx, Nat.add_left_cancel_iff]

theorem IsBoundary.le_byteLen (h : IsBoundary t x) : x ≤ byteLen t := by
  rw [← h]
  exact floorBoundary_le_byteLen t x

/-! ### Between the two characters of a pair -/

/-- The offset is behind a carriage return and before a line feed. -/
def InPair (t : Text) (x : Nat) : Prop :=
  ∃ a b, t = a ++ '\r' :: '\n' :: b ∧ x = byteLen a + 1

theorem inPair_iff_cut : InPair t x ↔
    IsBoundary t x ∧ (takeBytes x t).getLast? = some '\r' ∧ (dropBytes x t).head? = some '\n' := by
  constructor
  · rintro ⟨a, b, rfl, rfl⟩
    have hcut : a ++ '\r' :: '\n' :: b = (a ++ ['\r']) ++ '\n' :: b := by simp
    have hlen : byteLen a + 1 = byteLen (a ++ ['\r']) := by
      rw [byteLen_append]
      rfl
    rw [hcut, hlen, takeBytes_append, dropBytes_append]
    exact ⟨isBoundary_iff.mpr ⟨_, _, rfl, rfl⟩, by simp, rfl⟩
  · rintro ⟨hx, hlast, hhead⟩
    obtain ⟨a, ha⟩ := List.getLast?_eq_some_iff.mp hlast
    obtain ⟨b, hb⟩ := List.head?_eq_some_iff.mp hhead
    refine ⟨a, b, ?_, ?_⟩
    · have hcut := takeBytes_append_dropBytes x t
      rw [ha, hb] at hcut
      simpa using hcut.symm
    · have hlen : byteLen (takeBytes x t) = x := hx
      rw [ha, byteLen_append] at hlen
      exact hlen.symm

instance (t : Text) (x : Nat) : Decidable (InPair t x) := decidable_of_iff _ inPair_iff_cut.symm

theorem InPair.isBoundary (h : InPair t x) : IsBoundary t x := (inPair_iff_cut.mp h).1

/-- A carriage return and a line feed side by side end a line, whatever comes before. -/
theorem exists_split_pair (a b : Text) :
    ∃ init body, split (a ++ '\r' :: '\n' :: b) = init ++ ⟨body, .crlf⟩ :: split b ∧
      concat init ++ body = a := by
  induction a using scanInduction with
  | nil => exact ⟨[], [], by simp [split], rfl⟩
  | crlf cs ih =>
    obtain ⟨init, body, hsplit, rfl⟩ := ih
    exact ⟨⟨[], .crlf⟩ :: init, body, by simp only [List.cons_append, split, hsplit],
      by simp [text]⟩
  | cr cs h ih =>
    obtain ⟨init, body, hsplit, rfl⟩ := ih
    refine ⟨⟨[], .cr⟩ :: init, body, ?_, by simp [text]⟩
    -- The carriage return at the front is not the first half of a pair: no line feed follows it.
    have hne : ∀ ds, (concat init ++ body) ++ '\r' :: '\n' :: b = '\n' :: ds → False := by
      intro ds hds
      cases hcs : concat init ++ body with
      | nil =>
        rw [hcs] at hds
        exact absurd (List.cons.inj hds).1 (by decide)
      | cons c cs =>
        rw [hcs, List.cons_append] at hds
        rw [(List.cons.inj hds).1] at hcs
        exact h cs hcs
    rw [List.cons_append, split.eq_3 _ hne, hsplit, List.cons_append]
  | lf cs ih =>
    obtain ⟨init, body, hsplit, rfl⟩ := ih
    exact ⟨⟨[], .lf⟩ :: init, body, by simp only [List.cons_append, split, hsplit],
      by simp [text]⟩
  | char c cs hcr hlf ih =>
    obtain ⟨init, body, hsplit, rfl⟩ := ih
    rw [List.cons_append, split_cons_char hcr hlf, hsplit]
    cases init with
    | nil => exact ⟨[], c :: body, by simp [consHead], by simp⟩
    | cons l init =>
      exact ⟨{ l with body := c :: l.body } :: init, body, by simp [consHead], by simp [text]⟩

/-- An offset between the two characters of a pair is on a line that a pair ends, behind the first
character of it. -/
theorem InPair.exists_line (h : InPair t x) :
    ∃ i l, (split t)[i]? = some l ∧ l.delimiter = .crlf ∧
      x = startOf (split t) i + byteLen l.body + 1 := by
  obtain ⟨a, b, rfl, rfl⟩ := h
  obtain ⟨init, body, hsplit, rfl⟩ := exists_split_pair a b
  rw [hsplit]
  refine ⟨init.length, ⟨body, .crlf⟩, by simp, rfl, ?_⟩
  rw [startOf, List.take_left, byteLen_append]

theorem inPair_of_line (hl : (split t)[i]? = some l) (hcrlf : l.delimiter = .crlf) :
    InPair t (startOf (split t) i + byteLen l.body + 1) := by
  refine ⟨concat ((split t).take i) ++ l.body, concat ((split t).drop (i + 1)), ?_, ?_⟩
  · have haround := concat_around hl
    rw [concat_split, hcrlf] at haround
    simpa using haround.symm
  · rw [byteLen_append, startOf]

theorem holds_of_crlf (hl : (split t)[i]? = some l) (hcrlf : l.delimiter = .crlf) :
    Holds (split t) i (startOf (split t) i + byteLen l.body + 1) := by
  refine ⟨(List.getElem?_eq_some_iff.mp hl).choose, by omega, fun _ => ?_⟩
  rw [startOf_succ hl, byteLen_text, hcrlf, Delimiter.byteLen_text_crlf]
  omega

/-- **The offsets between the two characters of a pair**: on a given line there is one if a pair
ends the line. -/
theorem inPair_iff_of_holds (hl : (split t)[i]? = some l) (h : Holds (split t) i x) :
    InPair t x ↔ l.delimiter = .crlf ∧ x = startOf (split t) i + byteLen l.body + 1 := by
  constructor
  · intro hpair
    obtain ⟨j, m, hm, hcrlf, rfl⟩ := hpair.exists_line
    obtain rfl := (holds_of_crlf hm hcrlf).unique h
    obtain rfl := Option.some.inj (hm.symm.trans hl)
    exact ⟨hcrlf, rfl⟩
  · rintro ⟨hcrlf, rfl⟩
    exact inPair_of_line hl hcrlf

theorem not_inPair_line (hl : (split t)[i]? = some l) (hx : x ≤ byteLen l.body) :
    ¬ InPair t (startOf (split t) i + x) := by
  intro hpair
  obtain ⟨-, heq⟩ := (inPair_iff_of_holds hl ((complete_split t).holds hl hx)).mp hpair
  omega

end Text

end Newline
