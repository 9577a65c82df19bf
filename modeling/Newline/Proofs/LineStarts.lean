/-
The index of a text, line by line.

The index holds, for each line of the text, the number of bytes of the lines before it.

* `bisect_eq`, `partitionPoint_append` — bisection finds where a property ends;
* `LineIndex.starts_ofText` — the entries of the index;
* `LineIndex.lineSpan_ofText`, `Text.lineAt_ofText` — a line's span is the line with its
  delimiter, and its text the line without;
* `LineIndex.positionAt_ofText` — the position of an offset is on the line that holds it;
* `Document.ofEditor_within` — a place in the editor becomes a position on a line that exists,
  not past its text.
-/
import Newline.Document
import Newline.Proofs.Lines
import Newline.Proofs.Units

namespace Newline

/-! ### Bisection -/

/-- Bisection finds the one place before which `p` holds and from which on it fails. -/
theorem bisect_eq {p : Nat → Bool} {lo hi k : Nat} (hlo : lo ≤ k) (hhi : k ≤ hi)
    (hbefore : ∀ i, lo ≤ i → i < k → p i = true) (hafter : ∀ i, k ≤ i → i < hi → p i = false) :
    bisect p lo hi = k := by
  fun_induction bisect p lo hi with
  | case1 lo hi hlt mid hp ih =>
    -- The place sought stays between `lo` and `hi`, whichever half is kept.
    have hmid : mid < k := by
      by_contra hge
      have hfalse := hafter mid (by omega) (by omega)
      rw [hp] at hfalse
      exact absurd hfalse (by simp)
    exact ih hmid hhi (fun i hi' => hbefore i (by omega)) hafter
  | case2 lo hi hlt mid hp ih =>
    have hmid : k ≤ mid := by
      by_contra hlt'
      exact hp (hbefore mid (by omega) (by omega))
    exact ih hlo hmid hbefore fun i hi' hi'' => hafter i hi' (by omega)
  | case3 lo hi hge => omega

/-- A property of the entries of one list and of none of the next ends where they meet. -/
theorem partitionPoint_append {as bs : List Nat} {p : Nat → Nat → Bool}
    (has : ∀ i a, as[i]? = some a → p i a = true)
    (hbs : ∀ i b, bs[i]? = some b → p (as.length + i) b = false) :
    partitionPoint (as ++ bs).toArray p = as.length := by
  rw [partitionPoint]
  refine bisect_eq (Nat.zero_le _) (by simp) (fun i _ hi => ?_) (fun i hge hi => ?_)
  · have hget : (as ++ bs).toArray.getD i 0 = as[i] := by
      simp [Array.getD_eq_getD_getElem?, List.getElem?_append_left hi, hi]
    rw [hget]
    exact has i _ (List.getElem?_eq_getElem hi)
  · have hi' : i - as.length < bs.length := by
      simp only [List.size_toArray, List.length_append] at hi
      omega
    have hget : (as ++ bs).toArray.getD i 0 = bs[i - as.length] := by
      simp [Array.getD_eq_getD_getElem?, List.getElem?_append_right hge, hi']
    have hfalse := hbs (i - as.length) _ (List.getElem?_eq_getElem hi')
    rw [show as.length + (i - as.length) = i by omega] at hfalse
    rw [hget]
    exact hfalse

/-! ### Where lines start -/

namespace Line

/-- Where line `i` starts: after the lines before it. -/
def startOf (ls : List Line) (i : Nat) : Nat := Text.byteLen (concat (ls.take i))

@[simp] theorem startOf_zero (ls : List Line) : startOf ls 0 = 0 := by simp [startOf]

theorem startOf_cons_succ (l : Line) (ls : List Line) (i : Nat) :
    startOf (l :: ls) (i + 1) = Text.byteLen l.text + startOf ls i := by
  simp [startOf]

/-- A line starts where the one before it, with its delimiter, ends. -/
theorem startOf_succ {ls : List Line} {i : Nat} {l : Line} (h : ls[i]? = some l) :
    startOf ls (i + 1) = startOf ls i + Text.byteLen l.text := by
  rw [startOf, startOf, List.take_add_one, h]
  simp

theorem startOf_of_length_le {ls : List Line} {i : Nat} (h : ls.length ≤ i) :
    startOf ls i = Text.byteLen (concat ls) := by
  rw [startOf, List.take_of_length_le h]

theorem startOf_mono (ls : List Line) {i j : Nat} (h : i ≤ j) : startOf ls i ≤ startOf ls j := by
  obtain ⟨rest, hrest⟩ := List.take_prefix_take_left (l := ls) h
  rw [startOf, startOf, ← hrest, concat_append, Text.byteLen_append]
  omega

theorem length_split_pos (t : Text) : 0 < (split t).length :=
  List.length_pos_iff.mpr (split_ne_nil t)

end Line

namespace LineIndex

open Line

/-- The starts of lines, the first of which is at `offset`. -/
def startsOf (offset : Nat) : List Line → List Nat
  | [] => []
  | l :: ls => offset :: startsOf (offset + Text.byteLen l.text) ls

theorem startsFrom_cons_char (offset : Nat) {c : Char} {cs : Text} (hcr : c ≠ '\r')
    (hlf : c ≠ '\n') : startsFrom offset (c :: cs) = startsFrom (offset + c.utf8Size) cs := by
  rw [startsFrom]
  · exact fun ds h => absurd h hcr
  · exact hcr
  · exact hlf

theorem startsFrom_eq (offset : Nat) (t : Text) :
    offset :: startsFrom offset t = startsOf offset (split t) := by
  induction t using Text.scanInduction generalizing offset with
  | nil => rfl
  | crlf cs ih =>
    rw [startsFrom, split, startsOf, ih]
    rfl
  | cr cs h ih =>
    rw [startsFrom, split, startsOf, ih]
    · rfl
    · exact h
    · exact h
  | lf cs ih =>
    rw [startsFrom, split, startsOf, ih]
    rfl
  | char c cs hcr hlf ih =>
    rw [startsFrom_cons_char offset hcr hlf, split_cons_char hcr hlf]
    -- The first line grows by the character; where it starts, only the front entry knows.
    have hrest := ih (offset + c.utf8Size)
    cases hs : split cs with
    | nil => exact absurd hs (split_ne_nil cs)
    | cons l ls =>
      rw [hs, startsOf] at hrest
      rw [(List.cons.inj hrest).2]
      simp [consHead, startsOf, text, Nat.add_assoc]

theorem getElem?_startsOf (offset : Nat) (ls : List Line) (i : Nat) :
    (startsOf offset ls)[i]? = if i < ls.length then some (offset + startOf ls i) else none := by
  induction ls generalizing offset i with
  | nil => simp [startsOf]
  | cons l ls ih =>
    cases i with
    | zero => simp [startsOf]
    | succ i => simp [startsOf, ih, startOf_cons_succ, Nat.add_assoc]

theorem length_startsOf (offset : Nat) (ls : List Line) :
    (startsOf offset ls).length = ls.length := by
  induction ls generalizing offset with
  | nil => rfl
  | cons l ls ih => simp [startsOf, ih]

variable (t : Text)

/-- **The entries of the index** are the starts of the lines. -/
theorem starts_ofText (i : Nat) :
    (ofText t).starts[i]? = if i < (split t).length then some (startOf (split t) i) else none := by
  rw [ofText, startsFrom_eq, List.getElem?_toArray, getElem?_startsOf]
  simp

@[simp] theorem lineCount_ofText : (ofText t).lineCount = (split t).length := by
  rw [lineCount, ofText, startsFrom_eq, List.size_toArray, length_startsOf]

@[simp] theorem lastLine_ofText : (ofText t).lastLine = (split t).length - 1 := by
  rw [lastLine, lineCount_ofText]

theorem lineStart_ofText (i : Nat) :
    (ofText t).lineStart? i
      = if i < (split t).length then some (startOf (split t) i) else none :=
  starts_ofText t i

theorem getD_starts_ofText {i : Nat} (h : i < (split t).length) :
    (ofText t).starts.getD i 0 = startOf (split t) i := by
  rw [Array.getD_eq_getD_getElem?, starts_ofText, if_pos h, Option.getD_some]

theorem startOf_length_split : startOf (split t) (split t).length = t.byteLen := by
  rw [startOf_of_length_le (Nat.le_refl _), concat_split]

/-- **A line's span** goes from its start to the start of the next line. -/
theorem lineSpan_ofText {i : Nat} (h : i < (split t).length) :
    (ofText t).lineSpan? i = some (startOf (split t) i, startOf (split t) (i + 1)) := by
  rw [lineSpan?, lineStart_ofText t i, if_pos h, Option.map_some, lineStart_ofText]
  by_cases hnext : i + 1 < (split t).length
  · rw [if_pos hnext, Option.getD_some]
  · rw [if_neg hnext, Option.getD_none, show i + 1 = (split t).length by omega,
      startOf_length_split]
    rfl

theorem min_lastLine_lt (i : Nat) : min i (ofText t).lastLine < (split t).length := by
  have := length_split_pos t
  rw [lastLine_ofText]
  omega

theorem offsetAt_ofText (p : Position) :
    (ofText t).offsetAt p
      = startOf (split t) (min p.line (ofText t).lastLine) + p.character := by
  rw [offsetAt, getD_starts_ofText t (min_lastLine_lt t p.line)]

/-! ### Positions of offsets -/

/-- Among the lines up to `k`, the last one that starts no later than an offset. -/
theorem exists_line_upto (ls : List Line) (o k : Nat) :
    ∃ i ≤ k, startOf ls i ≤ o ∧ (i < k → o < startOf ls (i + 1)) := by
  induction k with
  | zero => exact ⟨0, Nat.le_refl 0, by simp, fun h => absurd h (Nat.lt_irrefl 0)⟩
  | succ k ih =>
    obtain ⟨i, hik, hle, hlt⟩ := ih
    by_cases hnext : startOf ls (k + 1) ≤ o
    · exact ⟨k + 1, Nat.le_refl _, hnext, fun h => absurd h (Nat.lt_irrefl _)⟩
    · refine ⟨i, by omega, hle, fun _ => ?_⟩
      by_cases hi : i < k
      · exact hlt hi
      · rw [show i = k by omega]
        omega

/-- Every offset is on a line: it starts no later, and if there is a next line, that starts
after the offset. -/
theorem exists_line (o : Nat) :
    ∃ i, i < (split t).length ∧ startOf (split t) i ≤ o ∧
      (i + 1 < (split t).length → o < startOf (split t) (i + 1)) := by
  have hpos := length_split_pos t
  obtain ⟨i, hik, hle, hlt⟩ := exists_line_upto (split t) o ((split t).length - 1)
  exact ⟨i, by omega, hle, fun h => hlt (by omega)⟩

/-- **The position of an offset** is on the line that holds it. -/
theorem positionAt_ofText {i o : Nat} (hi : i < (split t).length)
    (hle : startOf (split t) i ≤ o)
    (hlt : i + 1 < (split t).length → o < startOf (split t) (i + 1)) :
    (ofText t).positionAt o = ⟨i, o - startOf (split t) i⟩ := by
  have hstarts : (ofText t).starts
      = ((startsOf 0 (split t)).take (i + 1) ++ (startsOf 0 (split t)).drop (i + 1)).toArray := by
    rw [List.take_append_drop, ← startsFrom_eq]
    rfl
  have hlen : ((startsOf 0 (split t)).take (i + 1)).length = i + 1 := by
    rw [List.length_take, length_startsOf]
    omega
  -- Up to line `i` all starts are in time, from the next line on none is.
  have hpoint : partitionPoint (ofText t).starts (fun _ start => start ≤ o) = i + 1 := by
    rw [hstarts, partitionPoint_append, hlen]
    · intro j start hj
      have hji : j < i + 1 := by
        have := (List.getElem?_eq_some_iff.mp hj).choose
        omega
      rw [List.getElem?_take_of_lt hji, getElem?_startsOf, if_pos (by omega)] at hj
      have := startOf_mono (split t) (show j ≤ i by omega)
      simp only [Option.some.injEq] at hj
      simp only [decide_eq_true_eq]
      omega
    · intro j start hj
      rw [List.getElem?_drop, getElem?_startsOf] at hj
      split at hj
      · rename_i hlast
        have := startOf_mono (split t) (show i + 1 ≤ i + 1 + j by omega)
        have := hlt (by omega)
        simp only [Option.some.injEq] at hj
        simp only [decide_eq_false_iff_not]
        omega
      · exact absurd hj (by simp)
  rw [positionAt, hpoint, Nat.add_sub_cancel, getD_starts_ofText t hi]

end LineIndex

/-! ### The text of a line -/

namespace Text

/-- A line loses its delimiter, whichever it is. -/
theorem stripFinalNewline_text {l : Line} (hb : l.body.Plain) :
    stripFinalNewline l.text = l.body := by
  obtain ⟨b, d⟩ := l
  induction b with
  | nil => cases d <;> rfl
  | cons c cs ih =>
    obtain ⟨⟨hcr, hlf⟩, hcs⟩ := plain_cons.mp hb
    have hcons : stripFinalNewline (c :: (cs ++ d.text))
        = c :: stripFinalNewline (cs ++ d.text) := by
      rw [stripFinalNewline]
      · exact fun h _ => hcr h
      · exact fun h _ => hlf h
      · exact fun h _ => hcr h
    have hrest : stripFinalNewline (cs ++ d.text) = cs := ih hcs
    show stripFinalNewline (c :: (cs ++ d.text)) = c :: cs
    rw [hcons, hrest]

open Line

/-- The span of a line holds the line with its delimiter. -/
theorem slice_line {t : Text} {i : Nat} {l : Line} (h : (split t)[i]? = some l) :
    t.slice (startOf (split t) i) (startOf (split t) (i + 1)) = l.text := by
  obtain ⟨hi, hget⟩ := List.getElem?_eq_some_iff.mp h
  have hparts : concat ((split t).take i) ++ l.text ++ concat ((split t).drop (i + 1)) = t := by
    conv_rhs => rw [← concat_split t, ← List.take_append_drop i (split t)]
    rw [List.drop_eq_getElem_cons hi, hget, concat_append, concat_cons, List.append_assoc]
  have hslice := slice_append (concat ((split t).take i)) l.text (concat ((split t).drop (i + 1)))
  rw [hparts] at hslice
  rw [startOf_succ h]
  exact hslice

/-- **The text of a line** is the line without its delimiter. -/
theorem lineAt_ofText {t : Text} {i : Nat} {l : Line}
    (h : (split t)[min i (LineIndex.ofText t).lastLine]? = some l) :
    t.lineAt (LineIndex.ofText t) i = l.body := by
  have hplain := (complete_split t).plain l (List.mem_of_getElem? h)
  rw [lineAt, LineIndex.lineSpan_ofText t (LineIndex.min_lastLine_lt t i), Option.getD_some]
  simp only
  rw [slice_line h, stripFinalNewline_text hplain]

end Text

/-- **A place in the editor**, wherever it is, becomes a position on a line that exists, and in
its text or at the end of it. -/
theorem Document.ofEditor_within (version : Int) (t : Text) (enc : Encoding)
    (p : Editor.Position) :
    ∃ l, (Line.split t)[((ofText version t enc).ofEditor p).line]? = some l ∧
      ((ofText version t enc).ofEditor p).character ≤ Text.byteLen l.body := by
  have hlt := LineIndex.min_lastLine_lt t p.line.toNat
  have hline : (ofText version t enc).lineText (min p.line.toNat (LineIndex.ofText t).lastLine)
      = (Line.split t)[min p.line.toNat (LineIndex.ofText t).lastLine].body := by
    refine Text.lineAt_ofText (t := t) ?_
    rw [Nat.min_eq_left (Nat.min_le_right _ _)]
    exact List.getElem?_eq_getElem hlt
  refine ⟨_, List.getElem?_eq_getElem hlt, ?_⟩
  rw [← hline]
  exact Encoding.byteOfUnits_le enc _ _

end Newline
