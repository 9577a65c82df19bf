/-
Offsets of a text and of its LF form.

The marks carry offsets in both directions by counting: one mark more for every pair before an
offset. From the strict order of the marks alone the two directions are adjoint; from the lines
of the text follows which places they connect.

* `partitionPoint_spec` — what bisection finds in entries that are in order;
* `CrlfMarks.gc_toSource_ofSource` — an offset of the LF form stands for one no later than `x`
  exactly if it is no later than the one that `x` is carried to;
* `CrlfMarks.toSource_line`, `CrlfMarks.ofSource_pair` — both directions on a given line;
* `Text.sources` — where the bytes of the LF form come from;
* `CrlfMarks.offsets_correspond` — the marks connect the places that belong together.
-/
import Mathlib.Order.GaloisConnection.Basic
import Newline.Proofs.Scanners
import Newline.Proofs.Stream

namespace Newline

/-! ### Bisection in order -/

/-- A property of numbers below `n` that never comes back ends at one place. -/
theorem exists_turn {p : Nat → Bool} {n : Nat}
    (h : ∀ i j, i ≤ j → j < n → p j = true → p i = true) :
    ∃ k ≤ n, (∀ i, i < k → p i = true) ∧ ∀ i, k ≤ i → i < n → p i = false := by
  induction n with
  | zero =>
    refine ⟨0, Nat.le_refl 0, fun i hi => ?_, fun i _ hi => ?_⟩
    · exact absurd hi (Nat.not_lt_zero i)
    · exact absurd hi (Nat.not_lt_zero i)
  | succ n ih =>
    by_cases hn : p n = true
    · refine ⟨n + 1, Nat.le_refl _, fun i hi => h i n (by omega) (by omega) hn, ?_⟩
      intro i hle hlt
      omega
    · obtain ⟨k, hk, hbefore, hafter⟩ := ih fun i j hij hj => h i j hij (by omega)
      refine ⟨k, by omega, hbefore, ?_⟩
      intro i hle hlt
      by_cases hi : i < n
      · exact hafter i hle hi
      · rw [show i = n by omega]
        simpa using hn

theorem partitionPoint_spec {entries : Array Nat} {p : Nat → Nat → Bool}
    (h : ∀ i j, i ≤ j → j < entries.size → p j (entries.getD j 0) = true →
      p i (entries.getD i 0) = true) :
    partitionPoint entries p ≤ entries.size ∧
      ∀ i < entries.size, i < partitionPoint entries p ↔ p i (entries.getD i 0) = true := by
  obtain ⟨k, hk, hbefore, hafter⟩ := exists_turn h
  have hpoint : partitionPoint entries p = k :=
    bisect_eq (Nat.zero_le k) hk (fun i _ => hbefore i) hafter
  rw [hpoint]
  refine ⟨hk, fun i hi => ⟨hbefore i, fun hp => ?_⟩⟩
  by_contra hge
  rw [hafter i (by omega) hi] at hp
  exact absurd hp (by simp)

namespace CrlfMarks

/-! ### Marks in order -/

section Order

variable {m : CrlfMarks} (hm : m.marks.toList.Pairwise (· < ·))
include hm

/-- Between two marks there is room for all those between them. -/
theorem getD_marks_add_le {i j : Nat} (hij : i ≤ j) (hj : j < m.marks.size) :
    m.marks.getD i 0 + (j - i) ≤ m.marks.getD j 0 := by
  induction j, hij using Nat.le_induction with
  | base => omega
  | succ j hij ih =>
    have hstep : m.marks.getD j 0 < m.marks.getD (j + 1) 0 := by
      have hlt := List.pairwise_iff_getElem.mp hm j (j + 1) (by simpa using by omega)
        (by simpa using hj) (by omega)
      rw [Array.getD_eq_getD_getElem?, Array.getD_eq_getD_getElem?, Array.getElem?_eq_getElem hj,
        Array.getElem?_eq_getElem (show j < m.marks.size by omega)]
      simpa using hlt
    have hprev := ih (by omega)
    omega

/-- The marks before an offset of the LF form. -/
theorem exists_toSource (o : Nat) :
    ∃ c ≤ m.marks.size, m.toSource o = o + c ∧
      ∀ i < m.marks.size, i < c ↔ m.marks.getD i 0 < o := by
  have hspec := @partitionPoint_spec m.marks (fun _ mark => mark < o) ?_
  · exact ⟨_, hspec.1, rfl, by simpa using hspec.2⟩
  · intro i j hij hj hlt
    have hle := getD_marks_add_le hm hij hj
    simp only [decide_eq_true_eq] at hlt ⊢
    omega

/-- The pairs that begin before an offset of the text. The pair of mark `i` has `i` others before
it, whose carriage returns the mark does not count. -/
theorem exists_ofSource (x : Nat) :
    ∃ d ≤ m.marks.size, partitionPoint m.marks (fun i mark => mark + i < x) = d ∧
      ∀ i < m.marks.size, i < d ↔ m.marks.getD i 0 + i < x := by
  have hspec := @partitionPoint_spec m.marks (fun i mark => mark + i < x) ?_
  · exact ⟨_, hspec.1, rfl, by simpa using hspec.2⟩
  · intro i j hij hj hlt
    have hle := getD_marks_add_le hm hij hj
    simp only [decide_eq_true_eq] at hlt ⊢
    omega

/-- **No more pairs begin before an offset than there are offsets.** -/
theorem partitionPoint_marks_le (x : Nat) :
    partitionPoint m.marks (fun i mark => mark + i < x) ≤ x := by
  obtain ⟨d, hd, hpoint, hiff⟩ := exists_ofSource hm x
  rw [hpoint]
  rcases Nat.eq_zero_or_pos d with rfl | hpos
  · exact Nat.zero_le x
  · have hlast := (hiff (d - 1) (by omega)).mp (by omega)
    omega

/-- **The two directions are adjoint.** -/
theorem gc_toSource_ofSource : GaloisConnection m.toSource m.ofSource := by
  intro o x
  obtain ⟨c, hc, hto, hmark⟩ := exists_toSource hm o
  obtain ⟨d, hd, hpoint, hpair⟩ := exists_ofSource hm x
  have hunder := partitionPoint_marks_le hm x
  rw [hpoint] at hunder
  rw [hto, ofSource, hpoint]
  constructor
  · intro hle
    by_cases hdc : d ≤ c
    · omega
    · -- The last pair before `x` is behind `o`, by as many marks as lie between.
      have hlast := (hpair (d - 1) (by omega)).mp (by omega)
      have hout := mt (hmark c (by omega)).mpr (by omega)
      have hroom := getD_marks_add_le hm (show c ≤ d - 1 by omega) (by omega)
      omega
  · intro hle
    by_cases hcd : c ≤ d
    · omega
    · -- The first pair not before `x` has its mark before `o`, which is no later than `x`.
      have hin := (hmark (c - 1) (by omega)).mp (by omega)
      have hout := mt (hpair d (by omega)).mpr (by omega)
      have hroom := getD_marks_add_le hm (show d ≤ c - 1 by omega) (by omega)
      omega

/-- An offset of the text is carried to the last one of the LF form that stands for no later one. -/
theorem ofSource_eq_of_le_of_lt {o x : Nat} (hle : m.toSource o ≤ x)
    (hlt : x < m.toSource (o + 1)) : m.ofSource x = o := by
  have hgc := gc_toSource_ofSource hm
  have hlow := (hgc o x).mp hle
  have hhigh := mt (hgc (o + 1) x).mpr (by omega)
  omega

end Order

/-! ### Offsets on lines -/

open Line

variable {t : Text} {i : Nat} {l : Line}

theorem pairwise_marksOf (offset : Nat) (ls : List Line) :
    (marksOf offset ls).Pairwise (· < ·) := by
  induction ls generalizing offset with
  | nil => exact List.Pairwise.nil
  | cons l ls ih =>
    rw [marksOf]
    by_cases hcrlf : l.delimiter = .crlf
    · rw [if_pos hcrlf, List.singleton_append, List.pairwise_cons]
      refine ⟨?_, ih _⟩
      intro mark hmark
      have hlen := byteLen_text_withEnding_lf (l := l) (by simp [hcrlf])
      have hle := le_of_mem_marksOf hmark
      omega
    · rw [if_neg hcrlf, List.nil_append]
      exact ih _

theorem pairwise_marks (t : Text) : (ofText t).marks.toList.Pairwise (· < ·) := by
  rw [marks_ofText]
  exact pairwise_marksOf 0 (split t)

theorem size_ofText (t : Text) : (ofText t).size = tally .crlf (split t) := by
  rw [size, marks_ofText, List.size_toArray, length_marksOf]

theorem complete_lf (t : Text) : Complete ((split t).map (withEnding .lf)) :=
  (complete_split t).map_withEnding .lf

theorem getElem?_lf (hl : (split t)[i]? = some l) :
    ((split t).map (withEnding .lf))[i]? = some (l.withEnding .lf) := by
  rw [List.getElem?_map, hl, Option.map_some]

/-- **From the LF form, on a given line**: the same place on the same line. -/
theorem toSource_line (hl : (split t)[i]? = some l) {x : Nat} (hx : x ≤ Text.byteLen l.body) :
    (ofText t).toSource (startOf ((split t).map (withEnding .lf)) i + x)
      = startOf (split t) i + x := by
  have hholds := (complete_lf t).holds (getElem?_lf hl) hx
  have hlt := hholds.lt
  have hnext := hholds.lt_next
  rw [List.length_map] at hlt hnext
  rw [toSource_eq hlt hholds.start_le hnext, startOf_eq (split t) i]
  omega

/-- **To the LF form, between the two characters of a pair**: the line feed that it has become. -/
theorem ofSource_pair (hl : (split t)[i]? = some l) (hcrlf : l.delimiter = .crlf) :
    (ofText t).ofSource (startOf (split t) i + Text.byteLen l.body + 1)
      = startOf ((split t).map (withEnding .lf)) i + Text.byteLen l.body := by
  -- The next offset of the LF form is the start of the next line.
  have hne : l.delimiter ≠ .eof := by simp [hcrlf]
  have hi := (List.getElem?_eq_some_iff.mp hl).choose
  obtain ⟨k, hk⟩ : ∃ k, (split t)[i + 1]? = some k := by
    have hlast := mt ((complete_split t).delimiter_eq_eof_iff hl).mpr hne
    exact ⟨_, List.getElem?_eq_getElem (by omega)⟩
  have hnext := toSource_line hk (Nat.zero_le _)
  rw [Nat.add_zero, Nat.add_zero, startOf_succ (getElem?_lf hl), byteLen_text_withEnding_lf hne,
    startOf_succ hl, byteLen_text, hcrlf, Delimiter.byteLen_text_crlf, ← Nat.add_assoc] at hnext
  have hhere := toSource_line hl (Nat.le_refl _)
  exact ofSource_eq_of_le_of_lt (pairwise_marks t) (by omega) (by omega)

/-- Every offset within the LF form is in the text of a line or at its end. -/
theorem exists_line_of_le_lf {o : Nat} (ho : o ≤ (t.normalize (.fixed .lf)).byteLen) :
    ∃ i l x, (split t)[i]? = some l ∧ x ≤ Text.byteLen l.body ∧
      o = startOf ((split t).map (withEnding .lf)) i + x := by
  obtain ⟨i, hholds⟩ := exists_holds (t.normalize (.fixed .lf)) o
  rw [split_normalize] at hholds
  obtain ⟨l, hl⟩ : ∃ l, (split t)[i]? = some l :=
    ⟨_, List.getElem?_eq_getElem (by simpa using hholds.lt)⟩
  rw [Text.normalize_fixed] at ho
  have hstart := hholds.start_le
  refine ⟨i, l, o - startOf ((split t).map (withEnding .lf)) i, hl, ?_, by omega⟩
  rcases hholds.within (complete_lf t) (getElem?_lf hl) ho with hle | ⟨hcrlf, -⟩
  · rw [body_withEnding] at hle
    omega
  · exact absurd hcrlf l.delimiter_withEnding_lf_ne

/-- Every offset within the text is in the text of a line or at its end, or between the two
characters of the pair that ends the line. -/
theorem exists_line_of_le {x : Nat} (hx : x ≤ t.byteLen) :
    ∃ i l, (split t)[i]? = some l ∧
      ((∃ y ≤ Text.byteLen l.body, x = startOf (split t) i + y) ∨
        l.delimiter = .crlf ∧ x = startOf (split t) i + Text.byteLen l.body + 1) := by
  obtain ⟨i, hholds⟩ := exists_holds t x
  obtain ⟨l, hl⟩ := hholds.exists_line
  refine ⟨i, l, hl, ?_⟩
  have hstart := hholds.start_le
  rcases hholds.within (complete_split t) hl (by rwa [concat_split]) with hle | hpair
  · exact Or.inl ⟨x - startOf (split t) i, by omega, by omega⟩
  · exact Or.inr hpair

/-! ### There and back -/

theorem ofSource_toSource {o : Nat} (ho : o ≤ (t.normalize (.fixed .lf)).byteLen) :
    (ofText t).ofSource ((ofText t).toSource o) = o := by
  obtain ⟨i, l, x, hl, hx, rfl⟩ := exists_line_of_le_lf ho
  rw [toSource_line hl hx, ofSource_eq hl hx]

theorem toSource_ofSource {x : Nat} (hx : x ≤ t.byteLen) :
    (ofText t).toSource ((ofText t).ofSource x) = if t.InPair x then x - 1 else x := by
  obtain ⟨i, l, hl, ⟨y, hy, rfl⟩ | ⟨hcrlf, rfl⟩⟩ := exists_line_of_le hx
  · rw [if_neg (Text.not_inPair_line hl hy), ofSource_eq hl hy, toSource_line hl hy]
  · rw [if_pos (Text.inPair_of_line hl hcrlf), ofSource_pair hl hcrlf,
      toSource_line hl (Nat.le_refl _), Nat.add_sub_cancel]

theorem toSource_byteLen (t : Text) :
    (ofText t).toSource (t.normalize (.fixed .lf)).byteLen = t.byteLen := by
  rw [toSource_of_byteLen_le (Nat.le_refl _), ← byteLen_eq]

theorem isBoundary_lf_iff (hl : (split t)[i]? = some l) {x : Nat} (hx : x ≤ Text.byteLen l.body) :
    (t.normalize (.fixed .lf)).IsBoundary (startOf ((split t).map (withEnding .lf)) i + x)
      ↔ Text.IsBoundary l.body x := by
  have hlf := getElem?_lf hl
  rw [← split_normalize] at hlf ⊢
  exact Text.isBoundary_line_iff (l := l.withEnding .lf) hlf hx

/-- **Boundaries go to boundaries**, from the LF form. -/
theorem isBoundary_toSource {o : Nat} (h : (t.normalize (.fixed .lf)).IsBoundary o) :
    t.IsBoundary ((ofText t).toSource o) := by
  obtain ⟨i, l, x, hl, hx, rfl⟩ := exists_line_of_le_lf h.le_byteLen
  rw [toSource_line hl hx, Text.isBoundary_line_iff hl hx]
  exact (isBoundary_lf_iff hl hx).mp h

/-- **Boundaries go to boundaries**, to the LF form. -/
theorem isBoundary_ofSource {x : Nat} (h : t.IsBoundary x) :
    (t.normalize (.fixed .lf)).IsBoundary ((ofText t).ofSource x) := by
  obtain ⟨i, l, hl, ⟨y, hy, rfl⟩ | ⟨hcrlf, rfl⟩⟩ := exists_line_of_le h.le_byteLen
  · rw [ofSource_eq hl hy, isBoundary_lf_iff hl hy]
    exact (Text.isBoundary_line_iff hl hy).mp h
  · rw [ofSource_pair hl hcrlf, isBoundary_lf_iff hl (Nat.le_refl _)]
    exact Text.isBoundary_byteLen l.body

end CrlfMarks

/-! ### Where the bytes of the LF form come from -/

namespace Text

open Line

theorem getElem?_toBytes_line {ls : List Line} {i x : Nat} {l : Line} (hl : ls[i]? = some l)
    (hx : x < byteLen l.text) :
    (toBytes (concat ls))[startOf ls i + x]? = (toBytes l.text)[x]? := by
  rw [← concat_around hl, ← List.append_assoc l.body, toBytes_append, toBytes_append, startOf,
    ← length_toBytes, List.getElem?_append_right (Nat.le_add_right _ _), Nat.add_sub_cancel_left,
    List.getElem?_append_left (by rwa [length_toBytes]), text]

/-- A carriage return as a line feed, any other byte as it is. -/
def lfOfByte (b : UInt8) : UInt8 := if b = Chunk.crByte then Chunk.lfByte else b

theorem lfOfByte_of_plain {b : Text} (hb : b.Plain) : ∀ byte ∈ toBytes b, lfOfByte byte = byte := by
  intro byte hbyte
  obtain ⟨c, hc, hmem⟩ := List.mem_flatMap.mp hbyte
  rw [lfOfByte, if_neg (ne_crByte_of_mem (hb c hc).1 byte hmem)]

/-- Up to its own terminator, a line of the LF form has the bytes of the line, but for a carriage
return at the end. -/
theorem getElem?_toBytes_withEnding_lf {l : Line} (hb : l.body.Plain) {x : Nat}
    (hx : x < byteLen (l.withEnding .lf).text) :
    (toBytes (l.withEnding .lf).text)[x]? = (toBytes l.text)[x]?.map lfOfByte := by
  obtain ⟨b, d⟩ := l
  by_cases hin : x < byteLen b
  · -- A byte of the text of the line.
    have hlen : x < (toBytes b).length := by rwa [length_toBytes]
    rw [text, text, body_withEnding, toBytes_append, toBytes_append,
      List.getElem?_append_left hlen, List.getElem?_append_left hlen, List.getElem?_eq_getElem hlen,
      Option.map_some, lfOfByte_of_plain hb _ (List.getElem_mem hlen)]
  · -- The first byte of the terminator.
    have hne : d ≠ .eof := by
      rintro rfl
      exact hin (by simpa [text, withEnding] using hx)
    have hlf : byteLen (withEnding .lf ⟨b, d⟩).text = byteLen b + 1 :=
      byteLen_text_withEnding_lf hne
    have hend : x = (toBytes b).length := by
      rw [length_toBytes]
      omega
    rw [text, text, body_withEnding, toBytes_append, toBytes_append, hend,
      List.getElem?_append_right (Nat.le_refl _), List.getElem?_append_right (Nat.le_refl _),
      Nat.sub_self, delimiter_withEnding, if_neg hne]
    cases d with
    | eof => exact absurd rfl hne
    | lf => rfl
    | cr => rfl
    | crlf => rfl

/-- For each byte of the LF form the offset of the byte that it was, in a text that begins at
`offset`. A pair is its carriage return. -/
def sourcesFrom (offset : Nat) : Text → List Nat
  | [] => []
  | '\r' :: '\n' :: cs => offset :: sourcesFrom (offset + 2) cs
  | c :: cs => List.range' offset c.utf8Size ++ sourcesFrom (offset + c.utf8Size) cs

/-- For each byte of the LF form the offset of the byte that it was. -/
def sources (t : Text) : List Nat := sourcesFrom 0 t

/-- The same, line by line: the bytes of a line, without the line feed of a pair. -/
def sourcesOf (offset : Nat) : List Line → List Nat
  | [] => []
  | l :: ls => List.range' offset (byteLen (l.withEnding .lf).text)
      ++ sourcesOf (offset + byteLen l.text) ls

theorem sourcesFrom_eq (offset : Nat) (t : Text) :
    sourcesFrom offset t = sourcesOf offset (split t) := by
  induction t using scanInduction generalizing offset with
  | nil => rfl
  | crlf cs ih =>
    rw [sourcesFrom, split, sourcesOf, ih]
    rfl
  | cr cs h ih =>
    rw [sourcesFrom, split, sourcesOf, ih]
    · rfl
    · exact h
    · exact fun ds _ hds => h ds hds
  | lf cs ih =>
    rw [sourcesFrom, split, sourcesOf, ih]
    · rfl
    · simp
  | char c cs hcr hlf ih =>
    rw [sourcesFrom, split_cons_char hcr hlf, ih]
    · cases hs : split cs with
      | nil => exact absurd hs (split_ne_nil cs)
      | cons l ls =>
        simp [consHead, sourcesOf, text, withEnding, Nat.add_assoc, ← List.range'_append_1]
    · exact fun ds h => absurd h hcr

theorem getElem?_sourcesOf (offset : Nat) {ls : List Line} {i x : Nat} {l : Line}
    (hl : ls[i]? = some l) (hx : x < byteLen (l.withEnding .lf).text) :
    (sourcesOf offset ls)[startOf (ls.map (withEnding .lf)) i + x]?
      = some (offset + startOf ls i + x) := by
  induction ls generalizing offset i with
  | nil => exact absurd hl (by simp)
  | cons m ms ih =>
    cases i with
    | zero =>
      obtain rfl : m = l := by simpa using hl
      rw [startOf_zero, startOf_zero, Nat.zero_add, sourcesOf,
        List.getElem?_append_left (by simpa using hx), List.getElem?_range' hx]
      simp
    | succ i =>
      have hrest := ih (offset + byteLen m.text) (by simpa using hl)
      rw [List.map_cons, startOf_cons_succ, startOf_cons_succ, sourcesOf,
        List.getElem?_append_right (by simp only [List.length_range']; omega), List.length_range',
        Nat.add_assoc, Nat.add_sub_cancel_left, hrest, ← Nat.add_assoc offset]

/-- How often a line feed stands right behind a carriage return. -/
def pairs (t : Text) : Nat := (t.zip t.tail).count ('\r', '\n')

theorem pairs_cons_cons (c d : Char) (cs : Text) :
    pairs (c :: d :: cs) = pairs (d :: cs) + if c = '\r' ∧ d = '\n' then 1 else 0 := by
  simp only [pairs, List.tail_cons, List.zip_cons_cons, List.count_cons, beq_iff_eq, Prod.mk.injEq]

theorem pairs_cons_of_ne {c : Char} (hc : c ≠ '\r') (cs : Text) : pairs (c :: cs) = pairs cs := by
  cases cs with
  | nil => rfl
  | cons d cs => rw [pairs_cons_cons, if_neg (fun h => hc h.1), Nat.add_zero]

/-- **Pairs are delimiters**: each ends a line. -/
theorem pairs_eq (t : Text) : t.pairs = tally .crlf (split t) := by
  induction t using scanInduction with
  | nil => rfl
  | crlf cs ih =>
    rw [pairs_cons_cons, if_pos ⟨rfl, rfl⟩, pairs_cons_of_ne (by decide), ih, split, tally_cons,
      if_pos rfl]
  | cr cs h ih =>
    have hpairs : pairs ('\r' :: cs) = pairs cs := by
      cases cs with
      | nil => rfl
      | cons d ds =>
        rw [pairs_cons_cons, if_neg, Nat.add_zero]
        rintro ⟨-, rfl⟩
        exact h ds rfl
    rw [hpairs, ih, split.eq_3 cs h, tally_cons, if_neg (by simp), Nat.add_zero]
  | lf cs ih =>
    rw [pairs_cons_of_ne (by decide), ih, split, tally_cons, if_neg (by simp), Nat.add_zero]
  | char c cs hcr hlf ih => rw [pairs_cons_of_ne hcr, ih, split_cons_char hcr hlf, tally_consHead]

end Text

namespace CrlfMarks

open Line

variable {t : Text}

/-- Every byte of the LF form is of one of its lines. -/
theorem exists_line_of_lt_lf {o : Nat} (ho : o < (t.normalize (.fixed .lf)).byteLen) :
    ∃ i l x, (split t)[i]? = some l ∧ x ≤ Text.byteLen l.body ∧
      x < Text.byteLen (l.withEnding .lf).text ∧
      o = startOf ((split t).map (withEnding .lf)) i + x := by
  obtain ⟨i, l, x, hl, hx, rfl⟩ := exists_line_of_le_lf (Nat.le_of_lt ho)
  refine ⟨i, l, x, hl, hx, ?_, rfl⟩
  by_cases hne : l.delimiter = .eof
  · -- Behind the last line there is nothing.
    have hlast := ((complete_split t).delimiter_eq_eof_iff hl).mp hne
    rw [Text.normalize_fixed, ← startOf_of_length_le (i := i + 1) (by rw [List.length_map]; omega),
      startOf_succ (getElem?_lf hl)] at ho
    omega
  · rw [byteLen_text_withEnding_lf hne]
    omega

/-- **The byte that an offset of the LF form stands for**, by its place and by its value. -/
theorem source_byte {o : Nat} (ho : o < (t.normalize (.fixed .lf)).byteLen) :
    t.sources[o]? = some ((ofText t).toSource o) ∧
      (t.normalize (.fixed .lf)).toBytes[o]?
        = t.toBytes[(ofText t).toSource o]?.map Text.lfOfByte := by
  obtain ⟨i, l, x, hl, hle, hx, rfl⟩ := exists_line_of_lt_lf ho
  have hplain := (complete_split t).plain l (List.mem_of_getElem? hl)
  rw [toSource_line hl hle]
  constructor
  · rw [Text.sources, Text.sourcesFrom_eq, Text.getElem?_sourcesOf 0 hl hx, Nat.zero_add]
  · have hlong := byteLen_text_eq l
    have hbyte := Text.getElem?_toBytes_line hl (show x < Text.byteLen l.text by omega)
    rw [concat_split] at hbyte
    rw [Text.normalize_fixed, Text.getElem?_toBytes_line (getElem?_lf hl) hx, hbyte,
      Text.getElem?_toBytes_withEnding_lf hplain hx]

/-- **A mark stands for a pair**: a line feed in the LF form, a carriage return and a line feed in
the text. -/
theorem mark_pair {mark : Nat} (h : mark ∈ (ofText t).marks) :
    (t.normalize (.fixed .lf)).toBytes[mark]? = some Chunk.lfByte ∧
      t.InPair ((ofText t).toSource mark + 1) := by
  obtain ⟨i, l, hl, hcrlf, rfl⟩ := exists_line_of_mem_marks h
  rw [toSource_line hl (Nat.le_refl _)]
  refine ⟨?_, Text.inPair_of_line hl hcrlf⟩
  have hlen := byteLen_text_withEnding_lf (l := l) (by simp [hcrlf])
  rw [Text.normalize_fixed, Text.getElem?_toBytes_line (getElem?_lf hl) (by omega), text,
    body_withEnding, Text.toBytes_append, ← Text.length_toBytes,
    List.getElem?_append_right (Nat.le_refl _), Nat.sub_self, delimiter_withEnding,
    if_neg (by simp [hcrlf])]
  rfl

/-- What the marks of a text say about the offsets of the text and of its LF form. -/
structure Connects (m : CrlfMarks) (t lf : Text) : Prop where
  increase : m.marks.toList.Pairwise (· < ·)
  newline : ∀ mark ∈ m.marks, lf.toBytes[mark]? = some Chunk.lfByte
  size : m.size = t.pairs
  len : lf.byteLen + m.size = t.byteLen
  source : ∀ o < lf.byteLen, t.sources[o]? = some (m.toSource o)
  source_byte : ∀ o < lf.byteLen, lf.toBytes[o]? = t.toBytes[m.toSource o]?.map Text.lfOfByte
  source_pair : ∀ mark ∈ m.marks, t.InPair (m.toSource mark + 1)
  source_end : m.toSource lf.byteLen = t.byteLen
  ofSource_toSource : ∀ o ≤ lf.byteLen, m.ofSource (m.toSource o) = o
  toSource_ofSource : ∀ x ≤ t.byteLen,
    m.toSource (m.ofSource x) = if t.InPair x then x - 1 else x
  toSource_mono : Monotone m.toSource
  ofSource_mono : Monotone m.ofSource
  toSource_boundary : ∀ o, lf.IsBoundary o → t.IsBoundary (m.toSource o)
  ofSource_boundary : ∀ x, t.IsBoundary x → lf.IsBoundary (m.ofSource x)
  no_underflow : ∀ x, m.ofSource x + partitionPoint m.marks (fun i mark => mark + i < x) = x

/-- **The marks connect the places of a text and of its LF form** that belong together, in both
directions. -/
theorem offsets_correspond (t : Text) :
    Connects (ofText t) t (t.normalize (.fixed .lf)) where
  increase := pairwise_marks t
  newline mark h := (mark_pair h).1
  size := by rw [size_ofText, Text.pairs_eq]
  len := by rw [size_ofText, ← byteLen_eq]
  source o ho := (CrlfMarks.source_byte ho).1
  source_byte o ho := (CrlfMarks.source_byte ho).2
  source_pair mark h := (mark_pair h).2
  source_end := toSource_byteLen t
  ofSource_toSource o ho := CrlfMarks.ofSource_toSource ho
  toSource_ofSource x hx := CrlfMarks.toSource_ofSource hx
  toSource_mono := (gc_toSource_ofSource (pairwise_marks t)).monotone_l
  ofSource_mono := (gc_toSource_ofSource (pairwise_marks t)).monotone_u
  toSource_boundary o h := isBoundary_toSource h
  ofSource_boundary x h := isBoundary_ofSource h
  no_underflow x := Nat.sub_add_cancel (partitionPoint_marks_le (pairwise_marks t) x)

end CrlfMarks

end Newline
