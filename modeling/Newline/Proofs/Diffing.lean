/-
Edits that turn one text into another.

* `commonInit_spec`, `commonTail_spec` — what two lists share, and that they share no more;
* `Line.FirstDifference`, `Line.LastDifference` — where two lists of lines differ;
* `Edit.Rewrites`, `Edit.Rewrites.applyAll` — an edit that puts its text between the two parts
  that an old and a new text share;
* `Edit.ofLinesInBytes?` — the edit between lines, computed with offsets in bytes that must be
  boundaries and differences that must not be negative;
* `Edit.ofLines_eq_of_delimiter_eq`, `Edit.ofLines_eq_of_delimiter_ne` — what it is;
* `Edit.Window.settles` — between lines that differ there is an edit, and it rewrites the text;
* `Edit.diff_rewrites` — the edits from one text to another have the other as their result.
-/
import Newline.Edit.Diff
import Newline.Proofs.Scanners
import Newline.Proofs.Splicing

namespace Newline

/-! ### What two lists share -/

section Common

variable {α : Type} [DecidableEq α]

theorem commonInit_spec (as bs : List α) :
    ∃ r s, as = commonInit as bs ++ r ∧ bs = commonInit as bs ++ s ∧
      ∀ a ∈ r.head?, ∀ b ∈ s.head?, a ≠ b := by
  fun_induction commonInit as bs with
  | case1 as a bs ih =>
    obtain ⟨r, s, has, hbs, hne⟩ := ih
    exact ⟨r, s, by rw [List.cons_append, ← has], by rw [List.cons_append, ← hbs], hne⟩
  | case2 a as b bs hab =>
    refine ⟨a :: as, b :: bs, rfl, rfl, ?_⟩
    intro x hx y hy
    rw [Option.mem_some.mp hx, Option.mem_some.mp hy] at hab
    exact hab
  | case3 as bs hnil =>
    refine ⟨as, bs, rfl, rfl, ?_⟩
    intro a ha b hb
    obtain ⟨as', rfl⟩ := List.head?_eq_some_iff.mp ha
    obtain ⟨bs', rfl⟩ := List.head?_eq_some_iff.mp hb
    exact absurd rfl (hnil a as' b bs' rfl)

theorem commonTail_spec (as bs : List α) :
    ∃ r s, as = r ++ commonTail as bs ∧ bs = s ++ commonTail as bs ∧
      ∀ a ∈ r.getLast?, ∀ b ∈ s.getLast?, a ≠ b := by
  obtain ⟨r, s, has, hbs, hne⟩ := commonInit_spec as.reverse bs.reverse
  refine ⟨r.reverse, s.reverse, ?_, ?_, by simpa using hne⟩
  · rw [commonTail, ← List.reverse_append, ← has, List.reverse_reverse]
  · rw [commonTail, ← List.reverse_append, ← hbs, List.reverse_reverse]

end Common

namespace Line

/-! ### Where lines differ -/

/-- The lists differ at `i` and not before. -/
def FirstDifference (as bs : List Line) (i : Nat) : Prop :=
  as[i]? ≠ bs[i]? ∧ ∀ j < i, as[j]? = bs[j]?

/-- The lists differ at `i` and not after. -/
def LastDifference (as bs : List Line) (i : Nat) : Prop :=
  as[i]? ≠ bs[i]? ∧ ∀ j, i < j → as[j]? = bs[j]?

variable {as bs : List Line} {first last : Nat}

theorem FirstDifference.le (hf : FirstDifference as bs first) (hl : LastDifference as bs last) :
    first ≤ last := by
  by_contra hlt
  exact hl.1 (hf.2 last (by omega))

theorem FirstDifference.take_eq (h : FirstDifference as bs first) :
    as.take first = bs.take first := by
  refine List.ext_getElem? fun j => ?_
  by_cases hj : j < first
  · rw [List.getElem?_take_of_lt hj, List.getElem?_take_of_lt hj, h.2 j hj]
  · rw [List.getElem?_take_eq_none (by omega), List.getElem?_take_eq_none (by omega)]

theorem LastDifference.drop_eq (h : LastDifference as bs last) :
    as.drop (last + 1) = bs.drop (last + 1) := by
  refine List.ext_getElem? fun j => ?_
  rw [List.getElem?_drop, List.getElem?_drop, h.2 _ (by omega)]

/-- What two lists of one length share at the front ends at their first difference. -/
theorem firstDifference_commonInit (hlen : as.length = bs.length) (hne : as ≠ bs) :
    FirstDifference as bs (commonInit as bs).length := by
  obtain ⟨r, s, has, hbs, hhead⟩ := commonInit_spec as bs
  generalize commonInit as bs = c at has hbs
  subst has hbs
  have hrs : r.length = s.length := by simpa using hlen
  refine ⟨?_, fun j hj => ?_⟩
  · rw [List.getElem?_append_right (Nat.le_refl _), List.getElem?_append_right (Nat.le_refl _),
      Nat.sub_self]
    rcases r with _ | ⟨a, r⟩
    · exact absurd (by rw [List.length_eq_zero_iff.mp hrs.symm]) hne
    · obtain ⟨b, s, rfl⟩ := List.exists_cons_of_length_eq_add_one hrs.symm
      simpa using hhead a rfl b rfl
  · rw [List.getElem?_append_left hj, List.getElem?_append_left hj]

/-- What they share at the back begins behind their last difference. -/
theorem lastDifference_commonTail (hlen : as.length = bs.length) (hne : as ≠ bs) :
    LastDifference as bs (as.length - 1 - (commonTail as bs).length) := by
  obtain ⟨r, s, has, hbs, hlast⟩ := commonTail_spec as bs
  generalize commonTail as bs = c at has hbs
  subst has hbs
  have hrs : r.length = s.length := by simpa using hlen
  -- The parts that are not shared are as long as each other, and not empty.
  rcases List.eq_nil_or_concat r with rfl | ⟨r, a, rfl⟩
  · exact absurd (by rw [List.length_eq_zero_iff.mp hrs.symm]) hne
  · rcases List.eq_nil_or_concat s with rfl | ⟨s, b, rfl⟩
    · simp at hrs
    · simp only [List.concat_eq_append, List.length_append, List.length_singleton,
        Nat.add_right_cancel_iff] at hrs hlast ⊢
      have hab : a ≠ b := hlast a (by simp) b (by simp)
      rw [show r.length + 1 + c.length - 1 - c.length = r.length by omega]
      refine ⟨?_, fun j hj => ?_⟩
      · simpa [hrs] using hab
      · rw [List.getElem?_append_right (by simp; omega),
          List.getElem?_append_right (by simp; omega)]
        simp [hrs]

/-! ### The lines between -/

/-- The lines from `first` up to `last`, put together. -/
def between (ls : List Line) (first last : Nat) : Text :=
  concat ((ls.drop first).take (last - first))

variable {ls : List Line} {l : Line}

@[simp] theorem between_self (ls : List Line) (i : Nat) : between ls i i = [] := by
  simp [between]

theorem exists_between (hl : ls[first]? = some l) (h : first < last) :
    ∃ rest, between ls first last = l.body ++ rest := by
  obtain ⟨hi, rfl⟩ := List.getElem?_eq_some_iff.mp hl
  obtain ⟨n, hn⟩ : ∃ n, last - first = n + 1 := ⟨last - first - 1, by omega⟩
  refine ⟨ls[first].delimiter.text ++ concat ((ls.drop (first + 1)).take n), ?_⟩
  rw [between, hn, List.drop_eq_getElem_cons hi, List.take_succ_cons, concat_cons, text,
    List.append_assoc]

theorem concat_take_append_between (ls : List Line) (h : first ≤ last) :
    concat (ls.take first) ++ between ls first last = concat (ls.take last) := by
  rw [between, ← concat_append, ← List.take_add, Nat.add_sub_cancel' h]

theorem startOf_add_between (ls : List Line) (h : first ≤ last) :
    startOf ls last = startOf ls first + Text.byteLen (between ls first last) := by
  rw [startOf, ← concat_take_append_between ls h, Text.byteLen_append, startOf]

end Line

namespace Edit

open Line

/-! ### One edit -/

theorem range_ofRange {r : Range} (h : r.start ≤ r.stop) (newText : Text) :
    (ofRange r newText).range = r :=
  Range.normalized_of_le h

theorem resolveRange_normalized (t : Text) (index : LineIndex) (r : Range) :
    t.resolveRange index r.normalized = t.resolveRange index r := by
  rw [Range.normalized]
  split
  · simp only [Text.resolveRange, Nat.min_comm, Nat.max_comm]
  · rfl

/-- Both offsets of a range are boundaries, whichever of them is the smaller. -/
theorem isBoundary_resolveRange (t : Text) (index : LineIndex) (r : Range) :
    t.IsBoundary (t.resolveRange index r).1 ∧ t.IsBoundary (t.resolveRange index r).2 := by
  have hstart := t.isBoundary_floorBoundary (index.offsetAt r.start)
  have hstop := t.isBoundary_floorBoundary (index.offsetAt r.stop)
  rw [Text.resolveRange]
  rcases Nat.le_total (t.floorBoundary (index.offsetAt r.start))
    (t.floorBoundary (index.offsetAt r.stop)) with hle | hle
  · simp only [Nat.min_eq_left hle, Nat.max_eq_right hle]
    exact ⟨hstart, hstop⟩
  · simp only [Nat.min_eq_right hle, Nat.max_eq_left hle]
    exact ⟨hstop, hstart⟩

/-- **A single edit can always be made.** -/
theorem applyAll_singleton (t : Text) (e : Edit) :
    applyAll? t [e] = some (t.replaceRange (LineIndex.ofText t) e.range e.newText) := by
  have hcompact : compact [e] = [e.normalized] := by
    simp [compact, compactInto]
  rw [applyAll?, hcompact, List.reverse_singleton, applyFrom?]
  simp only [applyFrom?, spliceAt?, normalized, ofRange, resolveRange_normalized]
  rw [if_pos (isBoundary_resolveRange t _ e.range), Option.bind_some, Text.replaceRange]

/-- The edit puts its text between two parts that `old` and `new` have in common. -/
def Rewrites (e : Edit) (old new : Text) : Prop :=
  ∃ a b c, old = a ++ b ++ c ∧ new = a ++ e.newText ++ c ∧
    (LineIndex.ofText old).offsetAt e.range.start = Text.byteLen a ∧
    (LineIndex.ofText old).offsetAt e.range.stop = Text.byteLen a + Text.byteLen b

theorem Rewrites.applyAll {e : Edit} {old new : Text} (h : e.Rewrites old new) :
    applyAll? old [e] = some new := by
  obtain ⟨a, b, c, hold, rfl, hstart, hstop⟩ := h
  have hfirst : old.IsBoundary (Text.byteLen a) :=
    Text.isBoundary_iff.mpr ⟨a, b ++ c, by rw [hold, List.append_assoc], rfl⟩
  have hsecond : old.IsBoundary (Text.byteLen a + Text.byteLen b) :=
    Text.isBoundary_iff.mpr ⟨a ++ b, c, hold, Text.byteLen_append a b⟩
  have hresolve : old.resolveRange (LineIndex.ofText old) e.range
      = (Text.byteLen a, Text.byteLen a + Text.byteLen b) := by
    have hfloor : old.floorBoundary (Text.byteLen a) = Text.byteLen a := hfirst
    have hfloor' : old.floorBoundary (Text.byteLen a + Text.byteLen b)
        = Text.byteLen a + Text.byteLen b := hsecond
    rw [Text.resolveRange, hstart, hstop, hfloor, hfloor']
    simp only [Nat.min_eq_left (Nat.le_add_right _ _), Nat.max_eq_right (Nat.le_add_right _ _)]
  rw [applyAll_singleton, Text.replaceRange, hresolve]
  simp only [Text.splice]
  rw [hold, ← Text.byteLen_append, Text.dropBytes_append, List.append_assoc a b c,
    Text.takeBytes_append]

theorem rewrites_wholeText (old new : Text) : (wholeText old new).Rewrites old new := by
  have hlast := LineIndex.lastLine_ofText old
  have hpos := length_split_pos old
  have hle : startOf (split old) ((split old).length - 1) ≤ old.byteLen := by
    have hmono := startOf_mono (split old) (Nat.sub_le (split old).length 1)
    rwa [LineIndex.startOf_length_split] at hmono
  have hrange : (wholeText old new).range = old.fullRange (LineIndex.ofText old) := by
    refine range_ofRange ?_ new
    exact Position.le_iff.mpr (by simp only [Text.fullRange]; omega)
  refine ⟨[], old, [], by simp, by simp [wholeText, ofRange], ?_, ?_⟩
  · rw [hrange, LineIndex.offsetAt_ofText]
    simp [Text.fullRange]
  · rw [hrange, LineIndex.offsetAt_ofText]
    simp only [Text.fullRange, Nat.min_self, hlast]
    rw [LineIndex.getD_starts_ofText old (by omega), Text.byteLen_nil]
    omega

end Edit

/-! ### The edit between lines, in bytes -/

/-- What follows an offset, if it is a boundary. -/
def Text.after? (t : Text) (n : Nat) : Option Text :=
  if t.IsBoundary n then some (t.dropBytes n) else none

/-- What comes before an offset, if it is a boundary. -/
def Text.before? (t : Text) (n : Nat) : Option Text :=
  if t.IsBoundary n then some (t.takeBytes n) else none

/-- A difference, if it is not negative. -/
def minus? (m n : Nat) : Option Nat := if n ≤ m then some (m - n) else none

@[simp] theorem Text.after?_append (a b : Text) : after? (a ++ b) (byteLen a) = some b := by
  rw [after?, if_pos (isBoundary_iff.mpr ⟨a, b, rfl, rfl⟩), dropBytes_append]

@[simp] theorem Text.before?_append (a b : Text) : before? (a ++ b) (byteLen a) = some a := by
  rw [before?, if_pos (isBoundary_iff.mpr ⟨a, b, rfl, rfl⟩), takeBytes_append]

@[simp] theorem minus?_add (m n : Nat) : minus? (m + n) n = some m := by
  rw [minus?, if_pos (Nat.le_add_left n m), Nat.add_sub_cancel]

/-- The offset of the first character in which two texts differ, if neither ends before. -/
def Text.mismatch? : Text → Text → Option Nat
  | c :: cs, d :: ds => if c = d then (mismatch? cs ds).map (c.utf8Size + ·) else some 0
  | _, _ => none

/-- The number of bytes that two texts share at the front. All of the shorter one is shared where no
character differs. -/
def Text.sharedInit (s t : Text) : Nat := (mismatch? s t).getD (min (byteLen s) (byteLen t))

theorem Text.sharedInit_eq (s t : Text) : sharedInit s t = byteLen (commonInit s t) := by
  fun_induction commonInit s t with
  | case1 cs c ds ih =>
    rw [byteLen_cons, ← ih, sharedInit, sharedInit, mismatch?, if_pos rfl]
    cases mismatch? cs ds with
    | none => exact Nat.add_min_add_left _ _ _
    | some n => rfl
  | case2 c cs d ds hne => rw [sharedInit, mismatch?, if_neg hne, Option.getD_some, byteLen_nil]
  | case3 s t hnil =>
    rcases s with _ | ⟨c, cs⟩
    · simp [sharedInit, mismatch?]
    · rcases t with _ | ⟨d, ds⟩
      · simp [sharedInit, mismatch?]
      · exact absurd rfl (hnil c cs d ds rfl)

namespace Edit

open Line

/-- The number of bytes that two lines share at the back, where the first `start` bytes of the two
first lines are taken already. -/
def sharedTail? (oldFirst newFirst oldLast newLast : Text) (start first last : Nat) : Option Nat :=
  if first = last then
    (oldFirst.after? start).bind fun oldRest =>
      (newFirst.after? start).map fun newRest => Text.byteLen (commonTail oldRest newRest)
  else some (Text.byteLen (commonTail oldLast newLast))

/-- The edit between lines, computed in bytes. There is none if a line does not exist, if an offset
is no boundary of the text that is cut there, or if a difference is negative. -/
def ofLinesInBytes? (oldLines newLines : List Line) (first last : Nat) : Option Edit := do
  let oldFirst ← oldLines[first]?
  let newFirst ← newLines[first]?
  let oldLast ← oldLines[last]?
  let newLast ← newLines[last]?
  let start := Text.sharedInit oldFirst.body newFirst.body
  let replacement := between newLines first last ++ newLast.body
  if oldLast.delimiter = newLast.delimiter then
    let tail ← sharedTail? oldFirst.body newFirst.body oldLast.body newLast.body start first last
    let len ← minus? (Text.byteLen replacement) tail
    let kept ← replacement.before? len
    let stop ← minus? (Text.byteLen oldLast.body) tail
    let newText ← kept.after? start
    return ofRange ⟨⟨first, start⟩, ⟨last, stop⟩⟩ newText
  else
    let newText ← (replacement ++ newLast.delimiter.text).after? start
    return ofRange ⟨⟨first, start⟩, ⟨last + 1, 0⟩⟩ newText

section OfLines

variable {as bs : List Line} {first last : Nat} {l m l' m' : Line}
  (hl : as[first]? = some l) (hm : bs[first]? = some m)
  (hl' : as[last]? = some l') (hm' : bs[last]? = some m')
include hl hm hl' hm'

/-- **The edit where the delimiter of the last line stays**, from the part `k` that the first lines
share to the part `z` that the last ones do. -/
theorem ofLines_eq_of_delimiter_eq (hd : l'.delimiter = m'.delimiter) {k u v r s y z : Text}
    (hk : k = commonInit l.body m.body) (hu : l.body = k ++ u) (hv : m.body = k ++ v)
    (hz : z = if first = last then commonTail u v else commonTail l'.body m'.body)
    (hr : l'.body = r ++ z) (hs : m'.body = s ++ z) (hy : between bs first last ++ s = k ++ y) :
    ofLines as bs first last
        = ofRange ⟨⟨first, Text.byteLen k⟩, ⟨last, Text.byteLen r⟩⟩ y ∧
      ofLinesInBytes? as bs first last
        = some (ofRange ⟨⟨first, Text.byteLen k⟩, ⟨last, Text.byteLen r⟩⟩ y) := by
  have hdrop : l.body.drop k.length = u ∧ m.body.drop k.length = v := by
    rw [hu, hv, List.drop_left, List.drop_left]
    exact ⟨rfl, rfl⟩
  have hsplit : between bs first last ++ (s ++ z) = (k ++ y) ++ z := by
    rw [← List.append_assoc, hy]
  constructor
  · rw [ofLines]
    simp only [List.getD_eq_getElem?_getD, hl, hm, hl', hm', Option.getD_some, ← hk, hdrop.1,
      hdrop.2, if_pos hd, ← hz]
    rw [hs, List.length_append, Nat.add_sub_cancel, List.take_left, hr, Text.byteLen_append,
      Nat.add_sub_cancel]
    show ofRange _ ((between bs first last ++ s).drop k.length) = _
    rw [hy, List.drop_left]
  · have hshared : sharedTail? l.body m.body l'.body m'.body (Text.byteLen k) first last
        = some (Text.byteLen z) := by
      rw [sharedTail?, hu, hv, hz]
      split <;> simp
    simp only [ofLinesInBytes?, hl, hm, hl', hm', Option.bind_eq_bind, Option.bind_some,
      Text.sharedInit_eq, ← hk, if_pos hd, hshared]
    rw [hs, hsplit, Text.byteLen_append, minus?_add, Option.bind_some, Text.before?_append,
      Option.bind_some, hr, Text.byteLen_append, minus?_add, Option.bind_some, Text.after?_append,
      Option.bind_some]
    rfl

/-- **The edit where the delimiter of the last line changes**: it goes on to the next line. -/
theorem ofLines_eq_of_delimiter_ne (hd : l'.delimiter ≠ m'.delimiter) {k y : Text}
    (hk : k = commonInit l.body m.body) (hy : between bs first last ++ m'.text = k ++ y) :
    ofLines as bs first last = ofRange ⟨⟨first, Text.byteLen k⟩, ⟨last + 1, 0⟩⟩ y ∧
      ofLinesInBytes? as bs first last
        = some (ofRange ⟨⟨first, Text.byteLen k⟩, ⟨last + 1, 0⟩⟩ y) := by
  constructor
  · rw [ofLines]
    simp only [List.getD_eq_getElem?_getD, hl, hm, hl', hm', Option.getD_some, ← hk, if_neg hd]
    show ofRange _ ((between bs first last ++ m'.text).drop k.length) = _
    rw [hy, List.drop_left]
  · simp only [ofLinesInBytes?, hl, hm, hl', hm', Option.bind_eq_bind, Option.bind_some,
      Text.sharedInit_eq, ← hk, if_neg hd]
    rw [List.append_assoc, show m'.body ++ m'.delimiter.text = m'.text from rfl, hy,
      Text.after?_append, Option.bind_some]
    rfl

end OfLines

/-- What the first line begins with, everything from that line on begins with. -/
theorem exists_shared_front {ls : List Line} {first last : Nat} {l : Line} {k u w : Text}
    (hle : first ≤ last) (hl : ls[first]? = some l) (hu : l.body = k ++ u)
    (hw : first = last → ∃ x, w = k ++ x) : ∃ x, between ls first last ++ w = k ++ x := by
  by_cases hsame : first = last
  · obtain ⟨x, rfl⟩ := hw hsame
    exact ⟨x, by rw [hsame, between_self, List.nil_append]⟩
  · obtain ⟨rest, hrest⟩ := exists_between hl (show first < last by omega)
    exact ⟨u ++ (rest ++ w), by simp [hrest, hu]⟩

/-- Two texts with the same number of lines, the first and the last lines in which they differ, and
those lines. -/
structure Window (old new : Text) (first last : Nat) (l m l' m' : Line) : Prop where
  le : first ≤ last
  lt : last < (split old).length
  length_eq : (split old).length = (split new).length
  oldFirst : (split old)[first]? = some l
  newFirst : (split new)[first]? = some m
  oldLast : (split old)[last]? = some l'
  newLast : (split new)[last]? = some m'
  take_eq : (split new).take first = (split old).take first
  drop_eq : (split new).drop (last + 1) = (split old).drop (last + 1)

/-- The edit is the one between the lines, in characters as in bytes; it turns one text into the
other, and goes from the first of the lines to the end of the last at most. -/
structure Settles (old new : Text) (first last : Nat) (e : Edit) : Prop where
  ofLines : ofLines (split old) (split new) first last = e
  inBytes : ofLinesInBytes? (split old) (split new) first last = some e
  rewrites : e.Rewrites old new
  start_line : e.range.start.line = first
  stop_le : e.range.stop ≤ ⟨last + 1, 0⟩
  offset_le : (LineIndex.ofText old).offsetAt e.range.stop ≤ startOf (split old) (last + 1)

section Window

variable {old new : Text} {first last : Nat} {l m l' m' : Line}

theorem exists_window (hlen : (split old).length = (split new).length)
    (hf : FirstDifference (split old) (split new) first)
    (hl : LastDifference (split old) (split new) last) :
    ∃ l m l' m', Window old new first last l m l' m' := by
  have hle := hf.le hl
  have hlt : last < (split old).length := by
    by_contra hge
    exact hl.1 (by rw [List.getElem?_eq_none (by omega), List.getElem?_eq_none (by omega)])
  exact ⟨_, _, _, _, hle, hlt, hlen, List.getElem?_eq_getElem (by omega),
    List.getElem?_eq_getElem (by omega), List.getElem?_eq_getElem hlt,
    List.getElem?_eq_getElem (by omega), hf.take_eq.symm, hl.drop_eq.symm⟩

variable (h : Window old new first last l m l' m')
include h

theorem Window.same (hsame : first = last) : l = l' ∧ m = m' := by
  subst hsame
  exact ⟨Option.some.inj (h.oldFirst.symm.trans h.oldLast),
    Option.some.inj (h.newFirst.symm.trans h.newLast)⟩

theorem Window.old_eq :
    old = concat ((split old).take first) ++ (between (split old) first last
      ++ (l'.body ++ (l'.delimiter.text ++ concat ((split old).drop (last + 1))))) := by
  have haround := concat_around h.oldLast
  rw [concat_split, ← concat_take_append_between _ h.le, List.append_assoc] at haround
  exact haround.symm

/-- The new text has the same lines before and behind. -/
theorem Window.new_eq :
    new = concat ((split old).take first) ++ (between (split new) first last
      ++ (m'.body ++ (m'.delimiter.text ++ concat ((split old).drop (last + 1))))) := by
  have haround := concat_around h.newLast
  rw [concat_split, ← concat_take_append_between _ h.le, List.append_assoc, h.take_eq, h.drop_eq]
    at haround
  exact haround.symm

/-- An edit from behind `k` on the first line to behind `x`, where `z` follows in both texts. -/
theorem Window.rewrites {k x y z : Text} {p : Position}
    (hp : (⟨first, Text.byteLen k⟩ : Position) ≤ p)
    (hold : old = concat ((split old).take first) ++ (k ++ x ++ z))
    (hnew : new = concat ((split old).take first) ++ (k ++ y ++ z))
    (hstop : (LineIndex.ofText old).offsetAt p
      = startOf (split old) first + Text.byteLen (k ++ x)) :
    Rewrites (ofRange ⟨⟨first, Text.byteLen k⟩, p⟩ y) old new := by
  have hfirst : first ≤ (split old).length - 1 := by
    have hle := h.le
    have hlt := h.lt
    omega
  refine ⟨concat ((split old).take first) ++ k, x, z, ?_, ?_, ?_, ?_⟩
  · rw [List.append_assoc, List.append_assoc, ← List.append_assoc k]
    exact hold
  · rw [List.append_assoc, List.append_assoc, ← List.append_assoc k]
    exact hnew
  · rw [range_ofRange hp, LineIndex.offsetAt_ofText, LineIndex.lastLine_ofText]
    simp only [Nat.min_eq_left hfirst, startOf, Text.byteLen_append]
  · rw [range_ofRange hp]
    simp only [hstop, startOf, Text.byteLen_append, Nat.add_assoc]

theorem Window.offsetAt_last (n : Nat) :
    (LineIndex.ofText old).offsetAt ⟨last, n⟩
      = startOf (split old) first + Text.byteLen (between (split old) first last) + n := by
  have hlast : last ≤ (split old).length - 1 := by
    have hlt := h.lt
    omega
  rw [LineIndex.offsetAt_ofText, LineIndex.lastLine_ofText]
  simp only [Nat.min_eq_left hlast, startOf_add_between (split old) h.le]

/-- What the last lines share at the back. On a single line it begins behind what is shared at the
front. -/
theorem Window.exists_tail {k u v : Text} (hu : l.body = k ++ u) (hv : m.body = k ++ v) :
    ∃ r s z, (z = if first = last then commonTail u v else commonTail l'.body m'.body) ∧
      l'.body = r ++ z ∧ m'.body = s ++ z ∧
      (first = last → (∃ x, r = k ++ x) ∧ ∃ y, s = k ++ y) := by
  by_cases hsame : first = last
  · obtain ⟨rfl, rfl⟩ := h.same hsame
    obtain ⟨r, s, hr, hs, -⟩ := commonTail_spec u v
    refine ⟨k ++ r, k ++ s, _, (if_pos hsame).symm, ?_, ?_, fun _ => ⟨⟨r, rfl⟩, ⟨s, rfl⟩⟩⟩
    · rw [hu, List.append_assoc, ← hr]
    · rw [hv, List.append_assoc, ← hs]
  · obtain ⟨r, s, hr, hs, -⟩ := commonTail_spec l'.body m'.body
    exact ⟨r, s, _, (if_neg hsame).symm, hr, hs, fun heq => absurd heq hsame⟩

theorem Window.settles_of_delimiter_eq (hd : l'.delimiter = m'.delimiter) :
    ∃ e, Settles old new first last e := by
  obtain ⟨u, v, hu, hv, -⟩ := commonInit_spec l.body m.body
  generalize hk : commonInit l.body m.body = k at hu hv
  obtain ⟨r, s, z, hz, hr, hs, hfront⟩ := h.exists_tail hu hv
  obtain ⟨x, hx⟩ := exists_shared_front h.le h.oldFirst hu fun heq => (hfront heq).1
  obtain ⟨y, hy⟩ := exists_shared_front h.le h.newFirst hv fun heq => (hfront heq).2
  obtain ⟨hchars, hbytes⟩ := ofLines_eq_of_delimiter_eq h.oldFirst h.newFirst h.oldLast h.newLast hd
    hk.symm hu hv hz hr hs hy
  have hxlen := congrArg Text.byteLen hx
  rw [Text.byteLen_append] at hxlen
  have hp : (⟨first, Text.byteLen k⟩ : Position) ≤ ⟨last, Text.byteLen r⟩ := by
    rw [Position.le_iff]
    by_cases hsame : first = last
    · rw [hsame, between_self, Text.byteLen_nil, Text.byteLen_append] at hxlen
      exact Or.inr ⟨hsame, by simp only; omega⟩
    · have hle := h.le
      exact Or.inl (by simp only; omega)
  refine ⟨_, hchars, hbytes, h.rewrites (x := x)
    (z := z ++ (l'.delimiter.text ++ concat ((split old).drop (last + 1)))) hp ?_ ?_ ?_, ?_, ?_, ?_⟩
  · have hold := h.old_eq
    rw [hr, List.append_assoc r, ← List.append_assoc _ r, hx] at hold
    exact hold
  · have hnew := h.new_eq
    rw [hs, List.append_assoc s, ← List.append_assoc _ s, hy, ← hd] at hnew
    exact hnew
  · rw [h.offsetAt_last, Nat.add_assoc, hxlen]
  · rw [range_ofRange hp]
  · rw [range_ofRange hp]
    exact Position.le_iff.mpr (Or.inl (Nat.lt_succ_self last))
  · rw [range_ofRange hp, h.offsetAt_last, startOf_succ h.oldLast,
      startOf_add_between (split old) h.le, text, hr, Text.byteLen_append, Text.byteLen_append]
    omega

theorem Window.settles_of_delimiter_ne (hd : l'.delimiter ≠ m'.delimiter) :
    ∃ e, Settles old new first last e := by
  have hlt := h.lt
  have hlen := h.length_eq
  -- The last line of a text has no delimiter, so it is not this one.
  have hnext : last + 1 < (split old).length := by
    by_contra hge
    have hend := ((complete_split old).delimiter_eq_eof_iff h.oldLast).mpr (by omega)
    have hend' := ((complete_split new).delimiter_eq_eof_iff h.newLast).mpr (by omega)
    exact hd (hend.trans hend'.symm)
  obtain ⟨u, v, hu, hv, -⟩ := commonInit_spec l.body m.body
  generalize hk : commonInit l.body m.body = k at hu hv
  obtain ⟨x, hx⟩ := exists_shared_front (w := l'.text) h.le h.oldFirst hu (by
    intro hsame
    obtain ⟨rfl, -⟩ := h.same hsame
    exact ⟨u ++ l.delimiter.text, by rw [text, hu, List.append_assoc]⟩)
  obtain ⟨y, hy⟩ := exists_shared_front (w := m'.text) h.le h.newFirst hv (by
    intro hsame
    obtain ⟨-, rfl⟩ := h.same hsame
    exact ⟨v ++ m.delimiter.text, by rw [text, hv, List.append_assoc]⟩)
  obtain ⟨hchars, hbytes⟩ := ofLines_eq_of_delimiter_ne h.oldFirst h.newFirst h.oldLast h.newLast hd
    hk.symm hy
  have hxlen := congrArg Text.byteLen hx
  rw [Text.byteLen_append] at hxlen
  have hp : (⟨first, Text.byteLen k⟩ : Position) ≤ ⟨last + 1, 0⟩ :=
    Position.le_iff.mpr (Or.inl (Nat.lt_succ_of_le h.le))
  have hoffset : (LineIndex.ofText old).offsetAt ⟨last + 1, 0⟩
      = startOf (split old) (last + 1) := by
    rw [LineIndex.offsetAt_ofText, LineIndex.lastLine_ofText]
    simp only [Nat.min_eq_left (show last + 1 ≤ (split old).length - 1 by omega), Nat.add_zero]
  refine ⟨_, hchars, hbytes, h.rewrites (x := x) (z := concat ((split old).drop (last + 1))) hp
    ?_ ?_ ?_, ?_, ?_, ?_⟩
  · have hold := h.old_eq
    rw [← List.append_assoc l'.body, ← List.append_assoc _ (l'.body ++ _)] at hold
    rw [← hx]
    exact hold
  · have hnew := h.new_eq
    rw [← List.append_assoc m'.body, ← List.append_assoc _ (m'.body ++ _)] at hnew
    rw [← hy]
    exact hnew
  · rw [hoffset, startOf_succ h.oldLast, startOf_add_between (split old) h.le, Nat.add_assoc, hxlen]
  · rw [range_ofRange hp]
  · rw [range_ofRange hp]
    exact Position.le_refl _
  · rw [range_ofRange hp, hoffset]

/-- **The edit between the lines that differ** is found, and turns one text into the other. -/
theorem Window.settles : ∃ e, Settles old new first last e := by
  by_cases hd : l'.delimiter = m'.delimiter
  · exact h.settles_of_delimiter_eq hd
  · exact h.settles_of_delimiter_ne hd

end Window

/-! ### From one text to another -/

/-- The edits from `old` to `new`, computed in bytes: as `byLines?` has them, or nothing at all if a
cut is off a boundary or a difference negative. -/
def byLinesInBytes? (old new : Text) : Option (Option (List Edit)) :=
  let oldLines := split old
  let newLines := split new
  if old = new then some (some [])
  else if oldLines.length = newLines.length then
    let first := (commonInit oldLines newLines).length
    let last := oldLines.length - 1 - (commonTail oldLines newLines).length
    (ofLinesInBytes? oldLines newLines first last).map fun e => some [e]
  else some none

/-- Different texts of as many lines have an edit between the lines in which they differ. -/
theorem exists_settles {old new : Text} (hne : old ≠ new)
    (hlen : (split old).length = (split new).length) :
    ∃ e first last, byLines? old new = some [e] ∧ byLinesInBytes? old new = some (some [e]) ∧
      FirstDifference (split old) (split new) first ∧
      LastDifference (split old) (split new) last ∧ Settles old new first last e := by
  have hlines : split old ≠ split new := by
    intro heq
    exact hne (by rw [← concat_split old, heq, concat_split])
  have hf := firstDifference_commonInit hlen hlines
  have hl := lastDifference_commonTail hlen hlines
  obtain ⟨l, m, l', m', hwindow⟩ := exists_window hlen hf hl
  obtain ⟨e, he⟩ := hwindow.settles
  refine ⟨e, _, _, ?_, ?_, hf, hl, he⟩
  · simp only [byLines?, if_neg hne, if_pos hlen, he.ofLines]
  · simp only [byLinesInBytes?, if_neg hne, if_pos hlen, he.inBytes, Option.map_some]

/-- What the edits from `old` to `new` are: they have `new` as their result, there are none if the
texts are equal, and else there is one, from the first line that differs to the last. -/
structure LineDiff (old new : Text) (edits : List Edit) : Prop where
  applied : applyAll? old edits = some new
  nil_iff : edits = [] ↔ old = new
  single : old ≠ new → ∃ e first last, edits = [e] ∧
    FirstDifference (split old) (split new) first ∧ LastDifference (split old) (split new) last ∧
    e.range.start.line = first ∧ e.range.stop ≤ ⟨last + 1, 0⟩ ∧
    (LineIndex.ofText old).offsetAt e.range.stop ≤ startOf (split old) (last + 1)

theorem lineDiff_self (t : Text) : LineDiff t t [] :=
  ⟨by simp [applyAll?, compact, applyFrom?], by simp, fun hne => absurd rfl hne⟩

theorem Settles.lineDiff {old new : Text} {first last : Nat} {e : Edit}
    (h : Settles old new first last e) (hne : old ≠ new)
    (hf : FirstDifference (split old) (split new) first)
    (hl : LastDifference (split old) (split new) last) : LineDiff old new [e] := by
  refine ⟨h.rewrites.applyAll, ?_, fun _ => ?_⟩
  · simp [hne]
  · exact ⟨e, first, last, rfl, hf, hl, h.start_line, h.stop_le, h.offset_le⟩

theorem applyAll_minimal (old new : Text) : applyAll? old (minimal old new) = some new := by
  by_cases heq : old = new
  · rw [minimal, if_pos heq, ← heq]
    exact (lineDiff_self old).applied
  · rw [minimal, if_neg heq]
    exact (rewrites_wholeText old new).applyAll

/-- **The edits from one text to another have the other as their result.** The edit of the whole
text always does. There is one by lines exactly if the texts have as many lines, it is found
without a cut inside a character or a negative difference, and it stays within the lines that
differ. -/
theorem diff_rewrites (old new : Text) :
    applyAll? old (minimal old new) = some new ∧
      ((byLines? old new).isSome ↔ old.countLines = new.countLines) ∧
      byLinesInBytes? old new = some (byLines? old new) ∧
      ∀ edits, byLines? old new = some edits → LineDiff old new edits := by
  refine ⟨applyAll_minimal old new, ?_⟩
  rw [Text.countLines_eq, Text.countLines_eq]
  by_cases heq : old = new
  · subst heq
    have hrun : byLines? old old = some [] := by simp only [byLines?, if_true]
    refine ⟨by simp [hrun], by simp only [byLinesInBytes?, hrun, if_true], ?_⟩
    intro edits hedits
    obtain rfl := Option.some.inj (hrun.symm.trans hedits)
    exact lineDiff_self old
  by_cases hlen : (split old).length = (split new).length
  · obtain ⟨e, first, last, hrun, hbytes, hf, hl, he⟩ := exists_settles heq hlen
    refine ⟨by simp [hrun, hlen], by rw [hbytes, hrun], ?_⟩
    intro edits hedits
    obtain rfl := Option.some.inj (hrun.symm.trans hedits)
    exact he.lineDiff heq hf hl
  · have hrun : byLines? old new = none := by simp only [byLines?, if_neg heq, if_neg hlen]
    refine ⟨by simp [hrun, hlen], ?_, fun edits hedits => ?_⟩
    · simp only [byLinesInBytes?, hrun, if_neg heq, if_neg hlen]
    · exact absurd (hrun.symm.trans hedits) (by simp)

/-- The first of two lines changes in a character that begins with the same byte, the second in its
delimiter. -/
theorem diff_rewrites_delimiter :
    let old : Text := ['a', 'é', '\r', '\n', '😀', 'b', '\n', 'c']
    let new : Text := ['a', 'è', '\r', '\n', '😀', 'b', '\r', 'c']
    let e : Edit := ⟨⟨⟨0, 1⟩, ⟨2, 0⟩⟩, ['è', '\r', '\n', '😀', 'b', '\r']⟩
    byLines? old new = some [e] ∧ LineDiff old new [e] := by
  intro old new e
  have hrun : byLines? old new = some [e] := by decide
  exact ⟨hrun, (diff_rewrites old new).2.2.2 [e] hrun⟩

end Edit

end Newline
