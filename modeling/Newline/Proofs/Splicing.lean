/-
Many edits at once.

Edits are applied one by one, from the last to the first, to a buffer that grows and shrinks
under offsets that were taken from the text itself. For edits whose positions lie within their
lines this is the same as cutting the text at all offsets at once.

* `Position.InLine`, `Edit.InLine` — positions on lines that exist, not past their terminators;
* `LineIndex.offsetAt_mono` — such positions and their offsets are in the same order;
* `Edit.Grouped`, `Edit.grouped_compact` — what becomes of edits that overlap;
* `Edit.Spliced` — the text with all edits made at once;
* `Edit.applyFrom_reverse` — the run over the buffer, from the last edit on;
* `Edit.applyAll_eq_replaceAll` — its result, by the offsets of the groups;
* `Document.resolve_eq` — what becomes of the edits of an editor;
* `Edit.applyAll_spliced` — edits within their lines are all made at once, and the edits of an
  editor are always within their lines.
-/
import Newline.Proofs.LineStarts
import Newline.Proofs.PositionOrder

namespace Newline

/-! ### Positions within their lines -/

/-- The length of a line with its terminator. -/
def LineIndex.spanLen (index : LineIndex) (line : Nat) : Nat :=
  match index.lineSpan? line with
  | some (start, stop) => stop - start
  | none => 0

/-- The line exists, and the character is not past its terminator. -/
def Position.InLine (index : LineIndex) (p : Position) : Prop :=
  p.line ≤ index.lastLine ∧ p.character ≤ index.spanLen p.line

instance (index : LineIndex) (p : Position) : Decidable (p.InLine index) :=
  inferInstanceAs (Decidable (_ ∧ _))

/-- Both ends of the range are within their lines. -/
def Edit.InLine (t : Text) (e : Edit) : Prop :=
  e.range.start.InLine (LineIndex.ofText t) ∧ e.range.stop.InLine (LineIndex.ofText t)

instance (t : Text) (e : Edit) : Decidable (e.InLine t) := inferInstanceAs (Decidable (_ ∧ _))

namespace LineIndex

open Line

theorem spanLen_ofText {t : Text} {i : Nat} (h : i < (split t).length) :
    (ofText t).spanLen i = startOf (split t) (i + 1) - startOf (split t) i := by
  rw [spanLen, lineSpan_ofText t h]

/-- **Positions within their lines and their offsets are in the same order.** -/
theorem offsetAt_mono {t : Text} {p q : Position} (hp : p.InLine (ofText t))
    (hq : q.InLine (ofText t)) (h : p ≤ q) : (ofText t).offsetAt p ≤ (ofText t).offsetAt q := by
  have hpos := length_split_pos t
  have hlast := lastLine_ofText t
  obtain ⟨hpl, hpc⟩ := hp
  obtain ⟨hql, -⟩ := hq
  rw [spanLen_ofText (by omega)] at hpc
  rw [offsetAt_ofText, offsetAt_ofText, Nat.min_eq_left hpl, Nat.min_eq_left hql]
  rcases Position.le_iff.mp h with hlt | ⟨heq, hle⟩
  · -- An earlier line ends where the next one starts, at the latest.
    have hnext := startOf_mono (split t) (show p.line ≤ p.line + 1 by omega)
    have hmono := startOf_mono (split t) (show p.line + 1 ≤ q.line by omega)
    omega
  · rw [heq]
    omega

end LineIndex

namespace Edit

/-! ### Sorting and grouping -/

/-- The edits in order of their ranges, those of one range in the order given. -/
structure StablySorted (es sorted : List Edit) : Prop where
  perm : sorted.Perm es
  pairwise : sorted.Pairwise fun d e => d.range ≤ e.range
  stable : ∀ r, sorted.filter (fun e => e.range = r) = es.filter fun e => e.range = r

/-- One edit for a group of edits: from the start of the first to the furthest end, with the text
of the last. -/
def united (e : Edit) (ds : List Edit) : Edit where
  range := ⟨e.range.start, (ds.map fun d => d.range.stop).foldl max e.range.stop⟩
  newText := (ds.getLast?.getD e).newText

/-- The edits, as they come, are cut into groups, and each group becomes one edit. A group goes
on as long as the next edit starts before the furthest end so far; an edit that starts at that
end begins a group of its own. -/
inductive Grouped : List Edit → List Edit → Prop
  | nil : Grouped [] []
  | group {e : Edit} {ds es cs : List Edit} :
      (∀ before d after, ds = before ++ d :: after →
        d.range.start < (united e before).range.stop) →
      (∀ d ∈ es.head?, ¬ d.range.start < (united e ds).range.stop) →
      Grouped es cs → Grouped (e :: ds ++ es) (united e ds :: cs)

theorem stablySorted_mergeSort (es : List Edit) :
    StablySorted es (es.mergeSort fun d e => decide (d.range ≤ e.range)) where
  perm := List.mergeSort_perm es _
  pairwise := Range.pairwise_mergeSort range es
  stable r := by
    refine filter_mergeSort Edit.range (fun a b c hab hbc => ?_) (fun a b => ?_)
      (fun a b hab => ?_) es r
    · simpa using Range.le_trans (by simpa using hab) (by simpa using hbc)
    · simpa using Range.le_total a.range b.range
    · simpa [hab] using Range.le_refl b.range

/-- The step of the compaction: one more edit joins the group. -/
theorem united_concat (e : Edit) (ds : List Edit) (d : Edit) :
    united e (ds ++ [d])
      = ⟨⟨(united e ds).range.start, max (united e ds).range.stop d.range.stop⟩, d.newText⟩ := by
  simp [united]

/-- The end of a group is the end of one of its edits. -/
theorem exists_united_stop (e : Edit) (ds : List Edit) :
    ∃ d ∈ e :: ds, (united e ds).range.stop = d.range.stop := by
  induction ds using List.reverseRecOn with
  | nil => exact ⟨e, by simp, rfl⟩
  | append_singleton ds d ih =>
    rw [united_concat]
    rcases Position.max_eq_or (united e ds).range.stop d.range.stop with hmax | hmax
    · obtain ⟨c, hc, hstop⟩ := ih
      refine ⟨c, ?_, by rw [hmax, hstop]⟩
      rw [← List.cons_append]
      exact List.mem_append_left _ hc
    · exact ⟨d, by simp, by rw [hmax]⟩

theorem start_le_united_stop (e : Edit) (ds : List Edit) (h : e.range.start ≤ e.range.stop) :
    e.range.start ≤ (united e ds).range.stop := by
  induction ds using List.reverseRecOn with
  | nil => exact h
  | append_singleton ds d ih =>
    rw [united_concat]
    exact Position.le_trans ih (Position.le_max_left _ _)

/-- The run of the compaction, with the edits `e :: ds` of the open group behind it. -/
theorem grouped_compactInto (e : Edit) (ds es : List Edit)
    (h : ∀ before d after, ds = before ++ d :: after →
      d.range.start < (united e before).range.stop) :
    Grouped (e :: ds ++ es) (compactInto (united e ds) es) := by
  induction es generalizing e ds with
  | nil => exact .group h (by simp) .nil
  | cons d es ih =>
    rw [compactInto]
    split
    · rename_i hlt
      rw [← united_concat]
      have hgroup := ih e (ds ++ [d]) fun before c after heq => by
        -- The edit is the one that joins, or one that was in the group before.
        rcases List.eq_nil_or_concat after with rfl | ⟨as, a, rfl⟩
        · obtain ⟨rfl, hd⟩ := List.append_inj' heq rfl
          obtain ⟨rfl, -⟩ := List.cons.inj hd
          exact hlt
        · rw [List.concat_eq_append, ← List.cons_append, ← List.append_assoc] at heq
          exact h before c as (List.append_inj' heq rfl).1
      simpa using hgroup
    · -- The group is closed, and the edit opens one with nothing behind it.
      rename_i hge
      refine .group h (by simpa using hge) ?_
      exact ih d [] (by simp)

theorem grouped_compact (es : List Edit) :
    ∃ sorted, StablySorted (es.map normalized) sorted ∧ Grouped sorted (compact es) := by
  refine ⟨_, stablySorted_mergeSort (es.map normalized), ?_⟩
  rw [compact]
  split
  · rename_i hnil
    rw [hnil]
    exact .nil
  · rename_i e rest hcons
    rw [hcons]
    exact grouped_compactInto e [] rest (by simp)

/-- What a group says of its first start and its furthest end holds if all its edits say it of
their own ends. -/
theorem Grouped.forall_ends {es cs : List Edit} (h : Grouped es cs) {P : Position → Prop}
    (hes : ∀ e ∈ es, P e.range.start ∧ P e.range.stop) :
    ∀ c ∈ cs, P c.range.start ∧ P c.range.stop := by
  induction h with
  | nil => simp
  | @group e ds es cs hin hout hrest ih =>
    intro c hc
    rcases List.mem_cons.mp hc with rfl | hc
    · obtain ⟨d, hd, hstop⟩ := exists_united_stop e ds
      refine ⟨(hes e (by simp)).1, ?_⟩
      rw [hstop]
      exact (hes d (List.mem_append_left es hd)).2
    · exact ih (fun d hd => hes d (List.mem_append_right _ hd)) c hc

/-- A group puts the text of one of its edits. -/
theorem Grouped.forall_newText {es cs : List Edit} (h : Grouped es cs) {P : Text → Prop}
    (hes : ∀ e ∈ es, P e.newText) : ∀ c ∈ cs, P c.newText := by
  induction h with
  | nil => simp
  | @group e ds es cs hin hout hrest ih =>
    intro c hc
    rcases List.mem_cons.mp hc with rfl | hc
    · show P (ds.getLast?.getD e).newText
      cases hlast : ds.getLast? with
      | none => exact hes e (by simp)
      | some d =>
        have hd := List.mem_of_getLast? hlast
        exact hes d (by simp [hd])
    · exact ih (fun d hd => hes d (List.mem_append_right _ hd)) c hc

/-- Edits that lie one after the other, from a position on. -/
def Apart (p : Position) : List Edit → Prop
  | [] => True
  | c :: cs => p ≤ c.range.start ∧ c.range.start ≤ c.range.stop ∧ Apart c.range.stop cs

/-- **Groups do not overlap.** -/
theorem Grouped.apart {es cs : List Edit} (h : Grouped es cs)
    (hes : ∀ e ∈ es, e.range.start ≤ e.range.stop) {p : Position}
    (hp : ∀ e ∈ es.head?, p ≤ e.range.start) : Apart p cs := by
  induction h generalizing p with
  | nil => trivial
  | @group e ds es cs hin hout hrest ih =>
    refine ⟨hp e (by simp), start_le_united_stop e ds (hes e (by simp)), ?_⟩
    exact ih (fun d hd => hes d (List.mem_append_right _ hd))
      fun d hd => Position.not_lt.mp (hout d hd)

/-! ### Cutting at all offsets at once -/

/-- A part of a text, between two offsets, and what is put there. -/
structure Cut where
  /-- Where the part begins. -/
  start : Nat
  /-- Where the part ends. -/
  stop : Nat
  /-- What is put there. -/
  newText : Text
  deriving DecidableEq

/-- The cut of an edit: its ends as offsets of the text, moved back to boundaries. -/
def cut (t : Text) (e : Edit) : Cut where
  start := t.floorBoundary ((LineIndex.ofText t).offsetAt e.range.start)
  stop := t.floorBoundary ((LineIndex.ofText t).offsetAt e.range.stop)
  newText := e.newText

/-- Cuts within a text, at boundaries, one after the other from an offset on. -/
def Cut.Ordered (t : Text) (offset : Nat) : List Cut → Prop
  | [] => True
  | c :: cs => offset ≤ c.start ∧ c.start ≤ c.stop ∧ t.IsBoundary c.start ∧ t.IsBoundary c.stop ∧
      Cut.Ordered t c.stop cs

/-- The text from an offset on, with all cuts replaced. -/
def Cut.replaceAll (t : Text) (offset : Nat) : List Cut → Text
  | [] => t.slice offset t.byteLen
  | c :: cs => t.slice offset c.start ++ c.newText ++ Cut.replaceAll t c.stop cs

/-- **All edits made at once**: sorted and grouped, they cut the text into parts that stay, and
each group puts its text between two of them. -/
def Spliced (t : Text) (es : List Edit) (out : Text) : Prop :=
  ∃ sorted groups, StablySorted (es.map normalized) sorted ∧ Grouped sorted groups ∧
    Cut.Ordered t 0 (groups.map (cut t)) ∧ out = Cut.replaceAll t 0 (groups.map (cut t))

/-- Edits that lie apart and within their lines give cuts in order. -/
theorem ordered_cuts {t : Text} {cs : List Edit} {p : Position}
    (hp : p.InLine (LineIndex.ofText t)) (hin : ∀ c ∈ cs, c.InLine t) (h : Apart p cs) :
    Cut.Ordered t (t.floorBoundary ((LineIndex.ofText t).offsetAt p)) (cs.map (cut t)) := by
  induction cs generalizing p with
  | nil => trivial
  | cons c cs ih =>
    obtain ⟨hstart, hstop⟩ := hin c (by simp)
    obtain ⟨hpc, hc, hrest⟩ := h
    refine ⟨?_, ?_, t.isBoundary_floorBoundary _, t.isBoundary_floorBoundary _, ?_⟩
    · exact t.floorBoundary_mono (LineIndex.offsetAt_mono hp hstart hpc)
    · exact t.floorBoundary_mono (LineIndex.offsetAt_mono hstart hstop hc)
    · exact ih hstop (fun d hd => hin d (by simp [hd])) hrest

/-! ### The run over the buffer -/

theorem applyFrom_append (t : Text) (index : LineIndex) (buffer : Text) (ds es : List Edit) :
    applyFrom? t index buffer (ds ++ es)
      = (applyFrom? t index buffer ds).bind fun next => applyFrom? t index next es := by
  induction ds generalizing buffer with
  | nil => rfl
  | cons d ds ih =>
    simp only [List.cons_append, applyFrom?, Option.bind_assoc]
    congr 1
    funext next
    exact ih next

/-- **One step**: behind an edit the buffer may be anything, as long as the text up to the end of
the edit is still there. -/
theorem spliceAt_of_prefix {t rest new : Text} {start stop : Nat} (hstart : t.IsBoundary start)
    (hstop : t.IsBoundary stop) (h : start ≤ stop) :
    spliceAt? (t.takeBytes stop ++ rest) start stop new
      = some (t.takeBytes start ++ new ++ rest) := by
  obtain ⟨a, b, c, rfl, rfl, rfl⟩ := Text.exists_three_parts hstart hstop h
  have htake : Text.takeBytes (Text.byteLen a + Text.byteLen b) (a ++ b ++ c) = a ++ b := by
    rw [← Text.byteLen_append, Text.takeBytes_append]
  have hfirst : Text.takeBytes (Text.byteLen a) (a ++ b ++ c) = a := by
    rw [List.append_assoc, Text.takeBytes_append]
  have hb₁ : Text.IsBoundary (a ++ b ++ rest) (Text.byteLen a) :=
    Text.isBoundary_iff.mpr ⟨a, b ++ rest, by simp, rfl⟩
  have hb₂ : Text.IsBoundary (a ++ b ++ rest) (Text.byteLen a + Text.byteLen b) :=
    Text.isBoundary_iff.mpr ⟨a ++ b, rest, rfl, by simp⟩
  rw [htake, hfirst, spliceAt?, if_pos ⟨hb₁, hb₂⟩, Text.splice, ← Text.byteLen_append,
    Text.dropBytes_append, List.append_assoc a b rest, Text.takeBytes_append]

/-- **The run**: from the last edit back to the first, with the text before the first of them
still untouched. -/
theorem applyFrom_reverse {t : Text} {cs : List Edit} {offset : Nat}
    (hoff : t.IsBoundary offset) (h : Cut.Ordered t offset (cs.map (cut t))) :
    applyFrom? t (LineIndex.ofText t) t cs.reverse
      = some (t.takeBytes offset ++ Cut.replaceAll t offset (cs.map (cut t))) := by
  induction cs generalizing offset with
  | nil =>
    simp only [List.reverse_nil, applyFrom?, List.map_nil, Cut.replaceAll, Option.some.injEq]
    exact (Text.takeBytes_append_slice_byteLen hoff).symm
  | cons c cs ih =>
    -- The edits behind this one are made first, and leave the text up to its end as it was.
    obtain ⟨hle, hc, hstart, hstop, hrest⟩ := h
    have hresolve : t.resolveRange (LineIndex.ofText t) c.range
        = ((cut t c).start, (cut t c).stop) := by
      show (min (cut t c).start (cut t c).stop, max (cut t c).start (cut t c).stop) = _
      rw [Nat.min_eq_left hc, Nat.max_eq_right hc]
    rw [List.reverse_cons, applyFrom_append, ih hstop hrest, Option.bind_some]
    simp only [applyFrom?, hresolve, spliceAt_of_prefix hstart hstop hc, Option.bind_some]
    simp only [List.map_cons, Cut.replaceAll]
    rw [← Text.takeBytes_append_slice hoff hstart hle]
    simp [cut]

/-- What all ends of the edits have in common, the ends of the groups have too. -/
theorem forall_ends_compact {es : List Edit} {P : Position → Prop}
    (h : ∀ e ∈ es, P e.range.start ∧ P e.range.stop) :
    ∀ c ∈ compact es, P c.range.start ∧ P c.range.stop := by
  obtain ⟨sorted, hsorted, hgrouped⟩ := grouped_compact es
  refine hgrouped.forall_ends fun d hd => ?_
  obtain ⟨e, he, rfl⟩ := List.mem_map.mp (hsorted.perm.mem_iff.mp hd)
  exact (Range.normalized_ends e.range P).mpr (h e he)

theorem forall_newText_compact {es : List Edit} {P : Text → Prop}
    (h : ∀ e ∈ es, P e.newText) : ∀ c ∈ compact es, P c.newText := by
  obtain ⟨sorted, hsorted, hgrouped⟩ := grouped_compact es
  refine hgrouped.forall_newText fun d hd => ?_
  obtain ⟨e, he, rfl⟩ := List.mem_map.mp (hsorted.perm.mem_iff.mp hd)
  exact h e he

theorem apart_compact (es : List Edit) : Apart ⟨0, 0⟩ (compact es) := by
  obtain ⟨sorted, hsorted, hgrouped⟩ := grouped_compact es
  refine hgrouped.apart (fun d hd => ?_) fun d _ => Position.le_iff.mpr (by simp only; omega)
  obtain ⟨e, -, rfl⟩ := List.mem_map.mp (hsorted.perm.mem_iff.mp hd)
  exact e.range.normalized_start_le_stop

/-- **Edits within their lines can all be made**, each group of them in its place. -/
theorem applyAll_eq_replaceAll {t : Text} {es : List Edit} (h : ∀ e ∈ es, e.InLine t) :
    Cut.Ordered t 0 ((compact es).map (cut t)) ∧
      applyAll? t es = some (Cut.replaceAll t 0 ((compact es).map (cut t))) := by
  -- The start of the text is a position within its line, before all others.
  have horigin : (⟨0, 0⟩ : Position).InLine (LineIndex.ofText t) := ⟨Nat.zero_le _, Nat.zero_le _⟩
  have hzero : t.floorBoundary ((LineIndex.ofText t).offsetAt ⟨0, 0⟩) = 0 := by
    rw [LineIndex.offsetAt_ofText, Nat.zero_min, Line.startOf_zero]
    exact t.isBoundary_zero
  have hordered := ordered_cuts horigin (forall_ends_compact h) (apart_compact es)
  rw [hzero] at hordered
  have hrun := applyFrom_reverse t.isBoundary_zero hordered
  rw [Text.takeBytes_zero, List.nil_append] at hrun
  exact ⟨hordered, hrun⟩

/-- Edits within their lines are made all at once. -/
theorem exists_spliced {t : Text} {es : List Edit} (h : ∀ e ∈ es, e.InLine t) :
    ∃ out, applyAll? t es = some out ∧ Spliced t es out := by
  obtain ⟨sorted, hsorted, hgrouped⟩ := grouped_compact es
  obtain ⟨hordered, hrun⟩ := applyAll_eq_replaceAll h
  exact ⟨_, hrun, sorted, compact es, hsorted, hgrouped, hordered, rfl⟩

end Edit

/-! ### Edits of an editor -/

namespace Document

variable (version : Int) (t : Text) (enc : Encoding)

/-- A place in the editor, wherever it is, becomes a position within its line. -/
theorem inLine_ofEditor (p : Editor.Position) :
    ((ofText version t enc).ofEditor p).InLine (LineIndex.ofText t) := by
  obtain ⟨l, hl, hle⟩ := ofEditor_within version t enc p
  obtain ⟨hlt, -⟩ := List.getElem?_eq_some_iff.mp hl
  constructor
  · rw [LineIndex.lastLine_ofText]
    omega
  · rw [LineIndex.spanLen_ofText hlt, Line.startOf_succ hl, Line.text, Text.byteLen_append]
    omega

/-- **One edit for each edit of the editor**, in the same order, with its text and its range. -/
theorem resolve_eq (d : Document) (es : List Editor.Edit) :
    d.resolve es = es.map fun e => ⟨d.ofEditorRange e.range, e.newText⟩ := by
  refine List.map_congr_left fun e _ => ?_
  rw [Edit.ofRange, Range.normalized_of_le]
  exact Range.normalized_start_le_stop _

theorem forall_ends_resolve {P : Position → Prop} (h : ∀ p, P ((ofText version t enc).ofEditor p))
    (es : List Editor.Edit) :
    ∀ e ∈ (ofText version t enc).resolve es, P e.range.start ∧ P e.range.stop := by
  intro e he
  rw [resolve_eq] at he
  obtain ⟨d, -, rfl⟩ := List.mem_map.mp he
  refine (Range.normalized_ends _ _).mpr ?_
  exact ⟨h d.range.start, h d.range.stop⟩

theorem inLine_resolve {es : List Editor.Edit} {e : Edit}
    (h : e ∈ (ofText version t enc).resolve es) : e.InLine t :=
  forall_ends_resolve version t enc (inLine_ofEditor version t enc) es e h

end Document

/-- **Edits are made all at once.** Edits whose positions lie within their lines, in whatever
order and however they overlap, have a result, and it is the text with every group of them put
in its place. Of the edits of an editor each gives one, in their order, with its text and with its
range carried to the text. These lie within their lines whatever the editor's positions are, so
they always have that result. -/
theorem Edit.applyAll_spliced :
    (∀ (t : Text) (es : List Edit), (∀ e ∈ es, e.InLine t) →
      ∃ out, applyAll? t es = some out ∧ Spliced t es out) ∧
    ∀ (version : Int) (t : Text) (enc : Encoding) (es : List Editor.Edit),
      (Document.ofText version t enc).resolve es
          = es.map (fun e => ⟨(Document.ofText version t enc).ofEditorRange e.range, e.newText⟩) ∧
        (∀ e ∈ (Document.ofText version t enc).resolve es, e.InLine t) ∧
        ∃ out, (Document.ofText version t enc).applyEdits? es = some out ∧
          Spliced t ((Document.ofText version t enc).resolve es) out := by
  refine ⟨fun t es h => exists_spliced h, fun version t enc es => ?_⟩
  have hin : ∀ e ∈ (Document.ofText version t enc).resolve es, e.InLine t :=
    fun e he => Document.inLine_resolve version t enc he
  exact ⟨Document.resolve_eq _ es, hin, exists_spliced hin⟩

/-- Two edits that overlap, one of them reversed and with its ends inside a character and a pair,
and an insertion that only touches them. -/
theorem Edit.applyAll_spliced_overlapping :
    let t : Text := ['a', 'é', '\r', '\n', 'b']
    let es : List Edit :=
      [⟨⟨⟨1, 1⟩, ⟨1, 1⟩⟩, ['z']⟩, ⟨⟨⟨0, 4⟩, ⟨0, 2⟩⟩, ['x']⟩, ⟨⟨⟨0, 3⟩, ⟨1, 1⟩⟩, ['y']⟩]
    (∀ e ∈ es, e.InLine t) ∧ applyAll? t es = some ['a', 'y', 'z'] ∧
      Spliced t es ['a', 'y', 'z'] := by
  intro t es
  have hin : ∀ e ∈ es, e.InLine t := by decide
  have hnormal : es.map normalized
      = [⟨⟨⟨1, 1⟩, ⟨1, 1⟩⟩, ['z']⟩, ⟨⟨⟨0, 2⟩, ⟨0, 4⟩⟩, ['x']⟩, ⟨⟨⟨0, 3⟩, ⟨1, 1⟩⟩, ['y']⟩] := by
    decide
  have hsorted : (es.map normalized).mergeSort (fun d e => decide (d.range ≤ e.range))
      = [⟨⟨⟨0, 2⟩, ⟨0, 4⟩⟩, ['x']⟩, ⟨⟨⟨0, 3⟩, ⟨1, 1⟩⟩, ['y']⟩, ⟨⟨⟨1, 1⟩, ⟨1, 1⟩⟩, ['z']⟩] := by
    rw [hnormal]
    simp [List.mergeSort, List.MergeSort.Internal.splitInTwo, Range.le_iff, Position.lt_iff,
      Position.le_iff]
  have hrun : applyAll? t es = some ['a', 'y', 'z'] := by
    rw [applyAll?, compact, hsorted]
    decide
  obtain ⟨out, hout, hspliced⟩ := applyAll_spliced.1 t es hin
  obtain rfl : out = ['a', 'y', 'z'] := Option.some.inj (hout.symm.trans hrun)
  exact ⟨hin, hrun, hspliced⟩

end Newline
