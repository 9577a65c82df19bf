/-
Edits that reach into one another.

Whether edits overlap is decided by their positions, but they are made at offsets, and a position
past the end of its line can have a greater offset than a later one. The edit is then made in a
place that the edits behind it have changed already, at offsets that may be no boundaries there.

* `Text.isBoundary_splice` — where the boundaries are after one edit;
* `Edit.Cut.Lands`, `Edit.Cut.Landed` — where they are after many, by offsets and lengths alone, and
  whether each edit is made at two of them;
* `Edit.exists_applyFrom_iff` — exactly then the run over the buffer comes to its end;
* `Edit.Cut.Successive` — no edit reaches, by its offsets, into the one behind it;
* `Edit.map_range_compact` — the ranges of the groups do not depend on the texts that are put there;
* `Edit.applyAll_total_iff` — which edits have a result, and which have one whatever they put.
-/
import Newline.Proofs.Diffing

namespace Newline

/-! ### Boundaries after an edit -/

namespace Text

variable {t new : Text} {start stop : Nat}

theorem isBoundary_append_of_le {a : Text} {n : Nat} (b : Text) (h : n ≤ byteLen a) :
    IsBoundary (a ++ b) n ↔ IsBoundary a n := by
  rw [IsBoundary, IsBoundary, floorBoundary_append_of_le b h]

theorem isBoundary_append_add (a b : Text) (n : Nat) :
    IsBoundary (a ++ b) (byteLen a + n) ↔ IsBoundary b n := by
  rw [IsBoundary, IsBoundary, floorBoundary_append_add, Nat.add_left_cancel_iff]

/-- **Boundaries after an edit**: those before it stay, those of its text come in, and those behind
it move along. -/
theorem isBoundary_splice (hstart : t.IsBoundary start) (hstop : t.IsBoundary stop)
    (h : start ≤ stop) (n : Nat) :
    (t.splice start stop new).IsBoundary n ↔
      if n ≤ start then t.IsBoundary n
      else if n ≤ start + byteLen new then new.IsBoundary (n - start)
      else t.IsBoundary (n - (start + byteLen new) + stop) := by
  obtain ⟨a, b, c, rfl, rfl, rfl⟩ := exists_three_parts hstart hstop h
  have hsplice : splice (a ++ b ++ c) (byteLen a) (byteLen a + byteLen b) new
      = a ++ (new ++ c) := by
    rw [splice, ← byteLen_append, dropBytes_append, List.append_assoc a b c, takeBytes_append,
      List.append_assoc]
  rw [hsplice]
  by_cases hbefore : n ≤ byteLen a
  · rw [if_pos hbefore, isBoundary_append_of_le _ hbefore, List.append_assoc,
      isBoundary_append_of_le _ hbefore]
  · rw [if_neg hbefore]
    obtain ⟨k, rfl⟩ := Nat.exists_eq_add_of_le (Nat.le_of_not_le hbefore)
    rw [isBoundary_append_add]
    by_cases hinside : byteLen a + k ≤ byteLen a + byteLen new
    · rw [if_pos hinside, isBoundary_append_of_le c (Nat.le_of_add_le_add_left hinside),
        Nat.add_sub_cancel_left]
    · rw [if_neg hinside]
      obtain ⟨m, rfl⟩ := Nat.exists_eq_add_of_le (show byteLen new ≤ k by omega)
      have hshift : byteLen a + (byteLen new + m) - (byteLen a + byteLen new)
          + (byteLen a + byteLen b) = byteLen (a ++ b) + m := by
        rw [byteLen_append]
        omega
      rw [isBoundary_append_add, hshift, isBoundary_append_add]

/-- Some text has a character across the offset. -/
theorem exists_not_isBoundary {k : Nat} (h : 0 < k) :
    ∃ x : Text, k ≤ byteLen x ∧ ¬ x.IsBoundary k := by
  induction k with
  | zero => exact absurd h (Nat.lt_irrefl 0)
  | succ k ih =>
    rcases Nat.eq_zero_or_pos k with rfl | hk
    · exact ⟨['é'], by decide, by decide⟩
    · obtain ⟨x, hle, hx⟩ := ih hk
      have hlen : byteLen [' '] = 1 := rfl
      have hshift := isBoundary_append_add [' '] x k
      rw [hlen, Nat.add_comm 1 k] at hshift
      refine ⟨[' '] ++ x, ?_, fun hboundary => hx (hshift.mp hboundary)⟩
      rw [byteLen_append, hlen]
      omega

end Text

namespace Edit

/-! ### The run over the buffer, by offsets -/

/-- The cut of an edit as it is made, with the smaller of its two offsets first. -/
def resolved (t : Text) (e : Edit) : Cut where
  start := (t.resolveRange (LineIndex.ofText t) e.range).1
  stop := (t.resolveRange (LineIndex.ofText t) e.range).2
  newText := e.newText

/-- Whether the offset is a boundary of what the cuts, made from the last to the first, make of the
text. Before the first cut this is up to the others, within its text to the text, and behind that
to the others again, at the place that has moved there. -/
def Cut.Lands (t : Text) : List Cut → Nat → Prop
  | [], offset => t.IsBoundary offset
  | c :: cs, offset =>
    if offset ≤ c.start then Lands t cs offset
    else if offset ≤ c.start + Text.byteLen c.newText then
      Text.IsBoundary c.newText (offset - c.start)
    else Lands t cs (offset - (c.start + Text.byteLen c.newText) + c.stop)

/-- Each cut is made at boundaries of what the cuts behind it have made of the text. -/
def Cut.Landed (t : Text) : List Cut → Prop
  | [] => True
  | c :: cs => Cut.Landed t cs ∧ Cut.Lands t cs c.start ∧ Cut.Lands t cs c.stop

/-- No cut ends behind the start of the next one. -/
def Cut.Successive (cs : List Cut) : Prop := cs.IsChain fun c d => c.stop ≤ d.start

variable {t : Text} {cs : List Edit}

theorem resolved_start_le_stop (t : Text) (e : Edit) : (resolved t e).start ≤ (resolved t e).stop :=
  Nat.le_trans (Nat.min_le_left _ _) (Nat.le_max_left _ _)

theorem spliceAt_eq_some_iff {buffer new out : Text} {start stop : Nat} :
    spliceAt? buffer start stop new = some out ↔
      (buffer.IsBoundary start ∧ buffer.IsBoundary stop) ∧ buffer.splice start stop new = out := by
  rw [spliceAt?]
  by_cases h : buffer.IsBoundary start ∧ buffer.IsBoundary stop
  · rw [if_pos h, Option.some.injEq]
    simp [h]
  · rw [if_neg h]
    simp [h]

theorem applyFrom_singleton (t : Text) (buffer : Text) (c : Edit) :
    applyFrom? t (LineIndex.ofText t) buffer [c]
      = spliceAt? buffer (resolved t c).start (resolved t c).stop c.newText := by
  simp [applyFrom?, resolved]

/-- **The run**: if it comes to its end, each edit was made at boundaries, and those of the result
are told by the offsets. -/
theorem lands_of_applyFrom {out : Text}
    (h : applyFrom? t (LineIndex.ofText t) t cs.reverse = some out) :
    Cut.Landed t (cs.map (resolved t)) ∧
      ∀ offset, out.IsBoundary offset ↔ Cut.Lands t (cs.map (resolved t)) offset := by
  induction cs generalizing out with
  | nil =>
    obtain rfl : t = out := Option.some.inj h
    exact ⟨trivial, fun _ => Iff.rfl⟩
  | cons c cs ih =>
    rw [List.reverse_cons, applyFrom_append] at h
    obtain ⟨buffer, hbuffer, hlast⟩ := Option.bind_eq_some_iff.mp h
    obtain ⟨hlanded, hlands⟩ := ih hbuffer
    rw [applyFrom_singleton] at hlast
    obtain ⟨⟨hstart, hstop⟩, rfl⟩ := spliceAt_eq_some_iff.mp hlast
    refine ⟨⟨hlanded, (hlands _).mp hstart, (hlands _).mp hstop⟩, fun offset => ?_⟩
    rw [Text.isBoundary_splice hstart hstop (resolved_start_le_stop t c), hlands, hlands]
    rfl

/-- **The run comes to its end exactly if each edit is made at boundaries.** -/
theorem exists_applyFrom_iff :
    (∃ out, applyFrom? t (LineIndex.ofText t) t cs.reverse = some out) ↔
      Cut.Landed t (cs.map (resolved t)) := by
  constructor
  · rintro ⟨out, h⟩
    exact (lands_of_applyFrom h).1
  · intro h
    induction cs with
    | nil => exact ⟨t, rfl⟩
    | cons c cs ih =>
      obtain ⟨hlanded, hstart, hstop⟩ := h
      obtain ⟨buffer, hbuffer⟩ := ih hlanded
      have hlands := (lands_of_applyFrom hbuffer).2
      refine ⟨buffer.splice (resolved t c).start (resolved t c).stop c.newText, ?_⟩
      rw [List.reverse_cons, applyFrom_append, hbuffer, Option.bind_some, applyFrom_singleton]
      exact spliceAt_eq_some_iff.mpr ⟨⟨(hlands _).mpr hstart, (hlands _).mpr hstop⟩, rfl⟩

/-! ### Edits that do not reach into the next -/

/-- Before all cuts the text is as it was. -/
theorem lands_of_le {offset : Nat} (hoffset : t.IsBoundary offset)
    (h : Cut.Successive (cs.map (resolved t)))
    (hle : ∀ c ∈ cs.head?, offset ≤ (resolved t c).start) :
    Cut.Lands t (cs.map (resolved t)) offset := by
  induction cs with
  | nil => exact hoffset
  | cons c cs ih =>
    have hc := hle c rfl
    rw [List.map_cons, Cut.Lands, if_pos hc]
    refine ih h.tail ?_
    intro d hd
    obtain ⟨ds, rfl⟩ := List.head?_eq_some_iff.mp hd
    have hnext : (resolved t c).stop ≤ (resolved t d).start := (List.isChain_cons_cons.mp h).1
    have hself := resolved_start_le_stop t c
    omega

theorem landed_of_successive (h : Cut.Successive (cs.map (resolved t))) :
    Cut.Landed t (cs.map (resolved t)) := by
  induction cs with
  | nil => trivial
  | cons c cs ih =>
    obtain ⟨hstart, hstop⟩ := isBoundary_resolveRange t (LineIndex.ofText t) c.range
    have hnext : ∀ d ∈ cs.head?, (resolved t c).stop ≤ (resolved t d).start := by
      intro d hd
      obtain ⟨ds, rfl⟩ := List.head?_eq_some_iff.mp hd
      exact (List.isChain_cons_cons.mp h).1
    refine ⟨ih h.tail, lands_of_le hstart h.tail ?_, lands_of_le hstop h.tail hnext⟩
    intro d hd
    exact Nat.le_trans (resolved_start_le_stop t c) (hnext d hd)

theorem Cut.Landed.of_append {cuts rest : List Cut} (h : Cut.Landed t (cuts ++ rest)) :
    Cut.Landed t rest := by
  induction cuts with
  | nil => exact h
  | cons c cuts ih => exact ih h.1

/-- An edit that ends behind the start of the next one may end inside of what that one has put. -/
theorem not_landed_of_reach {c d : Cut} {cuts : List Cut} {k : Nat} (hk : 0 < k)
    (hreach : c.stop - d.start = k) (hle : k ≤ Text.byteLen d.newText)
    (hnew : ¬ Text.IsBoundary d.newText k) : ¬ Cut.Landed t (c :: d :: cuts) := by
  rintro ⟨-, -, hlands⟩
  rw [Cut.Lands, if_neg (by omega), if_pos (by omega), hreach] at hlands
  exact hnew hlands

/-! ### The ranges of the groups -/

theorem map_range_compactInto {d e : Edit} {ds es : List Edit} (h : d.range = e.range)
    (hs : ds.map range = es.map range) :
    (compactInto d ds).map range = (compactInto e es).map range := by
  induction ds generalizing d e es with
  | nil =>
    obtain rfl : es = [] := by simpa using hs.symm
    simp [compactInto, h]
  | cons d' ds ih =>
    obtain ⟨e', es, rfl, he', hes⟩ := List.map_eq_cons_iff.mp hs.symm
    rw [compactInto, compactInto, h, ← he']
    split
    · refine ih ?_ hes.symm
      simp only [he']
    · rw [List.map_cons, List.map_cons, h, ih he'.symm hes.symm]

/-- **The ranges of the groups** come from the ranges of the edits alone. -/
theorem map_range_compact {ds es : List Edit} (h : ds.map range = es.map range) :
    (compact ds).map range = (compact es).map range := by
  have hsort : ∀ cs : List Edit,
      ((cs.map normalized).mergeSort fun d e => decide (d.range ≤ e.range)).map range
        = ((cs.map range).map Range.normalized).mergeSort fun r s => decide (r ≤ s) := by
    intro cs
    rw [List.map_mergeSort (s := fun r s => decide (r ≤ s)) (by intro a _ b _; rfl), List.map_map,
      List.map_map]
    rfl
  have hsorted : ((ds.map normalized).mergeSort fun d e => decide (d.range ≤ e.range)).map range
      = ((es.map normalized).mergeSort fun d e => decide (d.range ≤ e.range)).map range := by
    rw [hsort, hsort, h]
  rw [compact, compact]
  generalize (ds.map normalized).mergeSort _ = ds' at hsorted
  generalize (es.map normalized).mergeSort _ = es' at hsorted
  cases ds' with
  | nil =>
    obtain rfl : es' = [] := by simpa using hsorted.symm
    rfl
  | cons d ds' =>
    obtain ⟨e, es', rfl, he, hes⟩ := List.map_eq_cons_iff.mp hsorted.symm
    exact map_range_compactInto he.symm hes.symm

theorem successive_congr {ds es : List Edit} (h : ds.map range = es.map range) :
    Cut.Successive (ds.map (resolved t)) ↔ Cut.Successive (es.map (resolved t)) := by
  have hranges : ∀ cs : List Edit, Cut.Successive (cs.map (resolved t)) ↔
      (cs.map range).IsChain fun r s => (t.resolveRange (LineIndex.ofText t) r).2
        ≤ (t.resolveRange (LineIndex.ofText t) s).1 := by
    intro cs
    rw [Cut.Successive, List.isChain_map, List.isChain_map]
    rfl
  rw [hranges, hranges, h]

/-- If an edit reaches into the next one, so does, and as far, one of any edits with the same
ranges. -/
theorem exists_reach (h : ¬ Cut.Successive (cs.map (resolved t))) :
    ∃ k, 0 < k ∧ ∀ ds : List Edit, ds.map range = cs.map range →
      ∃ before c d after, ds = before ++ c :: d :: after ∧
        (resolved t c).stop - (resolved t d).start = k := by
  rw [Cut.Successive, List.isChain_map, List.isChain_iff_forall_rel_of_append_cons_cons] at h
  push Not at h
  obtain ⟨c, d, before, after, rfl, hreach⟩ := h
  refine ⟨(resolved t c).stop - (resolved t d).start, Nat.sub_pos_of_lt hreach, ?_⟩
  intro ds hds
  rw [List.map_append, List.map_cons, List.map_cons] at hds
  obtain ⟨before', rest, rfl, -, hrest⟩ := List.map_eq_append_iff.mp hds
  obtain ⟨c', rest, rfl, hc, hrest⟩ := List.map_eq_cons_iff.mp hrest
  obtain ⟨d', after', rfl, hd, -⟩ := List.map_eq_cons_iff.mp hrest
  refine ⟨before', c', d', after', rfl, ?_⟩
  rw [resolved, resolved, hc, hd, resolved, resolved]

/-- Then there is a text that leaves the edits without a result when each of them puts it. -/
theorem exists_applyAll_eq_none {es : List Edit}
    (h : ¬ Cut.Successive ((compact es).map (resolved t))) :
    ∃ x, applyAll? t (es.map fun e => { e with newText := x }) = none := by
  obtain ⟨k, hk, hreach⟩ := exists_reach h
  obtain ⟨x, hle, hx⟩ := Text.exists_not_isBoundary hk
  refine ⟨x, Option.eq_none_iff_forall_ne_some.mpr fun out hout => ?_⟩
  have hlanded := exists_applyFrom_iff.mp ⟨out, hout⟩
  -- The groups have the same ranges as before, and all of them put the text.
  have hranges : (compact (es.map fun e => { e with newText := x })).map range
      = (compact es).map range := map_range_compact (by simp)
  have hnew : ∀ e ∈ compact (es.map fun e => { e with newText := x }), e.newText = x := by
    refine forall_newText_compact (P := fun s => s = x) ?_
    intro e he
    obtain ⟨e', -, rfl⟩ := List.mem_map.mp he
    rfl
  obtain ⟨before, c, d, after, hgroups, hcd⟩ := hreach _ hranges
  have hput : (resolved t d).newText = x := hnew d (by simp [hgroups])
  rw [hgroups, List.map_append, List.map_cons, List.map_cons] at hlanded
  refine not_landed_of_reach hk hcd ?_ ?_ hlanded.of_append
  · rwa [hput]
  · rwa [hput]

/-- **Which edits have a result.** Edits have one exactly if each group is made at boundaries of
what the groups behind it have made of the text. Whatever texts the edits put, they have one exactly
if no group ends, by its offsets, behind the start of the next. -/
theorem applyAll_total_iff (t : Text) (es : List Edit) :
    ((∃ out, applyAll? t es = some out) ↔ Cut.Landed t ((compact es).map (resolved t))) ∧
      ((∀ ds : List Edit, ds.map range = es.map range → ∃ out, applyAll? t ds = some out) ↔
        Cut.Successive ((compact es).map (resolved t))) := by
  refine ⟨exists_applyFrom_iff, ?_, ?_⟩
  · intro htotal
    by_contra hreach
    obtain ⟨x, hnone⟩ := exists_applyAll_eq_none hreach
    obtain ⟨out, hout⟩ := htotal (es.map fun e => { e with newText := x }) (by simp)
    exact absurd (hnone.symm.trans hout) (by simp)
  · intro hsuccessive ds hds
    refine exists_applyFrom_iff.mpr (landed_of_successive ?_)
    exact (successive_congr (map_range_compact hds)).mpr hsuccessive

/-- The first edit is at the end of the text, past the end of its line; the second takes that end
away. -/
theorem applyAll_past_line :
    ¬ ∃ out, applyAll? ['a', '\n', 'b'] [⟨⟨⟨0, 3⟩, ⟨0, 3⟩⟩, []⟩, ⟨⟨⟨1, 0⟩, ⟨1, 1⟩⟩, []⟩]
      = some out := by
  have hcompact : compact [⟨⟨⟨0, 3⟩, ⟨0, 3⟩⟩, []⟩, ⟨⟨⟨1, 0⟩, ⟨1, 1⟩⟩, []⟩]
      = [⟨⟨⟨0, 3⟩, ⟨0, 3⟩⟩, []⟩, ⟨⟨⟨1, 0⟩, ⟨1, 1⟩⟩, []⟩] := by
    simp [compact, compactInto, normalized, ofRange, Range.normalized, List.mergeSort,
      List.MergeSort.Internal.splitInTwo, Range.le_iff, Position.lt_iff, Position.le_iff]
  have hnone : applyAll? ['a', '\n', 'b'] [⟨⟨⟨0, 3⟩, ⟨0, 3⟩⟩, []⟩, ⟨⟨⟨1, 0⟩, ⟨1, 1⟩⟩, []⟩]
      = none := by
    rw [applyAll?, hcompact]
    decide
  rintro ⟨out, hout⟩
  exact absurd (hnone.symm.trans hout) (by simp)

end Edit

end Newline
