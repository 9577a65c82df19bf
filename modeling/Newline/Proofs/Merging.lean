/-
Merged ranges.

Ranges are merged by a sort and a sweep: a range that begins no later than where the last one ends
makes it longer, any other comes after it. What the sweep gives is described without it: ranges in
order, with a gap between any two, that cover what the given ranges cover and begin and end where
some of those do. There is only one list of ranges like that, so the order in which the ranges are
given, or the order of their ends, makes no difference.

* `Range.IsUnion` — what merged ranges are;
* `Range.IsUnion.grow`, `Range.IsUnion.close` — the two steps of the sweep;
* `Range.isUnion_mergeSorted` — the sweep;
* `Range.IsUnion.eq` — there is only one union;
* `Range.merge_canonical` — merging gives it.
-/
import Mathlib.Data.List.Pairwise
import Newline.Proofs.PositionOrder
import Newline.Range.Merge

namespace Newline.Range

/-- The ranges `out` are in order, with gaps between them, and cover what the ranges `rs` cover.
Each of `rs`, also an empty one, lies within one of them, and each of them begins where one of `rs`
begins and ends where one ends. -/
structure IsUnion (rs out : List Range) : Prop where
  ordered : ∀ s ∈ out, s.start ≤ s.stop
  apart : out.Pairwise fun s u => s.stop < u.start
  covers : ∀ p, (∃ s ∈ out, s.contains p) ↔ ∃ r ∈ rs, r.contains p
  within : ∀ r ∈ rs, ∃ s ∈ out, s.start ≤ r.start ∧ r.stop ≤ s.stop
  exists_start : ∀ s ∈ out, ∃ r ∈ rs, r.start = s.start
  exists_stop : ∀ s ∈ out, ∃ r ∈ rs, r.stop = s.stop

variable {c r s : Range} {rs rs' out out' : List Range}

theorem contains_iff {p : Position} : r.contains p ↔ r.start ≤ p ∧ p < r.stop := by
  rw [contains, Bool.and_eq_true, decide_eq_true_eq, decide_eq_true_eq]

/-- The union of ranges does not depend on how they are listed. -/
theorem IsUnion.congr (h : IsUnion rs out) (hmem : ∀ r, r ∈ rs ↔ r ∈ rs') : IsUnion rs' out := by
  refine ⟨h.ordered, h.apart, ?_, ?_, ?_, ?_⟩
  · simpa only [hmem] using h.covers
  · simpa only [hmem] using h.within
  · simpa only [hmem] using h.exists_start
  · simpa only [hmem] using h.exists_stop

/-! ### The sweep -/

/-- Two ranges that touch cover, between them, what one range from the first start to the later end
covers. -/
theorem contains_grow (hstart : c.start ≤ r.start) (htouch : r.start ≤ c.stop) (p : Position) :
    contains ⟨c.start, max c.stop r.stop⟩ p ↔ c.contains p ∨ r.contains p := by
  rw [contains_iff, contains_iff, contains_iff, Position.lt_max_iff]
  constructor
  · rintro ⟨hle, hlt | hlt⟩
    · exact Or.inl ⟨hle, hlt⟩
    · by_cases hc : p < c.stop
      · exact Or.inl ⟨hle, hc⟩
      · exact Or.inr ⟨Position.le_trans htouch (Position.not_lt.mp hc), hlt⟩
  · rintro (⟨hle, hlt⟩ | ⟨hle, hlt⟩)
    · exact ⟨hle, Or.inl hlt⟩
    · exact ⟨Position.le_trans hstart hle, Or.inr hlt⟩

/-- **One step**, for a range that touches the one before it: the two are as good as one. -/
theorem IsUnion.grow (hstart : c.start ≤ r.start) (htouch : r.start ≤ c.stop)
    (h : IsUnion (⟨c.start, max c.stop r.stop⟩ :: rs) out) : IsUnion (c :: r :: rs) out := by
  refine ⟨h.ordered, h.apart, ?_, ?_, ?_, ?_⟩
  · intro p
    rw [h.covers]
    simp only [List.mem_cons, exists_eq_or_imp, contains_grow hstart htouch, or_assoc]
  · -- What holds the longer range holds both.
    obtain ⟨s, hs, hle, hstop⟩ := h.within _ List.mem_cons_self
    intro u hu
    rcases List.mem_cons.mp hu with rfl | hu
    · exact ⟨s, hs, hle, Position.le_trans (Position.le_max_left _ _) hstop⟩
    · rcases List.mem_cons.mp hu with rfl | hu
      · exact ⟨s, hs, Position.le_trans hle hstart,
          Position.le_trans (Position.le_max_right _ _) hstop⟩
      · exact h.within u (List.mem_cons_of_mem _ hu)
  · intro s hs
    obtain ⟨u, hu, heq⟩ := h.exists_start s hs
    rcases List.mem_cons.mp hu with rfl | hu
    · exact ⟨c, by simp, heq⟩
    · exact ⟨u, by simp [hu], heq⟩
  · intro s hs
    obtain ⟨u, hu, heq⟩ := h.exists_stop s hs
    rcases List.mem_cons.mp hu with rfl | hu
    · rcases Position.max_eq_or c.stop r.stop with hmax | hmax
      · exact ⟨c, by simp, hmax.symm.trans heq⟩
      · exact ⟨r, by simp, hmax.symm.trans heq⟩
    · exact ⟨u, by simp [hu], heq⟩

/-- **One step**, for a range behind which all others begin: it is done. -/
theorem IsUnion.close (hc : c.start ≤ c.stop) (hgap : ∀ r ∈ rs, c.stop < r.start)
    (h : IsUnion rs out) : IsUnion (c :: rs) (c :: out) := by
  refine ⟨?_, ?_, ?_, ?_, ?_, ?_⟩
  · intro s hs
    rcases List.mem_cons.mp hs with rfl | hs
    · exact hc
    · exact h.ordered s hs
  · refine List.pairwise_cons.mpr ⟨?_, h.apart⟩
    intro s hs
    obtain ⟨r, hr, heq⟩ := h.exists_start s hs
    rw [← heq]
    exact hgap r hr
  · intro p
    simp only [List.mem_cons, exists_eq_or_imp, h.covers]
  · intro r hr
    rcases List.mem_cons.mp hr with rfl | hr
    · exact ⟨r, by simp, Position.le_refl _, Position.le_refl _⟩
    · obtain ⟨s, hs, hin⟩ := h.within r hr
      exact ⟨s, by simp [hs], hin⟩
  · intro s hs
    rcases List.mem_cons.mp hs with rfl | hs
    · exact ⟨s, by simp, rfl⟩
    · obtain ⟨r, hr, heq⟩ := h.exists_start s hs
      exact ⟨r, by simp [hr], heq⟩
  · intro s hs
    rcases List.mem_cons.mp hs with rfl | hs
    · exact ⟨s, by simp, rfl⟩
    · obtain ⟨r, hr, heq⟩ := h.exists_stop s hs
      exact ⟨r, by simp [hr], heq⟩

theorem isUnion_nil : IsUnion [] [] :=
  ⟨by simp, List.Pairwise.nil, by simp, by simp, by simp, by simp⟩

/-- **The sweep** over ranges in order of their starts. -/
theorem isUnion_mergeSorted (hsorted : (c :: rs).Pairwise fun r s => r.start ≤ s.start)
    (hordered : ∀ r ∈ c :: rs, r.start ≤ r.stop) : IsUnion (c :: rs) (mergeSorted c rs) := by
  induction rs generalizing c with
  | nil =>
    exact IsUnion.close (hordered c (by simp)) (by simp) isUnion_nil
  | cons r rs ih =>
    obtain ⟨hc, hrest⟩ := List.pairwise_cons.mp hsorted
    have hstart := hc r (by simp)
    rw [mergeSorted]
    split
    · rename_i htouch
      -- The longer range has the start of the one before, so all others still begin behind it.
      refine IsUnion.grow hstart htouch (ih ?_ ?_)
      · exact List.pairwise_cons.mpr
          ⟨fun s hs => hc s (by simp [hs]), (List.pairwise_cons.mp hrest).2⟩
      · intro s hs
        rcases List.mem_cons.mp hs with rfl | hs
        · exact Position.le_trans (hordered c (by simp)) (Position.le_max_left _ _)
        · exact hordered s (by simp [hs])
    · rename_i hgap
      refine IsUnion.close (hordered c (by simp)) ?_
        (ih hrest fun s hs => hordered s (by simp [hs]))
      intro s hs
      have hlt := Position.not_le.mp hgap
      rcases List.mem_cons.mp hs with rfl | hs
      · exact hlt
      · exact Position.lt_of_lt_of_le hlt ((List.pairwise_cons.mp hrest).1 s hs)

theorem start_le_stop_of_mem_map (hr : r ∈ rs.map normalized) : r.start ≤ r.stop := by
  obtain ⟨u, -, rfl⟩ := List.mem_map.mp hr
  exact u.normalized_start_le_stop

theorem isUnion_merge (rs : List Range) : IsUnion (rs.map normalized) (merge rs) := by
  have hperm := List.mergeSort_perm (rs.map normalized) fun r s => decide (r ≤ s)
  have hsorted := pairwise_mergeSort (fun r => r) (rs.map normalized)
  rw [merge]
  refine IsUnion.congr ?_ fun r => hperm.mem_iff
  have hordered : ∀ r ∈ (rs.map normalized).mergeSort fun r s => decide (r ≤ s),
      r.start ≤ r.stop := by
    intro r hr
    exact start_le_stop_of_mem_map (hperm.mem_iff.mp hr)
  cases hlist : (rs.map normalized).mergeSort fun r s => decide (r ≤ s) with
  | nil => exact isUnion_nil
  | cons r rest =>
    rw [hlist] at hsorted hordered
    refine isUnion_mergeSorted (hsorted.imp fun hle => ?_) hordered
    rcases le_iff.mp hle with hlt | ⟨heq, -⟩
    · exact Position.le_of_lt hlt
    · exact heq ▸ Position.le_refl _

/-! ### There is only one union -/

/-- Two ranges of a union that meet are the same. -/
theorem IsUnion.eq_of_meet (h : IsUnion rs out) (hs : s ∈ out) (hr : r ∈ out)
    (hsr : s.start ≤ r.stop) (hrs : r.start ≤ s.stop) : s = r := by
  by_contra hne
  have hboth : out.Pairwise fun s u => s.stop < u.start ∨ u.stop < s.start := h.apart.imp Or.inl
  have hsymm : Std.Symm fun s u : Range => s.stop < u.start ∨ u.stop < s.start :=
    ⟨fun _ _ => Or.symm⟩
  rcases hboth.forall hs hr hne with hlt | hlt
  · exact Position.not_lt.mpr hrs hlt
  · exact Position.not_lt.mpr hsr hlt

/-- Of two unions of the same ranges, each range of the one lies within one of the other. -/
theorem IsUnion.exists_within (h : IsUnion rs out) (h' : IsUnion rs out')
    (hordered : ∀ r ∈ rs, r.start ≤ r.stop) (hs : s ∈ out) :
    ∃ u ∈ out', u.start ≤ s.start ∧ s.stop ≤ u.stop := by
  obtain ⟨r, hr, heq⟩ := h.exists_start s hs
  obtain ⟨u, hu, hstart, hstop⟩ := h'.within r hr
  rw [heq] at hstart
  refine ⟨u, hu, hstart, ?_⟩
  by_contra hend
  -- Where `u` ends, `s` goes on, so another range of the other union would go on from there.
  have hgoes : s.contains u.stop := by
    refine contains_iff.mpr ⟨?_, Position.not_le.mp hend⟩
    rw [← heq]
    exact Position.le_trans (hordered r hr) hstop
  obtain ⟨v, hv, hcontains⟩ := (h'.covers _).mpr ((h.covers _).mp ⟨s, hs, hgoes⟩)
  obtain ⟨hle, hlt⟩ := contains_iff.mp hcontains
  have huv := h'.eq_of_meet hu hv
    (Position.le_trans (h'.ordered u hu) (Position.le_of_lt hlt)) hle
  rw [huv] at hlt
  exact Position.not_lt.mpr (Position.le_refl _) hlt

theorem IsUnion.subset (h : IsUnion rs out) (h' : IsUnion rs out')
    (hordered : ∀ r ∈ rs, r.start ≤ r.stop) : ∀ s ∈ out, s ∈ out' := by
  intro s hs
  obtain ⟨u, hu, hstart, hstop⟩ := h.exists_within h' hordered hs
  obtain ⟨v, hv, hstart', hstop'⟩ := h'.exists_within h hordered hu
  -- `s` lies within `u` and `u` within `v`, so that `s` and `v` meet.
  have hsv : s = v := h.eq_of_meet hs hv
    (Position.le_trans (h.ordered s hs) (Position.le_trans hstop hstop'))
    (Position.le_trans hstart' (Position.le_trans hstart (h.ordered s hs)))
  rw [← hsv] at hstart' hstop'
  obtain ⟨a, b⟩ := s
  obtain ⟨a', b'⟩ := u
  obtain rfl : a = a' := Position.le_antisymm hstart' hstart
  obtain rfl : b = b' := Position.le_antisymm hstop hstop'
  exact hu

theorem IsUnion.sorted (h : IsUnion rs out) : out.Pairwise (· ≤ ·) := by
  refine h.apart.imp_of_mem fun {s u} hs _ hlt => ?_
  exact le_iff.mpr (Or.inl (Position.lt_of_le_of_lt (h.ordered s hs) hlt))

theorem IsUnion.nodup (h : IsUnion rs out) : out.Nodup := by
  refine h.apart.imp_of_mem fun {s u} hs _ hlt heq => ?_
  rw [← heq] at hlt
  exact Position.not_lt.mpr (h.ordered s hs) hlt

/-- **There is only one union.** -/
theorem IsUnion.eq (h : IsUnion rs out) (h' : IsUnion rs out')
    (hordered : ∀ r ∈ rs, r.start ≤ r.stop) : out = out' := by
  have hperm : out.Perm out' := (List.perm_ext_iff_of_nodup h.nodup h'.nodup).mpr fun s =>
    ⟨h.subset h' hordered s, h'.subset h hordered s⟩
  refine List.Perm.eq_of_pairwise ?_ h.apart h'.apart hperm
  intro s u hs hu hsu hus
  have hback := Position.lt_of_le_of_lt (h'.ordered u hu) hus
  exact absurd (Position.lt_of_le_of_lt (h.ordered s hs) hsu)
    (Position.not_lt.mpr (Position.le_of_lt hback))

/-- Ranges in order, with gaps between them, are their own union. -/
theorem IsUnion.self (h : IsUnion rs out) : IsUnion out out :=
  ⟨h.ordered, h.apart, fun _ => Iff.rfl,
    fun s hs => ⟨s, hs, Position.le_refl _, Position.le_refl _⟩,
    fun s hs => ⟨s, hs, rfl⟩, fun s hs => ⟨s, hs, rfl⟩⟩

/-! ### Merging -/

/-- What is merged is a matter of the normalized ranges, in whatever order they are. -/
theorem merge_congr (h : (rs.map normalized).Perm (rs'.map normalized)) : merge rs = merge rs' :=
  ((isUnion_merge rs).congr fun _ => h.mem_iff).eq (isUnion_merge rs')
    fun _ => start_le_stop_of_mem_map

theorem merge_merge (rs : List Range) : merge (merge rs) = merge rs := by
  have hunion := isUnion_merge rs
  have hself : (merge rs).map normalized = merge rs := by
    conv_rhs => rw [← List.map_id (merge rs)]
    exact List.map_congr_left fun s hs => normalized_of_le (hunion.ordered s hs)
  have hagain := isUnion_merge (merge rs)
  rw [hself] at hagain
  exact hagain.eq hunion.self hunion.ordered

/-- The range with its ends exchanged. -/
def reversed (r : Range) : Range := ⟨r.stop, r.start⟩

theorem normalized_reversed (r : Range) : r.reversed.normalized = r.normalized := by
  by_cases hback : r.stop < r.start
  · rw [normalized_of_le (r := r.reversed) (Position.le_of_lt hback), normalized, if_pos hback]
    rfl
  · have hle := Position.not_lt.mp hback
    by_cases hlt : r.start < r.stop
    · rw [normalized_of_le hle, normalized, reversed, if_pos hlt]
    · -- The two ends are the same.
      obtain ⟨a, b⟩ := r
      obtain rfl : a = b := Position.le_antisymm hle (Position.not_lt.mp hlt)
      rfl

/-- The ranges `rs'` are the ranges `rs`, some of them with their ends exchanged. -/
def Reverses (rs rs' : List Range) : Prop := List.Forall₂ (fun r s => s = r ∨ s = r.reversed) rs rs'

theorem Reverses.map_normalized (h : Reverses rs rs') :
    rs.map normalized = rs'.map normalized := by
  induction h with
  | nil => rfl
  | cons hrs _ ih =>
    rw [List.map_cons, List.map_cons, ih]
    rcases hrs with rfl | rfl
    · rfl
    · rw [normalized_reversed]

/-- **Merging gives the union**, and nothing else is the union. It does not depend on the order in
which the ranges are given, nor on which of their two ends comes first, and what is merged already
stays as it is. -/
theorem merge_canonical (rs : List Range) :
    IsUnion (rs.map normalized) (merge rs) ∧ (merge rs).Pairwise (· ≤ ·) ∧
      (∀ out, IsUnion (rs.map normalized) out → out = merge rs) ∧
      (∀ rs', rs'.Perm rs → merge rs' = merge rs) ∧
      (∀ rs', Reverses rs rs' → merge rs' = merge rs) ∧
      merge (merge rs) = merge rs := by
  have hunion := isUnion_merge rs
  refine ⟨hunion, hunion.sorted, ?_, ?_, ?_, merge_merge rs⟩
  · intro out hout
    exact hout.eq hunion fun _ => start_le_stop_of_mem_map
  · intro rs' hperm
    exact merge_congr (hperm.map normalized)
  · intro rs' hreverses
    exact merge_congr (hreverses.map_normalized ▸ List.Perm.refl _)

/-- A range from its end to its start, one that touches it, and an empty one between them in the
list, but behind them in the order. -/
theorem merge_canonical_touching :
    let rs : List Range := [⟨⟨0, 2⟩, ⟨0, 0⟩⟩, ⟨⟨2, 0⟩, ⟨2, 0⟩⟩, ⟨⟨0, 2⟩, ⟨1, 0⟩⟩]
    let out : List Range := [⟨⟨0, 0⟩, ⟨1, 0⟩⟩, ⟨⟨2, 0⟩, ⟨2, 0⟩⟩]
    IsUnion (rs.map normalized) out ∧ merge rs = out ∧
      rs.reverse.Perm rs ∧ merge rs.reverse = out ∧
      Reverses rs (rs.map reversed) ∧ merge (rs.map reversed) = out := by
  intro rs out
  have hnormal : rs.map normalized
      = [⟨⟨0, 0⟩, ⟨0, 2⟩⟩, ⟨⟨2, 0⟩, ⟨2, 0⟩⟩, ⟨⟨0, 2⟩, ⟨1, 0⟩⟩] := by
    decide
  have hsorted : ((rs.map normalized).mergeSort fun r s => decide (r ≤ s))
      = [⟨⟨0, 0⟩, ⟨0, 2⟩⟩, ⟨⟨0, 2⟩, ⟨1, 0⟩⟩, ⟨⟨2, 0⟩, ⟨2, 0⟩⟩] := by
    rw [hnormal]
    simp [List.mergeSort, List.MergeSort.Internal.splitInTwo, le_iff, Position.lt_iff,
      Position.le_iff]
  have hmerge : merge rs = out := by
    rw [merge, hsorted]
    decide
  obtain ⟨hunion, -, -, hperm, hreverses, -⟩ := merge_canonical rs
  have hback : Reverses rs (rs.map reversed) :=
    .cons (Or.inr rfl) (.cons (Or.inr rfl) (.cons (Or.inr rfl) .nil))
  rw [hmerge] at hunion hperm hreverses
  exact ⟨hunion, hmerge, rs.reverse_perm, hperm _ rs.reverse_perm, hback, hreverses _ hback⟩

end Newline.Range
