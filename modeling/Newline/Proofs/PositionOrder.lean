/-
The order of positions and of ranges.

Positions are ordered by line and then by character, ranges by their starts and then by their
ends; both orders are total. `Position.compare` gives the first of them as a comparison.
`filter_mergeSort` says what it means for the sort to be stable.
-/
import Mathlib.Tactic.Common
import Newline.Range

namespace Newline

namespace Position

variable {p q r : Position}

theorem le_refl (p : Position) : p ≤ p := by
  rw [le_iff]
  omega

theorem le_trans (hpq : p ≤ q) (hqr : q ≤ r) : p ≤ r := by
  rw [le_iff] at *
  omega

theorem le_total (p q : Position) : p ≤ q ∨ q ≤ p := by
  rw [le_iff, le_iff]
  omega

theorem le_antisymm (hpq : p ≤ q) (hqp : q ≤ p) : p = q := by
  rw [le_iff] at *
  obtain ⟨l, c⟩ := p
  obtain ⟨m, d⟩ := q
  simp only [mk.injEq]
  simp only at hpq hqp
  omega

theorem not_lt : ¬ p < q ↔ q ≤ p := by
  rw [lt_iff, le_iff]
  omega

theorem le_of_lt (h : p < q) : p ≤ q := by
  rw [lt_iff] at h
  rw [le_iff]
  omega

theorem not_le : ¬ p ≤ q ↔ q < p := by
  rw [lt_iff, le_iff]
  omega

theorem lt_of_le_of_lt (hpq : p ≤ q) (hqr : q < r) : p < r := by
  rw [le_iff] at hpq
  rw [lt_iff] at hqr ⊢
  omega

theorem lt_of_lt_of_le (hpq : p < q) (hqr : q ≤ r) : p < r := by
  rw [lt_iff] at hpq ⊢
  rw [le_iff] at hqr
  omega

/-! ### The order as a comparison -/

theorem compare_eq_lt_iff : compare p q = .lt ↔ p < q := by
  rw [compare]
  split
  · simp [*]
  · split <;> simp [*]

theorem compare_swap (p q : Position) : (compare p q).swap = compare q p := by
  have hasymm : p < q → ¬ q < p := fun h => not_lt.mpr (le_of_lt h)
  rw [compare, compare]
  by_cases hpq : p < q
  · simp [hpq, hasymm hpq]
  · by_cases hqp : q < p <;> simp [hpq, hqp]

theorem compare_eq_gt_iff : compare p q = .gt ↔ q < p := by
  rw [← compare_swap, Ordering.swap_eq_gt, compare_eq_lt_iff]

theorem compare_ne_gt_iff : compare p q ≠ .gt ↔ p ≤ q := by
  rw [ne_eq, compare_eq_gt_iff, not_lt]

theorem compare_eq_eq_iff : compare p q = .eq ↔ p = q := by
  constructor
  · intro h
    have hle : p ≤ q := compare_ne_gt_iff.mp (by simp [h])
    have hge : q ≤ p := compare_ne_gt_iff.mp (by rw [← compare_swap, h]; decide)
    exact le_antisymm hle hge
  · rintro rfl
    rw [compare, if_neg (not_lt.mpr (le_refl p)), if_neg (not_lt.mpr (le_refl p))]

/-! ### The later of two positions -/

theorem max_eq (p q : Position) : max p q = if p ≤ q then q else p := rfl

/-- The later of two positions is one of them. -/
theorem max_eq_or (p q : Position) : max p q = p ∨ max p q = q := by
  rw [max_eq]
  split
  · exact Or.inr rfl
  · exact Or.inl rfl

theorem le_max_left (p q : Position) : p ≤ max p q := by
  rw [max_eq]
  split
  · assumption
  · exact le_refl p

theorem le_max_right (p q : Position) : q ≤ max p q := by
  rw [max_eq]
  split
  · exact le_refl q
  · rename_i h
    exact le_of_lt (not_le.mp h)

theorem lt_max_iff : r < max p q ↔ r < p ∨ r < q := by
  constructor
  · intro h
    rcases max_eq_or p q with hmax | hmax
    · exact Or.inl (hmax ▸ h)
    · exact Or.inr (hmax ▸ h)
  · rintro (h | h)
    · exact lt_of_lt_of_le h (le_max_left p q)
    · exact lt_of_lt_of_le h (le_max_right p q)

end Position

namespace Range

variable {r s u : Range}

theorem le_trans (hrs : r ≤ s) (hsu : s ≤ u) : r ≤ u := by
  simp only [le_iff, Position.lt_iff, Position.le_iff] at *
  rcases hrs with h | ⟨h, h'⟩
  · rcases hsu with g | ⟨g, g'⟩
    · left
      omega
    · left
      rw [← g]
      exact h
  · rw [h]
    rcases hsu with g | ⟨g, g'⟩
    · left
      exact g
    · right
      exact ⟨g, by omega⟩

theorem le_total (r s : Range) : r ≤ s ∨ s ≤ r := by
  by_cases h : r.start = s.start
  · rcases Position.le_total r.stop s.stop with h' | h'
    · exact Or.inl (le_iff.mpr (Or.inr ⟨h, h'⟩))
    · exact Or.inr (le_iff.mpr (Or.inr ⟨h.symm, h'⟩))
  · by_cases hlt : r.start < s.start
    · exact Or.inl (le_iff.mpr (Or.inl hlt))
    · refine Or.inr (le_iff.mpr (Or.inl ?_))
      by_contra hge
      exact h (Position.le_antisymm (Position.not_lt.mp hge) (Position.not_lt.mp hlt))

theorem le_refl (r : Range) : r ≤ r := le_iff.mpr (Or.inr ⟨rfl, Position.le_refl r.stop⟩)

/-- The ends of a normalized range are in order. -/
theorem normalized_start_le_stop (r : Range) : r.normalized.start ≤ r.normalized.stop := by
  rw [normalized]
  split
  · rename_i h
    exact Position.le_of_lt h
  · rename_i h
    exact Position.not_lt.mp h

theorem normalized_of_le {r : Range} (h : r.start ≤ r.stop) : r.normalized = r := by
  rw [normalized, if_neg (Position.not_lt.mpr h)]

/-- Normalizing keeps the two ends. -/
theorem normalized_ends (r : Range) (P : Position → Prop) :
    P r.normalized.start ∧ P r.normalized.stop ↔ P r.start ∧ P r.stop := by
  rw [normalized]
  split
  · exact and_comm
  · rfl

/-- Entries sorted by their ranges are in order of their ranges. -/
theorem pairwise_mergeSort {α : Type} (key : α → Range) (xs : List α) :
    (xs.mergeSort fun a b => decide (key a ≤ key b)).Pairwise fun a b => key a ≤ key b := by
  have hsorted := @List.pairwise_mergeSort _ (fun a b => decide (key a ≤ key b))
    (fun a b c hab hbc => by simpa using le_trans (by simpa using hab) (by simpa using hbc))
    (fun a b => by simpa using le_total (key a) (key b)) xs
  simpa using hsorted

end Range

/-- **A stable sort** leaves the entries of one key in the order in which they were given. -/
theorem filter_mergeSort {α κ : Type} [DecidableEq κ] {le : α → α → Bool} (key : α → κ)
    (trans : ∀ a b c, le a b = true → le b c = true → le a c = true)
    (total : ∀ a b, (le a b || le b a) = true)
    (same : ∀ a b, key a = key b → le a b = true) (xs : List α) (k : κ) :
    (xs.mergeSort le).filter (fun a => key a = k) = xs.filter fun a => key a = k := by
  have hsorted : (xs.filter fun a => key a = k).Pairwise fun a b => le a b = true := by
    refine List.pairwise_of_forall_mem_list fun a ha b hb => same a b ?_
    have hka : key a = k := by simpa using (List.mem_filter.mp ha).2
    have hkb : key b = k := by simpa using (List.mem_filter.mp hb).2
    rw [hka, hkb]
  -- The entries of one key are a sorted part of the list, so they stay a part of it.
  have hpart := List.sublist_mergeSort trans total hsorted List.filter_sublist
  have hkept := hpart.filter fun a => decide (key a = k)
  rw [List.filter_filter] at hkept
  simp only [Bool.and_self] at hkept
  have hlen := ((List.mergeSort_perm xs le).filter fun a => decide (key a = k)).length_eq
  exact (hkept.eq_of_length hlen.symm).symm

end Newline
