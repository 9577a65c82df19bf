/-
Cuts at character boundaries.

An offset is a boundary if the text falls into two parts there, the first of that many bytes.

* `Text.takeBytes_append`, `Text.dropBytes_append` — cutting a text where two parts meet;
* `Text.isBoundary_iff` — boundaries are the offsets where parts meet;
* `Text.floorBoundary_mono` — moving offsets back to boundaries keeps their order;
* `Text.floorBoundary_append_add`, `Text.floorBoundary_append_of_le` — moving an offset back in
  the part of the text that holds it;
* `Text.slice_append` — the part between two boundaries.
-/
import Mathlib.Tactic.Common
import Newline.Text

namespace Newline

namespace Text

variable {t : Text} {m n : Nat}

theorem takeBytes_zero (t : Text) : takeBytes 0 t = [] := by
  cases t with
  | nil => rfl
  | cons c cs =>
    have hpos := c.utf8Size_pos
    rw [takeBytes, if_neg (by omega)]

theorem dropBytes_zero (t : Text) : dropBytes 0 t = t := by
  cases t with
  | nil => rfl
  | cons c cs =>
    have hpos := c.utf8Size_pos
    rw [dropBytes, if_neg (by omega)]

/-- A cut past the first part of a text cuts the second. -/
theorem takeBytes_append_add (a b : Text) (n : Nat) :
    takeBytes (byteLen a + n) (a ++ b) = a ++ takeBytes n b := by
  induction a with
  | nil => simp
  | cons c cs ih =>
    rw [List.cons_append, takeBytes, if_pos (by simp only [byteLen_cons]; omega)]
    rw [show byteLen (c :: cs) + n - c.utf8Size = byteLen cs + n by simp only [byteLen_cons]; omega]
    rw [ih, List.cons_append]

theorem dropBytes_append_add (a b : Text) (n : Nat) :
    dropBytes (byteLen a + n) (a ++ b) = dropBytes n b := by
  induction a with
  | nil => simp
  | cons c cs ih =>
    rw [List.cons_append, dropBytes, if_pos (by simp only [byteLen_cons]; omega)]
    rw [show byteLen (c :: cs) + n - c.utf8Size = byteLen cs + n by simp only [byteLen_cons]; omega]
    exact ih

@[simp] theorem takeBytes_append (a b : Text) : takeBytes (byteLen a) (a ++ b) = a := by
  have h := takeBytes_append_add a b 0
  rwa [takeBytes_zero, Nat.add_zero, List.append_nil] at h

@[simp] theorem dropBytes_append (a b : Text) : dropBytes (byteLen a) (a ++ b) = b := by
  have h := dropBytes_append_add a b 0
  rwa [dropBytes_zero, Nat.add_zero] at h

/-- A cut at or past the end leaves everything before it. -/
theorem takeBytes_of_le (h : byteLen t ≤ n) : takeBytes n t = t := by
  have hsplit := takeBytes_append_add t [] (n - byteLen t)
  rw [show byteLen t + (n - byteLen t) = n by omega, List.append_nil] at hsplit
  rw [hsplit]
  simp [takeBytes]

/-! ### Boundaries -/

theorem floorBoundary_le_byteLen (t : Text) (n : Nat) : floorBoundary t n ≤ byteLen t := by
  have h := congrArg byteLen (takeBytes_append_dropBytes n t)
  rw [byteLen_append] at h
  rw [floorBoundary]
  omega

/-- **A boundary is where two parts meet.** -/
theorem isBoundary_iff : IsBoundary t n ↔ ∃ a b, t = a ++ b ∧ byteLen a = n := by
  constructor
  · intro h
    exact ⟨takeBytes n t, dropBytes n t, (takeBytes_append_dropBytes n t).symm, h⟩
  · rintro ⟨a, b, rfl, rfl⟩
    rw [IsBoundary, floorBoundary, takeBytes_append]

theorem isBoundary_floorBoundary (t : Text) (n : Nat) : IsBoundary t (floorBoundary t n) :=
  isBoundary_iff.mpr ⟨takeBytes n t, dropBytes n t, (takeBytes_append_dropBytes n t).symm, rfl⟩

theorem isBoundary_zero (t : Text) : IsBoundary t 0 := isBoundary_iff.mpr ⟨[], t, rfl, rfl⟩

theorem isBoundary_byteLen (t : Text) : IsBoundary t (byteLen t) :=
  isBoundary_iff.mpr ⟨t, [], by simp, rfl⟩

theorem floorBoundary_mono (t : Text) (h : m ≤ n) : floorBoundary t m ≤ floorBoundary t n := by
  rw [floorBoundary, floorBoundary]
  induction t generalizing m n with
  | nil => simp [takeBytes]
  | cons c cs ih =>
    rw [takeBytes, takeBytes]
    by_cases hm : c.utf8Size ≤ m
    · have hrest := ih (show m - c.utf8Size ≤ n - c.utf8Size by omega)
      rw [if_pos hm, if_pos (by omega)]
      simp only [byteLen_cons]
      omega
    · -- The first character does not fit: the lower cut is at the very front.
      rw [if_neg hm]
      exact Nat.zero_le _

theorem floorBoundary_append_add (a b : Text) (n : Nat) :
    floorBoundary (a ++ b) (byteLen a + n) = byteLen a + floorBoundary b n := by
  rw [floorBoundary, takeBytes_append_add, byteLen_append, floorBoundary]

/-- A cut within the first part of a text does not see the second. -/
theorem takeBytes_append_of_le {a : Text} (b : Text) (h : n ≤ byteLen a) :
    takeBytes n (a ++ b) = takeBytes n a := by
  induction a generalizing n with
  | nil =>
    rw [byteLen_nil, Nat.le_zero] at h
    rw [h, takeBytes_zero, takeBytes_zero]
  | cons c cs ih =>
    rw [byteLen_cons] at h
    rw [List.cons_append, takeBytes, takeBytes]
    by_cases hc : c.utf8Size ≤ n
    · rw [if_pos hc, if_pos hc, ih (by omega)]
    · rw [if_neg hc, if_neg hc]

theorem floorBoundary_append_of_le {a : Text} (b : Text) (h : n ≤ byteLen a) :
    floorBoundary (a ++ b) n = floorBoundary a n := by
  rw [floorBoundary, takeBytes_append_of_le b h, floorBoundary]

/-- Two boundaries in order cut a text in three. -/
theorem exists_three_parts (hm : IsBoundary t m) (hn : IsBoundary t n) (h : m ≤ n) :
    ∃ a b c, t = a ++ b ++ c ∧ byteLen a = m ∧ byteLen a + byteLen b = n := by
  obtain ⟨a, r, rfl, rfl⟩ := isBoundary_iff.mp hm
  -- The second cut lies in what follows the first.
  have hrest : takeBytes n (a ++ r) = a ++ takeBytes (n - byteLen a) r := by
    have hsplit := takeBytes_append_add a r (n - byteLen a)
    rwa [show byteLen a + (n - byteLen a) = n by omega] at hsplit
  have hlen : byteLen a + byteLen (takeBytes (n - byteLen a) r) = n := by
    have hfloor : byteLen (takeBytes n (a ++ r)) = n := hn
    rwa [hrest, byteLen_append] at hfloor
  refine ⟨a, takeBytes (n - byteLen a) r, dropBytes (n - byteLen a) r, ?_, rfl, hlen⟩
  rw [List.append_assoc, takeBytes_append_dropBytes]

/-! ### Slices -/

/-- **The part between two boundaries.** -/
theorem slice_append (a b c : Text) :
    slice (a ++ b ++ c) (byteLen a) (byteLen a + byteLen b) = b := by
  have hfloor : floorBoundary (a ++ b ++ c) (byteLen a) = byteLen a := by
    rw [floorBoundary, List.append_assoc, takeBytes_append]
  rw [slice, hfloor, List.append_assoc, dropBytes_append, Nat.add_sub_cancel_left,
    takeBytes_append]

/-- A slice continues what comes before it. -/
theorem takeBytes_append_slice (hm : IsBoundary t m) (hn : IsBoundary t n) (h : m ≤ n) :
    takeBytes m t ++ slice t m n = takeBytes n t := by
  obtain ⟨a, b, c, rfl, rfl, rfl⟩ := exists_three_parts hm hn h
  rw [slice_append, ← byteLen_append, takeBytes_append, List.append_assoc, takeBytes_append]

/-- What follows a boundary is the slice up to the end. -/
theorem takeBytes_append_slice_byteLen (hm : IsBoundary t m) :
    takeBytes m t ++ slice t m (byteLen t) = t := by
  have hle : m ≤ byteLen t := by
    rw [← hm]
    exact floorBoundary_le_byteLen t m
  rw [takeBytes_append_slice hm (isBoundary_byteLen t) hle, takeBytes_of_le (Nat.le_refl _)]

end Text

end Newline
