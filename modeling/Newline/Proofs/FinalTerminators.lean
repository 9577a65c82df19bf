/-
How many terminators a text ends with.

Stripping takes one terminator away, and ending a text puts one there if there is none. A policy
that does both leaves one fewer than it found, but at least one. So it takes as many runs as there
are terminators to get down to a single one.

* `Text.finalTerminators` — the number of terminators at the end;
* `Text.finalTerminators_stripFinalNewline`, `Text.isTerminated_iff_pos` — it is how often there is
  something to strip;
* `Policy.finalTerminators_apply` — what a policy that strips and ends makes of it;
* `Policy.apply_apply_eq_iff` — when such a policy leaves its result alone;
* `Policy.endsOnce_iff` — when one run is enough, and what any number of runs does.
-/
import Mathlib.Data.List.DropRight
import Newline.Proofs.PolicyLines

namespace Newline

open Line

/-! ### Empty lines at the end -/

namespace Policy

variable {bs : List Text}

/-- How many lines at the end are empty, of those behind a terminator. -/
def finalEmpty (bs : List Text) : Nat := (bs.tail.rtakeWhile List.isEmpty).length

theorem finalEmpty_concat_nil (h : bs ≠ []) : finalEmpty (bs ++ [[]]) = finalEmpty bs + 1 := by
  rw [finalEmpty, List.tail_append_of_ne_nil h, List.rtakeWhile_concat_pos _ _ _ rfl,
    List.length_append, List.length_singleton, finalEmpty]

theorem finalEmpty_of_not_ended (h : ¬ Ended bs) : finalEmpty bs = 0 := by
  rcases List.eq_nil_or_concat bs with rfl | ⟨init, b, rfl⟩
  · rfl
  · rw [List.concat_eq_append] at h ⊢
    by_cases hinit : init = []
    · subst hinit
      rfl
    · have hb : ¬ b.isEmpty := by
        intro hempty
        exact h (ended_concat.mpr ⟨hinit, List.isEmpty_iff.mp hempty⟩)
      rw [finalEmpty, List.tail_append_of_ne_nil hinit, List.rtakeWhile_concat_neg _ _ _ hb,
        List.length_nil]

theorem ended_iff_pos : Ended bs ↔ 0 < finalEmpty bs := by
  constructor
  · intro h
    obtain ⟨init, hne, rfl⟩ := h.exists_init
    rw [finalEmpty_concat_nil hne]
    omega
  · intro hpos
    by_contra h
    rw [finalEmpty_of_not_ended h] at hpos
    exact absurd hpos (Nat.lt_irrefl 0)

theorem finalEmpty_stripLines (bs : List Text) :
    finalEmpty (stripLines bs) = finalEmpty bs - 1 := by
  by_cases h : Ended bs
  · obtain ⟨init, hne, rfl⟩ := h.exists_init
    rw [stripLines_concat hne, finalEmpty_concat_nil hne, Nat.add_sub_cancel]
  · rw [stripLines_of_not_ended h, finalEmpty_of_not_ended h]

theorem ended_endLines (h : bs ≠ []) : Ended (endLines bs) := by
  rw [endLines]
  by_cases hended : Ended bs
  · rwa [if_pos hended]
  · rw [if_neg hended]
    exact ended_concat.mpr ⟨h, rfl⟩

theorem finalEmpty_endLines (h : bs ≠ []) : finalEmpty (endLines bs) = max 1 (finalEmpty bs) := by
  rw [endLines]
  by_cases hended : Ended bs
  · have hpos := ended_iff_pos.mp hended
    rw [if_pos hended]
    omega
  · rw [if_neg hended, finalEmpty_concat_nil h, finalEmpty_of_not_ended hended]
    rfl

/-- Taking one empty line away and seeing to it that there is one changes nothing exactly if there
was one. -/
theorem endLines_stripLines_eq_self_iff : endLines (stripLines bs) = bs ↔ finalEmpty bs = 1 := by
  by_cases h : Ended bs
  · obtain ⟨init, hne, rfl⟩ := h.exists_init
    rw [stripLines_concat hne, finalEmpty_concat_nil hne, endLines]
    by_cases hinit : Ended init
    · have hpos := ended_iff_pos.mp hinit
      rw [if_pos hinit]
      constructor
      · intro heq
        exact absurd heq (by simp)
      · intro hone
        omega
    · rw [if_neg hinit, finalEmpty_of_not_ended hinit]
      exact iff_of_true rfl rfl
  · rw [stripLines_of_not_ended h, finalEmpty_of_not_ended h, endLines, if_neg h]
    exact iff_of_false (by simp) (by simp)

end Policy

open Policy

/-! ### Terminators at the end -/

namespace Text

/-- The number of terminators that a text ends with. -/
def finalTerminators (t : Text) : Nat := finalEmpty ((split t).map body)

theorem isTerminated_iff_pos (t : Text) : t.isTerminated = true ↔ 0 < t.finalTerminators := by
  rw [isTerminated_iff_ended, ended_iff_pos, finalTerminators]

theorem finalTerminators_stripFinalNewline (t : Text) :
    t.stripFinalNewline.finalTerminators = t.finalTerminators - 1 := by
  rw [finalTerminators, map_body_stripFinalNewline, finalEmpty_stripLines, finalTerminators]

end Text

/-- Two lines are enough for their ending to be found. -/
theorem Ending.detect_joinLines {bs : List Text} (h : Text.Bodies bs) (hlen : 2 ≤ bs.length)
    (e : Ending) : detect (Text.joinLines (.fixed e) bs) = e := by
  obtain ⟨ls, hls, rfl⟩ := h.exists_complete
  rw [List.length_map] at hlen
  rw [Text.joinLines_eq e hls]
  exact detect_withEnding hls fun _ => hlen

/-! ### Policies that strip and end -/

namespace Policy

/-- A text that a policy has ended makes it choose the same ending again, also if it strips. -/
theorem target_apply_of_ensure {p : Policy} (hensure : p.ensureFinalNewline = true) (t : Text) :
    p.target (p.apply t) = p.target t := by
  cases hmode : p.mode with
  | fixed e => simp only [target, hmode]
  | preserve =>
    have htarget : ∀ u, p.target u = Ending.detect u := by
      intro u
      simp only [target, hmode]
    have hbodies := Text.bodies_split t
    have hended : Ended (p.onLines ((split t).map body)) := by
      rw [onLines, if_pos hensure]
      exact ended_endLines (bodies_keptLines p hbodies).ne_nil
    rw [apply_eq_joinLines, htarget (Text.joinLines _ _)]
    exact Ending.detect_joinLines (bodies_onLines p hbodies) hended.1 _

/-- The policy that strips a text and then ends it. -/
def stripAndEnd (mode : Mode) : Policy where
  mode := mode
  ensureFinalNewline := true
  stripFinalNewline := true

variable (mode : Mode) (t : Text)

theorem onLines_stripAndEnd (bs : List Text) :
    (stripAndEnd mode).onLines bs = endLines (stripLines bs) := rfl

/-- **One terminator fewer, but at least one.** -/
theorem finalTerminators_apply :
    ((stripAndEnd mode).apply t).finalTerminators = max 1 (t.finalTerminators - 1) := by
  have hne := (bodies_stripLines (Text.bodies_split t)).ne_nil
  rw [Text.finalTerminators, map_body_apply, onLines_stripAndEnd, finalEmpty_endLines hne,
    finalEmpty_stripLines, Text.finalTerminators]

theorem finalTerminators_iterate (k : Nat) :
    ((stripAndEnd mode).apply^[k + 1] t).finalTerminators
      = max 1 (t.finalTerminators - (k + 1)) := by
  induction k with
  | zero => exact finalTerminators_apply mode t
  | succ k ih =>
    rw [Function.iterate_succ_apply', finalTerminators_apply, ih]
    omega

/-- **The result is left alone** exactly if it ends with a single terminator. -/
theorem apply_apply_eq_iff :
    (stripAndEnd mode).apply ((stripAndEnd mode).apply t) = (stripAndEnd mode).apply t ↔
      ((stripAndEnd mode).apply t).finalTerminators = 1 := by
  have htarget := target_apply_of_ensure (p := stripAndEnd mode) rfl t
  have hfirst := (stripAndEnd mode).apply_eq_joinLines t
  have hsecond := (stripAndEnd mode).apply_eq_joinLines ((stripAndEnd mode).apply t)
  -- Both runs join lines with the same ending, so it is the lines that count.
  rw [← map_body_apply] at hfirst
  rw [htarget, onLines_stripAndEnd] at hsecond
  have hbodies := Text.bodies_split ((stripAndEnd mode).apply t)
  have hinj := (bodies_endLines (bodies_stripLines hbodies)).joinLines_inj hbodies
    (.fixed ((stripAndEnd mode).target t))
  rw [← hsecond, ← hfirst, endLines_stripLines_eq_self_iff] at hinj
  exact hinj

/-- A text is left with a single terminator at its end: it ends with the ending that the policy
writes, is not ended without that, and a second run changes nothing. -/
structure EndsOnce (p : Policy) (t : Text) : Prop where
  ended : (p.apply t).endsWith (p.target t).text = true
  once : (p.apply t).stripFinalNewline.isTerminated = false
  settled : p.apply (p.apply t) = p.apply t

/-- **A policy that strips and ends** leaves a text with a single terminator at its end exactly if
it had no more than two there. The result is ended in every case, but each run takes one
terminator away, until there is only one. -/
theorem endsOnce_iff :
    ((stripAndEnd mode).EndsOnce t ↔ t.finalTerminators ≤ 2) ∧
      ((stripAndEnd mode).apply t).endsWith ((stripAndEnd mode).target t).text = true ∧
      ∀ k, ((stripAndEnd mode).apply^[k + 1] t).finalTerminators
        = max 1 (t.finalTerminators - (k + 1)) := by
  have hcount := finalTerminators_apply mode t
  have hended := endsWith_apply (p := stripAndEnd mode) rfl t
  refine ⟨?_, hended, finalTerminators_iterate mode t⟩
  constructor
  · intro h
    have hone := (apply_apply_eq_iff mode t).mp h.settled
    omega
  · intro htwo
    refine ⟨hended, ?_, ?_⟩
    · rw [← Bool.not_eq_true, Text.isTerminated_iff_pos, Text.finalTerminators_stripFinalNewline,
        hcount]
      omega
    · rw [apply_apply_eq_iff, hcount]
      omega

/-- Of three terminators the first run leaves two, and the second one. -/
theorem not_endsOnce_three :
    ¬ (stripAndEnd (.fixed .lf)).EndsOnce ['a', '\n', '\n', '\n'] := by
  intro h
  exact absurd h.once (by decide)

end Policy

end Newline
