/-
Documents from version to version.

An editor offers updates one after the other. One that is not newer than the document at hand is
refused, and the document stays; any other gives a document that is made from the new text alone.

* `Document.update_eq_ok_iff`, `Document.update_eq_error_iff` — all that an update can do;
* `Document.Derived`, `Document.derived_ofText` — what a document holds besides its text is what
  the text gives, also where the index of the text serves for the LF form;
* `Document.offerAll`, `Document.accepted` — a run of updates, and those of them that are taken;
* `Document.offerAll_induction` — what every update that is taken keeps, the run keeps;
* `Document.offerAll_derived` — the law of all runs.
-/
import Newline.Proofs.LfView

namespace Newline.Document

/-- A version and its text, as an editor offers them. -/
structure Update where
  /-- The version. -/
  version : Int
  /-- The text. -/
  text : Text

variable {d next : Document} {v : Int} {t : Text}

/-! ### One update -/

theorem update_eq_ok_iff :
    d.update v t = .ok next ↔ d.version < v ∧ next = ofText v t d.encoding := by
  rw [update]
  by_cases hstale : v ≤ d.version
  · rw [if_pos hstale]
    constructor
    · intro h
      exact absurd h (by simp)
    · rintro ⟨hnew, -⟩
      omega
  · rw [if_neg hstale]
    constructor
    · intro h
      exact ⟨by omega, (Except.ok.inj h).symm⟩
    · rintro ⟨-, rfl⟩
      rfl

theorem update_eq_error_iff {e : Editor.Error} :
    d.update v t = .error e ↔ v ≤ d.version ∧ e = .staleVersion d.version v := by
  rw [update]
  by_cases hstale : v ≤ d.version
  · rw [if_pos hstale]
    constructor
    · intro h
      exact ⟨hstale, (Except.error.inj h).symm⟩
    · rintro ⟨-, rfl⟩
      rfl
  · rw [if_neg hstale]
    constructor
    · intro h
      exact absurd h (by simp)
    · rintro ⟨h, -⟩
      exact absurd h hstale

/-- All that a document holds about its text is what the text gives. -/
structure Derived (d : Document) : Prop where
  stats : d.stats = Stats.ofText d.text
  ending : d.ending = Ending.detect d.text
  index : d.index = LineIndex.ofText d.text
  lfText : d.lfText = d.text.normalize (.fixed .lf)
  marks : d.marks = CrlfMarks.ofText d.text
  lfIndex : d.lfIndex = LineIndex.ofText d.lfText

theorem derived_ofText (version : Int) (t : Text) (enc : Encoding) :
    (ofText version t enc).Derived where
  stats := rfl
  ending := rfl
  index := rfl
  lfText := rfl
  marks := rfl
  lfIndex := lfIndex_ofText version t enc

/-! ### Runs of updates -/

/-- The document after an update was offered: the next one, or the same if it was refused. -/
def offer (d : Document) (u : Update) : Document := (d.update u.version u.text).toOption.getD d

/-- The document after updates were offered, the first one first. -/
def offerAll (d : Document) (us : List Update) : Document := us.foldl offer d

/-- The updates that are taken when they are offered one after the other. -/
def accepted (d : Document) : List Update → List Update
  | [] => []
  | u :: us =>
    match d.update u.version u.text with
    | .ok next => u :: next.accepted us
    | .error _ => d.accepted us

section Step

variable {u : Update}

theorem offer_of_lt (h : d.version < u.version) :
    d.offer u = ofText u.version u.text d.encoding := by
  rw [offer, update_eq_ok_iff.mpr ⟨h, rfl⟩]
  rfl

theorem offer_of_le (h : u.version ≤ d.version) : d.offer u = d := by
  rw [offer, update_eq_error_iff.mpr ⟨h, rfl⟩]
  rfl

theorem accepted_cons_of_lt (us : List Update) (h : d.version < u.version) :
    d.accepted (u :: us) = u :: (ofText u.version u.text d.encoding).accepted us := by
  rw [accepted, update_eq_ok_iff.mpr ⟨h, rfl⟩]

theorem accepted_cons_of_le (us : List Update) (h : u.version ≤ d.version) :
    d.accepted (u :: us) = d.accepted us := by
  rw [accepted, update_eq_error_iff.mpr ⟨h, rfl⟩]

end Step

/-- What every update that is taken keeps, the run keeps. -/
theorem offerAll_induction {P : Document → Prop} (us : List Update) (h : P d)
    (step : ∀ (d : Document) (u : Update), P d → d.version < u.version →
      P (ofText u.version u.text d.encoding)) :
    P (d.offerAll us) := by
  induction us generalizing d with
  | nil => exact h
  | cons u us ih =>
    rw [offerAll, List.foldl_cons]
    refine ih ?_
    rcases Int.lt_or_le d.version u.version with hnew | hstale
    · rw [offer_of_lt hnew]
      exact step d u h hnew
    · rwa [offer_of_le hstale]

theorem Derived.offerAll (h : d.Derived) (us : List Update) : (d.offerAll us).Derived :=
  offerAll_induction us h fun d u _ _ => derived_ofText u.version u.text d.encoding

theorem encoding_offerAll (d : Document) (us : List Update) :
    (d.offerAll us).encoding = d.encoding := by
  refine offerAll_induction (P := fun next => next.encoding = d.encoding) us rfl ?_
  intro next u h _
  exact h

/-- **Versions only go up.** -/
theorem pairwise_accepted (d : Document) (us : List Update) :
    (⟨d.version, d.text⟩ :: d.accepted us).Pairwise fun u w => u.version < w.version := by
  induction us generalizing d with
  | nil => simp [accepted]
  | cons u us ih =>
    rcases Int.lt_or_le d.version u.version with hnew | hstale
    · -- The run goes on from the update, and what it takes is newer than that.
      have hrest := ih (ofText u.version u.text d.encoding)
      rw [accepted_cons_of_lt us hnew]
      refine List.pairwise_cons.mpr ⟨?_, hrest⟩
      intro w hw
      rcases List.mem_cons.mp hw with rfl | hw
      · exact hnew
      · exact Int.lt_trans hnew ((List.pairwise_cons.mp hrest).1 w hw)
    · rw [accepted_cons_of_le us hstale]
      exact ih d

/-- **The last update that was taken is the one at hand.** -/
theorem getLast?_accepted (d : Document) (us : List Update) :
    (⟨d.version, d.text⟩ :: d.accepted us).getLast?
      = some ⟨(d.offerAll us).version, (d.offerAll us).text⟩ := by
  induction us generalizing d with
  | nil => rfl
  | cons u us ih =>
    rw [offerAll, List.foldl_cons]
    rcases Int.lt_or_le d.version u.version with hnew | hstale
    · rw [accepted_cons_of_lt us hnew, offer_of_lt hnew, List.getLast?_cons_cons]
      exact ih (ofText u.version u.text d.encoding)
    · rw [accepted_cons_of_le us hstale, offer_of_le hstale]
      exact ih d

/-- The first document of a text, with the units asked for or else the usual ones. -/
def opened (version : Int) (t : Text) : Option Encoding → Document
  | none => ofText version t
  | some enc => (ofText version t).withEncoding enc

theorem opened_eq (version : Int) (t : Text) (enc : Option Encoding) :
    opened version t enc = ofText version t (enc.getD default) := by
  cases enc <;> rfl

/-- **Documents over any run of updates.** What the document holds besides its text is derived from
the text, and its units are those it was opened with. It refuses an update exactly if its version is
not newer, and says which two versions these are; so the versions that are taken go up, and the
document has the version and the text of the last of them. -/
theorem offerAll_derived (version : Int) (t : Text) (enc : Option Encoding) (us : List Update) :
    let first := opened version t enc
    let d := first.offerAll us
    d.Derived ∧ d.encoding = enc.getD default ∧
      (∀ v s e, d.update v s = .error e ↔ v ≤ d.version ∧ e = .staleVersion d.version v) ∧
      (∀ v s next, d.update v s = .ok next ↔
        d.version < v ∧ next = opened v s (some d.encoding)) ∧
      (⟨version, t⟩ :: first.accepted us).Pairwise (fun u w => u.version < w.version) ∧
      (⟨version, t⟩ :: first.accepted us).getLast? = some ⟨d.version, d.text⟩ := by
  intro first d
  have hfirst : first = ofText version t (enc.getD default) := opened_eq version t enc
  have hderived : first.Derived := by
    rw [hfirst]
    exact derived_ofText version t (enc.getD default)
  have hencoding : d.encoding = enc.getD default := by
    rw [encoding_offerAll, hfirst]
    rfl
  have hhead : (⟨version, t⟩ : Update) = ⟨first.version, first.text⟩ := by
    rw [hfirst]
    rfl
  refine ⟨hderived.offerAll us, hencoding, ?_, ?_, ?_, ?_⟩
  · intro v s e
    exact update_eq_error_iff
  · intro v s next
    exact update_eq_ok_iff
  · rw [hhead]
    exact pairwise_accepted first us
  · rw [hhead]
    exact getLast?_accepted first us

end Newline.Document
