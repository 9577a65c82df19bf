/-
Settings over runs of changes.

Six changes act on the defaults of a store and on the settings of single documents, each in its
own way. After any run of them the settings that count for a document can be read off the run.

* `Store.Change.Establishes`, `Store.Change.Removes` — what a change does about one document;
* `Store.Overridden` — what a run leaves a document: settings that were given to it and neither
  replaced nor taken away since;
* `Store.getElem?_applyAll_iff` — a store holds for a document what the run leaves it;
* `Store.defaults_applyAll` — its defaults come from the changes of defaults alone;
* `Store.SameFor` — stores that do not differ for one document, whatever they hold for others;
* `Store.All`, `Settings.TabInRange` — a property that all settings have which are brought in;
* `Store.settingsFor_applyAll` — the law of all runs.
-/
import Mathlib.Data.List.Induction
import Newline.Settings.Store

namespace Newline.Settings

namespace Store

variable {s : Store} {c : Store.Change} {changes : List Store.Change} {uri : String}
  {settings : Settings}

/-! ### One change and one document -/

namespace Change

/-- The change gives the document settings of its own. -/
inductive Establishes (uri : String) (settings : Settings) : Change → Prop
  | set : Establishes uri settings (.setDocument uri settings)
  | replace {store : Store} : store.documents[uri]? = some settings →
      Establishes uri settings (.replace store)

/-- The change leaves the document without settings of its own. -/
inductive Removes (uri : String) : Change → Prop
  | clear : Removes uri (.clearDocument uri)
  | clearAll : Removes uri .clearDocuments
  | replace {store : Store} : store.documents[uri]? = none → Removes uri (.replace store)

/-- The change decides what the document's own settings are. -/
def Concerns (uri : String) (c : Change) : Prop :=
  (∃ settings, c.Establishes uri settings) ∨ c.Removes uri

theorem Establishes.getElem?_apply (h : c.Establishes uri settings) (s : Store) :
    (s.apply c).documents[uri]? = some settings := by
  cases h with
  | set => exact Std.HashMap.getElem?_insert_self
  | replace h => exact h

theorem Removes.getElem?_apply (h : c.Removes uri) (s : Store) :
    (s.apply c).documents[uri]? = none := by
  cases h with
  | clear => exact Std.HashMap.getElem?_erase_self
  | clearAll => exact Std.HashMap.getElem?_empty
  | replace h => exact h

/-- Any other change leaves the document what it has. -/
theorem getElem?_apply_of_not_concerns (h : ¬ c.Concerns uri) (s : Store) :
    (s.apply c).documents[uri]? = s.documents[uri]? := by
  cases c with
  | replace store =>
    refine absurd ?_ h
    cases hstore : store.documents[uri]? with
    | none => exact Or.inr (.replace hstore)
    | some settings => exact Or.inl ⟨settings, .replace hstore⟩
  | updateDefaults defaults => rfl
  | mergeDefaults v => rfl
  | setDocument other settings =>
    have hne : other ≠ uri := by
      rintro rfl
      exact h (Or.inl ⟨settings, .set⟩)
    rw [apply, Std.HashMap.getElem?_insert, if_neg (by simpa using hne)]
  | clearDocument other =>
    have hne : other ≠ uri := by
      rintro rfl
      exact h (Or.inr .clear)
    rw [apply, Std.HashMap.getElem?_erase, if_neg (by simpa using hne)]
  | clearDocuments => exact absurd (Or.inr .clearAll) h

/-- All that a change can do about a document. -/
theorem apply_cases (c : Change) (uri : String) :
    (∃ settings, c.Establishes uri settings ∧
        ∀ s : Store, (s.apply c).documents[uri]? = some settings) ∨
      (∀ s : Store, (s.apply c).documents[uri]? = none) ∨
      ¬ c.Concerns uri ∧ ∀ s : Store, (s.apply c).documents[uri]? = s.documents[uri]? := by
  by_cases h : c.Concerns uri
  · rcases h with ⟨settings, hgiven⟩ | hremoves
    · exact Or.inl ⟨settings, hgiven, hgiven.getElem?_apply⟩
    · exact Or.inr (Or.inl hremoves.getElem?_apply)
  · exact Or.inr (Or.inr ⟨h, getElem?_apply_of_not_concerns h⟩)

theorem not_concerns_of_defaults
    (h : (∃ defaults, c = .updateDefaults defaults) ∨ ∃ v, c = .mergeDefaults v) (uri : String) :
    ¬ c.Concerns uri := by
  rintro (⟨settings, hgiven⟩ | hremoves)
  · cases hgiven <;> simp at h
  · cases hremoves <;> simp at h

end Change

/-! ### Runs -/

theorem applyAll_append (s : Store) (changes more : List Change) :
    s.applyAll (changes ++ more) = (s.applyAll changes).applyAll more :=
  List.foldl_append

theorem getElem?_applyAll_of_not_concerns (h : ∀ c ∈ changes, ¬ c.Concerns uri) (s : Store) :
    (s.applyAll changes).documents[uri]? = s.documents[uri]? := by
  induction changes generalizing s with
  | nil => rfl
  | cons c changes ih =>
    have hrest := ih (fun d hd => h d (by simp [hd])) (s.apply c)
    exact hrest.trans (Change.getElem?_apply_of_not_concerns (h c (by simp)) s)

/-- The run gives the document these settings, and no change after that gives it others or takes
them away. -/
def Overridden (uri : String) (changes : List Change) (settings : Settings) : Prop :=
  ∃ before c after, changes = before ++ c :: after ∧ c.Establishes uri settings ∧
    ∀ d ∈ after, ¬ d.Concerns uri

theorem Overridden.getElem?_applyAll (h : Overridden uri changes settings) (s : Store) :
    (s.applyAll changes).documents[uri]? = some settings := by
  obtain ⟨before, c, after, rfl, hc, hafter⟩ := h
  rw [applyAll_append]
  exact (getElem?_applyAll_of_not_concerns hafter _).trans (hc.getElem?_apply _)

/-- **A store holds for a document what the run leaves it.** -/
theorem getElem?_applyAll_iff (h : s.documents[uri]? = none) :
    (s.applyAll changes).documents[uri]? = some settings ↔ Overridden uri changes settings := by
  constructor
  · intro hsome
    induction changes using List.reverseRecOn with
    | nil => exact absurd (h.symm.trans hsome) (by simp)
    | append_singleton changes c ih =>
      rw [applyAll_append] at hsome
      change ((s.applyAll changes).apply c).documents[uri]? = _ at hsome
      rcases c.apply_cases uri with ⟨given, hgiven, happly⟩ | happly | ⟨hother, happly⟩
      · -- The last change is the one that counts.
        rw [happly] at hsome
        rw [← Option.some.inj hsome]
        exact ⟨changes, c, [], rfl, hgiven, by simp⟩
      · exact absurd ((happly _).symm.trans hsome) (by simp)
      · rw [happly] at hsome
        obtain ⟨before, d, after, rfl, hd, hafter⟩ := ih hsome
        refine ⟨before, d, after ++ [c], by simp, hd, ?_⟩
        intro e he
        rcases List.mem_append.mp he with he | he
        · exact hafter e he
        · rwa [List.mem_singleton.mp he]
  · intro hover
    exact hover.getElem?_applyAll s

theorem settingsFor_eq (s : Store) (uri : String) :
    s.settingsFor uri = (s.documents[uri]?).getD s.defaults :=
  Std.HashMap.getD_eq_getD_getElem?

/-! ### Defaults -/

namespace Change

/-- Whether the change is one of defaults, alone or with all the rest. -/
def setsDefaults : Change → Bool
  | .replace _ | .updateDefaults _ | .mergeDefaults _ => true
  | .setDocument _ _ | .clearDocument _ | .clearDocuments => false

/-- The defaults that the change makes of those before it. -/
def nextDefaults (defaults : Settings) : Change → Settings
  | .replace store => store.defaults
  | .updateDefaults next => next
  | .mergeDefaults v => defaults.merge v
  | .setDocument _ _ | .clearDocument _ | .clearDocuments => defaults

theorem nextDefaults_of_not_setsDefaults (h : c.setsDefaults = false) (defaults : Settings) :
    c.nextDefaults defaults = defaults := by
  cases c <;> first | rfl | exact absurd h (by simp [setsDefaults])

end Change

theorem defaults_apply (s : Store) (c : Change) :
    (s.apply c).defaults = c.nextDefaults s.defaults := by
  cases c <;> rfl

/-- **Defaults come from the changes of defaults alone.** -/
theorem defaults_applyAll (s : Store) (changes : List Change) :
    (s.applyAll changes).defaults
      = (changes.filter Change.setsDefaults).foldl Change.nextDefaults s.defaults := by
  induction changes generalizing s with
  | nil => rfl
  | cons c changes ih =>
    have hrest : (s.applyAll (c :: changes)).defaults
        = (changes.filter Change.setsDefaults).foldl Change.nextDefaults (s.apply c).defaults :=
      ih (s.apply c)
    rw [hrest, defaults_apply]
    cases hc : c.setsDefaults with
    | true => rw [List.filter_cons_of_pos hc, List.foldl_cons]
    | false =>
      rw [List.filter_cons_of_neg (by simp [hc]), Change.nextDefaults_of_not_setsDefaults hc]

/-! ### Other documents -/

/-- Whether the change is about the settings of some other document only. -/
def Change.elsewhere (uri : String) : Change → Bool
  | .setDocument other _ | .clearDocument other => other ≠ uri
  | .replace _ | .updateDefaults _ | .mergeDefaults _ | .clearDocuments => false

/-- The two stores give the document the same, now and after the same changes. -/
structure SameFor (uri : String) (s r : Store) : Prop where
  defaults : s.defaults = r.defaults
  documents : s.documents[uri]? = r.documents[uri]?

namespace SameFor

variable {r : Store}

theorem settingsFor (h : SameFor uri s r) : s.settingsFor uri = r.settingsFor uri := by
  rw [settingsFor_eq, settingsFor_eq, h.defaults, h.documents]

theorem apply (h : SameFor uri s r) (c : Change) : SameFor uri (s.apply c) (r.apply c) := by
  refine ⟨by rw [defaults_apply, defaults_apply, h.defaults], ?_⟩
  rcases c.apply_cases uri with ⟨settings, -, happly⟩ | happly | ⟨-, happly⟩
  · rw [happly, happly]
  · rw [happly, happly]
  · rw [happly, happly, h.documents]

/-- A change elsewhere may be made in one store and left out in the other. -/
theorem apply_elsewhere (h : SameFor uri s r) (hc : c.elsewhere uri = true) :
    SameFor uri s (r.apply c) := by
  have hdefaults : (r.apply c).defaults = r.defaults := by
    rw [defaults_apply]
    refine Change.nextDefaults_of_not_setsDefaults ?_ _
    cases c <;> first | rfl | exact absurd hc (by simp [Change.elsewhere])
  have hother : ¬ c.Concerns uri := by
    rintro (⟨settings, hgiven⟩ | hremoves)
    · cases hgiven <;> exact absurd hc (by simp [Change.elsewhere])
    · cases hremoves <;> exact absurd hc (by simp [Change.elsewhere])
  refine ⟨by rw [hdefaults, h.defaults], ?_⟩
  rw [Change.getElem?_apply_of_not_concerns hother, h.documents]

theorem applyAll_filter (h : SameFor uri s r) (changes : List Change) :
    SameFor uri (s.applyAll (changes.filter fun c => !c.elsewhere uri)) (r.applyAll changes) := by
  induction changes generalizing s r with
  | nil => exact h
  | cons c changes ih =>
    cases hc : c.elsewhere uri with
    | true =>
      rw [List.filter_cons_of_neg (by simp [hc])]
      exact ih (h.apply_elsewhere hc)
    | false =>
      rw [List.filter_cons_of_pos (by simp [hc])]
      exact ih (h.apply c)

end SameFor

/-! ### What all settings have in common -/

/-- The change brings in these settings. -/
inductive Change.Supplies (settings : Settings) : Change → Prop
  | defaults : Supplies settings (.updateDefaults settings)
  | document {uri : String} : Supplies settings (.setDocument uri settings)
  | replace {store : Store} : store.defaults = settings → Supplies settings (.replace store)
  | replaceDocument {store : Store} {uri : String} : store.documents[uri]? = some settings →
      Supplies settings (.replace store)

/-- All settings in the store have the property. -/
structure All (P : Settings → Prop) (s : Store) : Prop where
  defaults : P s.defaults
  documents : ∀ (uri : String) (settings : Settings), s.documents[uri]? = some settings → P settings

namespace All

variable {P : Settings → Prop}

theorem settingsFor (h : All P s) (uri : String) : P (s.settingsFor uri) := by
  rw [settingsFor_eq]
  cases hdoc : s.documents[uri]? with
  | none => exact h.defaults
  | some settings => exact h.documents uri settings hdoc

theorem apply (h : All P s) (hmerge : ∀ settings v, P settings → P (settings.merge v))
    (hc : ∀ settings, c.Supplies settings → P settings) : All P (s.apply c) := by
  constructor
  · rw [defaults_apply]
    cases c with
    | replace store => exact hc _ (.replace rfl)
    | updateDefaults defaults => exact hc _ .defaults
    | mergeDefaults v => exact hmerge _ v h.defaults
    | setDocument uri settings => exact h.defaults
    | clearDocument uri => exact h.defaults
    | clearDocuments => exact h.defaults
  · intro uri settings hsome
    rcases c.apply_cases uri with ⟨given, hgiven, happly⟩ | happly | ⟨-, happly⟩
    · rw [happly] at hsome
      rw [← Option.some.inj hsome]
      cases hgiven with
      | set => exact hc _ .document
      | replace hstore => exact hc _ (.replaceDocument hstore)
    · exact absurd ((happly s).symm.trans hsome) (by simp)
    · rw [happly] at hsome
      exact h.documents uri settings hsome

theorem applyAll (h : All P s) (hmerge : ∀ settings v, P settings → P (settings.merge v))
    (hchanges : ∀ c ∈ changes, ∀ settings, Change.Supplies settings c → P settings) :
    All P (s.applyAll changes) := by
  induction changes generalizing s with
  | nil => exact h
  | cons c changes ih =>
    exact ih (h.apply hmerge (hchanges c (by simp))) fun d hd => hchanges d (by simp [hd])

end All

end Store

/-- The width of a level of indentation is one that is read from JSON. -/
def TabInRange (s : Settings) : Prop := minTabSize ≤ s.tabSize ∧ s.tabSize ≤ maxTabSize

theorem clampTabSize_inRange (n : Int) :
    minTabSize ≤ clampTabSize n ∧ clampTabSize n ≤ maxTabSize := by
  simp only [clampTabSize, minTabSize, maxTabSize]
  omega

theorem TabInRange.assign {s : Settings} (h : s.TabInRange) (field : String × Json) :
    (s.assign field).TabInRange := by
  unfold Settings.assign
  split
  · -- A width that cannot be read changes nothing, and any other is brought into the range.
    rename_i v
    rw [TabInRange]
    cases signed? v with
    | none => exact h
    | some n => exact clampTabSize_inRange n
  all_goals exact h

theorem TabInRange.merge {s : Settings} (h : s.TabInRange) (v : Json) : (s.merge v).TabInRange := by
  cases v with
  | obj fields =>
    rw [Settings.merge]
    induction fields generalizing s with
    | nil => exact h
    | cons field fields ih => exact ih (h.assign field)
  | _ => exact h

namespace Store

/-- **Settings over any run of changes.** For a document count the settings that the run has left
it, and without any the defaults, which come from the changes of defaults alone. So changes
elsewhere can be left out, a change of the defaults stays hidden behind the document's own settings,
and widths stay in range if all that are brought in are. -/
theorem settingsFor_applyAll (defaults : Settings) (changes : List Change) (uri : String) :
    let start : Store := { defaults }
    let s := start.applyAll changes
    (∀ settings, Overridden uri changes settings → s.settingsFor uri = settings) ∧
      ((∀ settings, ¬ Overridden uri changes settings) → s.settingsFor uri = s.defaults) ∧
      s.defaults = (changes.filter Change.setsDefaults).foldl Change.nextDefaults defaults ∧
      (start.applyAll (changes.filter fun c => !c.elsewhere uri)).settingsFor uri
        = s.settingsFor uri ∧
      (∀ more : List Change,
        (∀ c ∈ more, (∃ d, c = .updateDefaults d) ∨ ∃ v, c = .mergeDefaults v) →
        ∀ settings, Overridden uri changes settings →
          (s.applyAll more).settingsFor uri = settings) ∧
      (defaults.TabInRange →
        (∀ c ∈ changes, ∀ settings, Change.Supplies settings c → settings.TabInRange) →
        (s.settingsFor uri).TabInRange) := by
  intro start s
  have hempty : ∀ other : String, start.documents[other]? = none :=
    fun _ => Std.HashMap.getElem?_empty
  have hover : ∀ {r : Store} {settings : Settings}, r.documents[uri]? = some settings →
      r.settingsFor uri = settings := by
    intro r settings hsome
    rw [settingsFor_eq, hsome, Option.getD_some]
  refine ⟨?_, ?_, defaults_applyAll start changes, ?_, ?_, ?_⟩
  · intro settings h
    exact hover (h.getElem?_applyAll start)
  · intro hnone
    have hdoc : s.documents[uri]? = none := by
      rw [Option.eq_none_iff_forall_ne_some]
      intro settings hsome
      exact hnone settings ((getElem?_applyAll_iff (hempty uri)).mp hsome)
    rw [settingsFor_eq, hdoc, Option.getD_none]
  · exact (SameFor.applyAll_filter ⟨rfl, rfl⟩ changes).settingsFor
  · intro more hmore settings h
    have hother : ∀ c ∈ more, ¬ c.Concerns uri :=
      fun c hc => Change.not_concerns_of_defaults (hmore c hc) uri
    exact hover ((getElem?_applyAll_of_not_concerns hother s).trans (h.getElem?_applyAll start))
  · intro hdefaults hchanges
    have hall : All TabInRange start := ⟨hdefaults, fun other settings hsome =>
      absurd ((hempty other).symm.trans hsome) (by simp)⟩
    exact (hall.applyAll (fun settings v h => h.merge v) hchanges).settingsFor uri

/-- A document with settings of its own, one that has lost them, and a width that is out of range
until it is merged. -/
theorem settingsFor_applyAll_merged :
    let changes : List Change := [.setDocument "a" { tabSize := 4 },
      .setDocument "b" { tabSize := 8 }, .mergeDefaults (.obj [("tabSize", .int 40)]),
      .clearDocument "b"]
    let s := ({} : Store).applyAll changes
    Overridden "a" changes { tabSize := 4 } ∧ s.settingsFor "a" = { tabSize := 4 } ∧
      (∀ settings, ¬ Overridden "b" changes settings) ∧ s.settingsFor "b" = { tabSize := 16 } ∧
      (s.applyAll [.updateDefaults { tabSize := 3 }]).settingsFor "a" = { tabSize := 4 } ∧
      (s.settingsFor "b").TabInRange := by
  intro changes s
  have ha : Overridden "a" changes { tabSize := 4 } := by
    refine ⟨[], _, _, rfl, .set, ?_⟩
    rintro d hd (⟨settings, hgiven⟩ | hremoves)
    · cases hgiven <;> simp at hd
    · cases hremoves <;> simp at hd
  have hb : ∀ settings, ¬ Overridden "b" changes settings := by
    intro settings h
    have hclear : (Change.clearDocument "b").Removes "b" := .clear
    have hnone := hclear.getElem?_apply (({} : Store).applyAll (changes.take 3))
    exact absurd (hnone.symm.trans (h.getElem?_applyAll {})) (by simp)
  have hsupplied : ∀ c ∈ changes, ∀ settings, Change.Supplies settings c → settings.TabInRange := by
    intro c hc settings h
    cases h <;> simp [changes] at hc
    rcases hc with ⟨-, rfl⟩ | ⟨-, rfl⟩
    · exact ⟨by decide, by decide⟩
    · exact ⟨by decide, by decide⟩
  obtain ⟨hfirst, -, -, -, hhidden, -⟩ := settingsFor_applyAll {} changes "a"
  obtain ⟨-, hsecond, -, -, -, hrange⟩ := settingsFor_applyAll {} changes "b"
  refine ⟨ha, hfirst _ ha, hb, hsecond hb, hhidden _ ?_ _ ha,
    hrange ⟨by decide, by decide⟩ hsupplied⟩
  intro c hc
  exact Or.inl ⟨_, List.mem_singleton.mp hc⟩

end Store

end Newline.Settings
