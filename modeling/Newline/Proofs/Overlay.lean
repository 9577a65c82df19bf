/-
Merging JSON objects into settings.

An object is merged by assigning its fields one after the other. What comes out can be said for each
field of the settings by itself: it has the value of the last field of the object that has its name
and a value of the right kind, and its old value if there is none. All laws of merging follow.

* `Settings.Key` — the six fields, with their names, their values and how these are read;
* `Settings.Key.get_assign`, `Settings.Key.get_merge` — one field of the object, and all of them;
* `Settings.accepts`, `Settings.overlay` — the fields of an object that count, and those of one
  object laid over those of another;
* `Settings.Key.last?_overlay`, `Settings.Key.last?_perm` — what the laid over fields say, and that
  their order does not matter;
* `Settings.merge_laws` — merging is laying over, field by field, and undoes the encoding.
-/
import Newline.Proofs.Overrides
import Newline.Wire

namespace Newline

theorem Target.ofName?_name (e : Target) : Target.ofName? e.name = some e := by
  rcases e with e | _
  · cases e <;> rfl
  · rfl

namespace Json

theorem keepLast_sublist (fields : List (String × Json)) : (keepLast fields).Sublist fields := by
  fun_induction keepLast fields with
  | case1 => exact List.Sublist.refl _
  | case2 name v rest _ ih => exact ih.cons _
  | case3 name v rest _ ih => exact ih.cons_cons _

/-- No name occurs twice in an object that is read. -/
theorem nodup_names_keepLast (fields : List (String × Json)) :
    ((keepLast fields).map Prod.fst).Nodup := by
  fun_induction keepLast fields with
  | case1 => exact List.nodup_nil
  | case2 name v rest _ ih => exact ih
  | case3 name v rest hfree ih =>
    refine List.nodup_cons.mpr ⟨fun hmem => ?_, ih⟩
    obtain ⟨f, hf, hname⟩ := List.mem_map.mp hmem
    rw [Bool.not_eq_true, Option.isSome_eq_false_iff, Option.isNone_iff_eq_none,
      List.lookup_eq_none_iff] at hfree
    simpa [hname] using hfree f ((keepLast_sublist rest).subset hf)

end Json

namespace Settings

/-! ### Fields -/

/-- The fields of settings. -/
inductive Key
  | tabSize
  | insertSpaces
  | trimTrailingWhitespace
  | insertFinalNewline
  | eol
  | detectMixedIndentation
  deriving DecidableEq, Repr

namespace Key

/-- All fields. -/
def all : List Key :=
  [tabSize, insertSpaces, trimTrailingWhitespace, insertFinalNewline, eol, detectMixedIndentation]

/-- The name in JSON. -/
def name : Key → String
  | tabSize => "tabSize"
  | insertSpaces => "insertSpaces"
  | trimTrailingWhitespace => "trimTrailingWhitespace"
  | insertFinalNewline => "insertFinalNewline"
  | eol => "eol"
  | detectMixedIndentation => "detectMixedIndentation"

/-- What the field holds. -/
abbrev Value : Key → Type
  | tabSize => Nat
  | eol => Target
  | insertSpaces | trimTrailingWhitespace | insertFinalNewline | detectMixedIndentation => Bool

/-- What it holds in given settings. -/
def get (s : Settings) : (k : Key) → k.Value
  | tabSize => s.tabSize
  | insertSpaces => s.insertSpaces
  | trimTrailingWhitespace => s.trimTrailingWhitespace
  | insertFinalNewline => s.insertFinalNewline
  | eol => s.eol
  | detectMixedIndentation => s.detectMixedIndentation

/-- What a JSON value stands for, if it is of the kind that the field asks for. -/
def read? (v : Json) : (k : Key) → Option k.Value
  | tabSize => (signed? v).map clampTabSize
  | eol => v.str?.bind Target.ofName?
  | insertSpaces | trimTrailingWhitespace | insertFinalNewline | detectMixedIndentation => v.bool?

/-- What a field of an object says, if it has the name and a value of the right kind. -/
def at? (k : Key) (f : String × Json) : Option k.Value := if f.1 = k.name then k.read? f.2 else none

/-- What the fields of an object say. The last one that says anything counts. -/
def last? (k : Key) : List (String × Json) → Option k.Value
  | [] => none
  | f :: fs => (last? k fs).or (k.at? f)

end Key

/-- Whether a field of an object counts: it has the name of one of the six and a value of the right
kind. -/
def accepts (f : String × Json) : Bool := Key.all.any fun k => (k.at? f).isSome

/-- The fields of an object with those of another that count laid over them. -/
def overlay (fields later : List (String × Json)) : List (String × Json) :=
  (fields.filter fun f => !later.any fun g => g.1 = f.1 && accepts g) ++ later.filter accepts

/-- Settings are the same if all their fields are. -/
theorem ext_get {s r : Settings} (h : ∀ k : Key, k.get s = k.get r) : s = r := by
  cases s
  cases r
  rw [mk.injEq]
  exact ⟨h .tabSize, h .insertSpaces, h .trimTrailingWhitespace, h .insertFinalNewline, h .eol,
    h .detectMixedIndentation⟩

namespace Key

variable {k : Key} {f : String × Json} {fields later : List (String × Json)}

theorem name_inj {k' : Key} (h : k.name = k'.name) : k = k' := by
  cases k <;> cases k' <;> first | rfl | exact absurd h (by decide)

theorem name_of_at? (h : k.at? f ≠ none) : f.1 = k.name := by
  by_contra hne
  exact h (if_neg hne)

/-- **One field of an object** changes the field of its name, and no other. -/
theorem get_assign (k : Key) (s : Settings) (f : String × Json) :
    k.get (s.assign f) = (k.at? f).getD (k.get s) := by
  obtain ⟨n, v⟩ := f
  unfold assign
  split
  -- The six names, and any other name last: each time only the field of that name can change.
  all_goals cases k <;> simp_all [at?, name, get, read?]

/-- **All fields of an object**: the last one of the name with a value of the right kind counts. -/
theorem get_merge (k : Key) (s : Settings) (fields : List (String × Json)) :
    k.get (s.merge (.obj fields)) = (k.last? fields).getD (k.get s) := by
  rw [merge]
  induction fields generalizing s with
  | nil => rfl
  | cons f fields ih =>
    rw [List.foldl_cons, ih, get_assign, last?]
    cases k.last? fields <;> rfl

/-! ### What several fields say -/

theorem last?_append (k : Key) (fields later : List (String × Json)) :
    k.last? (fields ++ later) = (k.last? later).or (k.last? fields) := by
  induction fields with
  | nil => simp [last?]
  | cons f fields ih => rw [List.cons_append, last?, ih, last?, Option.or_assoc]

theorem last?_eq_none_iff : k.last? fields = none ↔ ∀ f ∈ fields, k.at? f = none := by
  induction fields with
  | nil => simp [last?]
  | cons f fields ih => simp [last?, ih, and_comm]

/-- Fields that say nothing can be left out. -/
theorem last?_filter {p : String × Json → Bool}
    (h : ∀ f ∈ fields, p f = false → k.at? f = none) :
    k.last? (fields.filter p) = k.last? fields := by
  induction fields with
  | nil => rfl
  | cons f fields ih =>
    have ih := ih fun g hg => h g (by simp [hg])
    cases hp : p f with
    | true => rw [List.filter_cons_of_pos hp, last?, last?, ih]
    | false =>
      rw [List.filter_cons_of_neg (by simp [hp]), ih, last?, h f (by simp) hp, Option.or_none]

/-- If no name occurs twice, it does not matter which field is the last. -/
theorem last?_eq_some_iff (hnames : (fields.map Prod.fst).Nodup) {x : k.Value} :
    k.last? fields = some x ↔ ∃ f ∈ fields, k.at? f = some x := by
  induction fields with
  | nil => simp [last?]
  | cons f fields ih =>
    obtain ⟨hf, hnames⟩ := List.nodup_cons.mp hnames
    cases hat : k.at? f with
    | none => simp [last?, hat, ih hnames]
    | some y =>
      -- The other fields have other names.
      have hnone : ∀ g ∈ fields, k.at? g = none := by
        intro g hg
        by_contra hne
        refine hf (List.mem_map.mpr ⟨g, hg, ?_⟩)
        rw [name_of_at? hne, name_of_at? (k := k) (by simp [hat])]
      rw [last?, last?_eq_none_iff.mpr hnone, Option.none_or, hat]
      constructor
      · intro hx
        exact ⟨f, by simp, hat.trans hx⟩
      · rintro ⟨g, hg, hx⟩
        rcases List.mem_cons.mp hg with rfl | hg
        · exact hat.symm.trans hx
        · rw [hnone g hg] at hx
          cases hx

/-- **The order of fields** of different names does not matter. -/
theorem last?_perm (hnames : (fields.map Prod.fst).Nodup) (h : fields.Perm later) :
    k.last? fields = k.last? later := by
  have hlater : (later.map Prod.fst).Nodup := (h.map Prod.fst).nodup_iff.mp hnames
  refine Option.ext fun x => ?_
  rw [last?_eq_some_iff hnames, last?_eq_some_iff hlater]
  simp only [h.mem_iff]

end Key

/-! ### Fields that count -/

section

variable {f g : String × Json} {fields later : List (String × Json)}

theorem accepts_iff : accepts f ↔ ∃ k : Key, k.at? f ≠ none := by
  have hall : ∀ k : Key, k ∈ Key.all := by
    intro k
    cases k <;> decide
  simp [accepts, hall, Option.isSome_iff_ne_none]

/-- A field that counts says something for every field of settings that has its name. -/
theorem at?_of_accepts {k : Key} (h : accepts g) (hname : g.1 = k.name) : k.at? g ≠ none := by
  obtain ⟨k', hk'⟩ := accepts_iff.mp h
  rwa [Key.name_inj (hname.symm.trans (Key.name_of_at? hk'))]

/-- **Fields laid over others** count before them. -/
theorem Key.last?_overlay (k : Key) (fields later : List (String × Json)) :
    k.last? (overlay fields later) = (k.last? later).or (k.last? fields) := by
  have hlater : k.last? (later.filter accepts) = k.last? later := by
    refine last?_filter fun g _ hg => ?_
    by_contra hne
    simp [accepts_iff.mpr ⟨k, hne⟩] at hg
  rw [overlay, last?_append, hlater]
  cases hlast : k.last? later with
  | some x => rfl
  | none =>
    -- Nothing is laid over the field, so that none of those which say something is taken away.
    rw [Option.none_or, Option.none_or]
    refine last?_filter fun f _ hf => ?_
    obtain ⟨g, hg, hname, hacc⟩ : ∃ g ∈ later, g.1 = f.1 ∧ accepts g := by
      simpa using hf
    by_contra hne
    exact at?_of_accepts hacc (hname.trans (name_of_at? hne)) (last?_eq_none_iff.mp hlast g hg)

/-- Laying fields over others makes no name occur twice. -/
theorem nodup_names_overlay (hfields : (fields.map Prod.fst).Nodup)
    (hlater : (later.map Prod.fst).Nodup) : ((overlay fields later).map Prod.fst).Nodup := by
  rw [overlay, List.map_append, List.nodup_append]
  refine ⟨hfields.sublist (List.filter_sublist.map _),
    hlater.sublist (List.filter_sublist.map _), ?_⟩
  rintro _ hname _ hname' rfl
  obtain ⟨f, hf, rfl⟩ := List.mem_map.mp hname
  obtain ⟨g, hg, hgf⟩ := List.mem_map.mp hname'
  obtain ⟨hg, hacc⟩ := List.mem_filter.mp hg
  have hfree := (List.mem_filter.mp hf).2
  simp only [Bool.not_eq_true', List.any_eq_false, Bool.and_eq_true, decide_eq_true_eq] at hfree
  exact hfree g hg ⟨hgf, hacc⟩

end

/-! ### Merging -/

variable {s : Settings} {fields later : List (String × Json)}

theorem merge_merge (s : Settings) (fields later : List (String × Json)) :
    (s.merge (.obj fields)).merge (.obj later) = s.merge (.obj (overlay fields later)) := by
  refine ext_get fun k => ?_
  rw [k.get_merge, k.get_merge, k.get_merge, k.last?_overlay]
  cases k.last? later <;> rfl

theorem merge_self (s : Settings) (v : Json) : (s.merge v).merge v = s.merge v := by
  cases v with
  | obj fields =>
    refine ext_get fun k => ?_
    rw [k.get_merge, k.get_merge]
    cases k.last? fields <;> rfl
  | _ => rfl

theorem merge_comm (h : ∀ f ∈ fields, ∀ g ∈ later, accepts f → accepts g → f.1 ≠ g.1)
    (s : Settings) :
    (s.merge (.obj fields)).merge (.obj later) = (s.merge (.obj later)).merge (.obj fields) := by
  refine ext_get fun k => ?_
  -- At most one of the two objects says anything for the field.
  have hnone : k.last? fields = none ∨ k.last? later = none := by
    by_contra hboth
    simp only [not_or, Key.last?_eq_none_iff, not_forall] at hboth
    obtain ⟨⟨f, hf, hkf⟩, g, hg, hkg⟩ := hboth
    exact h f hf g hg (accepts_iff.mpr ⟨k, hkf⟩) (accepts_iff.mpr ⟨k, hkg⟩)
      ((Key.name_of_at? hkf).trans (Key.name_of_at? hkg).symm)
  rw [k.get_merge, k.get_merge, k.get_merge, k.get_merge]
  rcases hnone with hnone | hnone <;> rw [hnone] <;> rfl

theorem merge_perm (hnames : (fields.map Prod.fst).Nodup) (h : fields.Perm later) (s : Settings) :
    s.merge (.obj fields) = s.merge (.obj later) := by
  refine ext_get fun k => ?_
  rw [k.get_merge, k.get_merge, Key.last?_perm hnames h]

/-- A width in the range is read as it is written. -/
theorem TabInRange.read?_tabSize (h : s.TabInRange) :
    Key.read? (.int s.tabSize) .tabSize = some s.tabSize := by
  obtain ⟨hmin, hmax⟩ := h
  have hfits : Int64.minValue.toInt ≤ s.tabSize ∧ (s.tabSize : Int) ≤ Int64.maxValue.toInt := by
    have hlow : Int64.minValue.toInt ≤ 0 := by decide
    have hhigh : (maxTabSize : Int) ≤ Int64.maxValue.toInt := by decide
    omega
  have hclamp : clampTabSize s.tabSize = s.tabSize := by
    rw [clampTabSize, Int.toNat_natCast, Nat.min_eq_left hmax, Nat.max_eq_right hmin]
  rw [Key.read?, signed?, if_pos hfits, Option.map_some, hclamp]

/-- **Encoded settings** are an object that says for every field what it holds. -/
theorem exists_fields_encode (h : s.TabInRange) :
    ∃ fields, Wire.encode s = .obj fields ∧ ∀ k : Key, k.last? fields = some (k.get s) := by
  refine ⟨_, rfl, fun k => ?_⟩
  cases k with
  | tabSize => simp [Key.last?, Key.at?, Key.name, h.read?_tabSize, Key.get]
  | eol =>
    simp [Key.last?, Key.at?, Key.name, Key.read?, Wire.encode, Json.str?, Target.ofName?_name,
      Key.get]
  | _ => rfl

theorem merge_encode (h : s.TabInRange) (r : Settings) : r.merge (Wire.encode s) = s := by
  obtain ⟨fields, hfields, hlast⟩ := exists_fields_encode h
  refine ext_get fun k => ?_
  rw [hfields, k.get_merge, hlast, Option.getD_some]

/-- **Merging lays one object over another, field by field.** A field has the value of the last
field of the object that counts for it, and else the one it had. Two objects one after the other are
the one that has the second laid over the first, and what is no object changes nothing. Merging
again changes nothing, and objects with different fields that count can be merged in either order.
The order of the fields in an object does not matter if no name occurs twice, as none does in an
object that is read. A width in the range stays in the range, and settings with such a width are
what their encoding is read as, whatever it is merged into. -/
theorem merge_laws (s r : Settings) (fields later : List (String × Json)) (v : Json) :
    (∀ k : Key, k.get (s.merge (.obj fields)) = (k.last? fields).getD (k.get s)) ∧
    (s.merge (.obj fields)).merge (.obj later) = s.merge (.obj (overlay fields later)) ∧
    ((fields.map Prod.fst).Nodup → (later.map Prod.fst).Nodup →
      ((overlay fields later).map Prod.fst).Nodup) ∧
    ((∀ fields, v ≠ .obj fields) → s.merge v = s) ∧
    (s.merge v).merge v = s.merge v ∧
    ((∀ f ∈ fields, ∀ g ∈ later, accepts f → accepts g → f.1 ≠ g.1) →
      (s.merge (.obj fields)).merge (.obj later) = (s.merge (.obj later)).merge (.obj fields)) ∧
    ((fields.map Prod.fst).Nodup → fields.Perm later →
      s.merge (.obj fields) = s.merge (.obj later)) ∧
    ((Json.keepLast fields).map Prod.fst).Nodup ∧
    (s.TabInRange → (s.merge v).TabInRange) ∧
    (s.TabInRange → r.merge (Wire.encode s) = s ∧ ofJson (Wire.encode s) = s) := by
  refine ⟨fun k => k.get_merge s fields, merge_merge s fields later, nodup_names_overlay, ?_,
    merge_self s v, fun h => merge_comm h s, fun hnames h => merge_perm hnames h s,
    Json.nodup_names_keepLast fields, fun h => h.merge v,
    fun h => ⟨merge_encode h r, merge_encode h {}⟩⟩
  intro hv
  cases v with
  | obj fields => exact absurd rfl (hv fields)
  | _ => rfl

/-- An ending that is none and a width that is a text count for nothing: two objects that have such
fields where the other has a valid one can be merged in either order. -/
theorem merge_laws_ill_typed :
    let fields : List (String × Json) :=
      [("tabSize", .int 40), ("eol", .str "cr"), ("insertSpaces", .bool false)]
    let later : List (String × Json) :=
      [("eol", .str "crlf"), ("tabSize", .str "8"), ("width", .null)]
    let s : Settings := { tabSize := 16, insertSpaces := false, eol := .fixed .crlf }
    (fields.map Prod.fst).Nodup ∧ (later.map Prod.fst).Nodup ∧ s.TabInRange ∧
    overlay fields later =
      [("tabSize", .int 40), ("insertSpaces", .bool false), ("eol", .str "crlf")] ∧
    merge {} (.obj (overlay fields later)) = s ∧
    ((overlay fields later).map Prod.fst).Nodup ∧
    (merge {} (.obj later)).merge (.obj fields) = s ∧
    merge {} (.obj (overlay fields later).reverse) = s ∧
    s.merge (.arr [.obj fields]) = s ∧ (s.merge (.obj fields)).TabInRange ∧
    merge { tabSize := 99 } (Wire.encode s) = s ∧ ofJson (Wire.encode s) = s := by
  intro fields later s
  have hfields : (fields.map Prod.fst).Nodup := by decide
  have hlater : (later.map Prod.fst).Nodup := by decide
  have htab : s.TabInRange := ⟨by decide, by decide⟩
  have hmerge : (merge {} (.obj fields)).merge (.obj later) = s := rfl
  have hdisjoint : ∀ f ∈ fields, ∀ g ∈ later, accepts f → accepts g → f.1 ≠ g.1 := by
    decide
  obtain ⟨-, hlaid, hnodup, -, -, hcomm, -⟩ := merge_laws {} {} fields later .null
  have hnames := hnodup hfields hlater
  have hlaid : merge {} (.obj (overlay fields later)) = s := hlaid.symm.trans hmerge
  obtain ⟨-, -, -, -, -, -, hperm, -⟩ :=
    merge_laws {} {} (overlay fields later) (overlay fields later).reverse .null
  obtain ⟨-, -, -, hother, -⟩ := merge_laws s {} [] [] (.arr [.obj fields])
  obtain ⟨-, -, -, -, -, -, -, -, hrange, hencode⟩ :=
    merge_laws s { tabSize := 99 } [] [] (.obj fields)
  exact ⟨hfields, hlater, htab, rfl, hlaid, hnames, (hcomm hdisjoint).symm.trans hmerge,
    (hperm hnames (List.reverse_perm _).symm).symm.trans hlaid, hother (by simp), hrange htab,
    hencode htab⟩

end Settings

end Newline
