/-
The order of the fields of JSON objects.

What is read from an object is looked up by name, so the order in which its fields are written does
not matter, in the object itself and in all objects inside it.

* `Json.at?` — the value at the end of a path of names;
* `Json.Reordered` — values that differ only in the order of fields;
* `Json.Reordered.bind_at?` — what is read at the end of a path stays the same;
* `Json.Reordered.fits` — a value that can be printed can still be.
-/
import Newline.Proofs.Printing

namespace Newline.Json

/-- The value at the end of a path of names. -/
def at? : List String → Json → Option Json
  | [], v => some v
  | name :: path, v => (v.get? name).bind (at? path)

theorem at?_append (path rest : List String) (v : Json) :
    v.at? (path ++ rest) = (v.at? path).bind (at? rest) := by
  induction path generalizing v with
  | nil => rfl
  | cons name path ih =>
    rw [List.cons_append, at?, at?]
    cases v.get? name with
    | none => rfl
    | some w => exact ih w

/-- The same value with the fields of its objects in another order, at any depth. An object whose
fields change places has no name twice. -/
inductive Reordered : Json → Json → Prop
  | refl (v : Json) : Reordered v v
  | trans {u v w : Json} (huv : Reordered u v) (hvw : Reordered v w) : Reordered u w
  | item {v w : Json} (before after : List Json) (h : Reordered v w) :
    Reordered (.arr (before ++ v :: after)) (.arr (before ++ w :: after))
  | field {v w : Json} (before after : List (String × Json)) (name : String) (h : Reordered v w) :
    Reordered (.obj (before ++ (name, v) :: after)) (.obj (before ++ (name, w) :: after))
  | fields {before after : List (String × Json)} (hnames : (before.map Prod.fst).Nodup)
    (hperm : before.Perm after) : Reordered (.obj before) (.obj after)

theorem lookup_eq_of_perm {fs gs : List (String × Json)} (hnames : (fs.map Prod.fst).Nodup)
    (hperm : fs.Perm gs) (name : String) : fs.lookup name = gs.lookup name := by
  induction hperm with
  | nil => rfl
  | cons f _ ih =>
    rw [List.map_cons, List.nodup_cons] at hnames
    rw [List.lookup_cons, List.lookup_cons, ih hnames.2]
  | swap f g fs =>
    obtain ⟨m, u⟩ := f
    obtain ⟨n, v⟩ := g
    have hne : n ≠ m := by
      rintro rfl
      simp at hnames
    by_cases hm : name = m
    · have hn : (name == n) = false := beq_eq_false_iff_ne.mpr (hm ▸ hne.symm)
      simp [List.lookup_cons, hn]
    · have hm : (name == m) = false := beq_eq_false_iff_ne.mpr hm
      simp [List.lookup_cons, hm]
  | trans hfirst _ ih ih' =>
    rw [ih hnames, ih' ((hfirst.map Prod.fst).nodup_iff.mp hnames)]

namespace Reordered

variable {v w : Json}

/-- Two fields in the other order. -/
theorem pair {a b : String} {v' w' : Json} (hne : a ≠ b) (hv : Reordered v v')
    (hw : Reordered w w') : Reordered (.obj [(a, v), (b, w)]) (.obj [(b, w'), (a, v')]) :=
  (field [] [(b, w)] a hv).trans
    ((field [(a, v')] [] b hw).trans (fields (by simpa using hne) (.swap _ _ _)))

/-- **What is read at the end of a path stays the same**, unless it is itself an array or an object
that is read. -/
theorem bind_at? (h : Reordered v w) {α : Type} (read : Json → Option α)
    (harr : ∀ items, read (.arr items) = none) (hobj : ∀ fields, read (.obj fields) = none)
    (path : List String) :
    (v.at? path).bind read = (w.at? path).bind read := by
  induction h generalizing path with
  | refl => rfl
  | trans _ _ ih ih' => rw [ih, ih']
  | item before after _ _ =>
    cases path with
    | nil => simp [at?, harr]
    | cons name path => rfl
  | @field v w before after name _ ih =>
    cases path with
    | nil => simp [at?, hobj]
    | cons name' path =>
      simp only [at?, get?, List.lookup_append, List.lookup_cons]
      cases before.lookup name' with
      | some u => rfl
      | none =>
        by_cases hname : name' = name
        · simpa [hname] using ih path
        · have hne : (name' == name) = false := beq_eq_false_iff_ne.mpr hname
          simp [hne]
  | fields hnames hperm =>
    cases path with
    | nil => simp [at?, hobj]
    | cons name path => simp only [at?, get?, lookup_eq_of_perm hnames hperm]

theorem fits {depth : Nat} (h : Reordered v w) (hv : Fits depth v) : Fits depth w := by
  induction h generalizing depth with
  | refl => exact hv
  | trans _ _ ih ih' => exact ih' (ih hv)
  | item before after _ ih =>
    cases hv with
    | arr hitems =>
      refine .arr fun u hu => ?_
      simp only [List.mem_append, List.mem_cons] at hu hitems
      rcases hu with hu | rfl | hu
      · exact hitems u (.inl hu)
      · exact ih (hitems _ (.inr (.inl rfl)))
      · exact hitems u (.inr (.inr hu))
  | field before after name _ ih =>
    cases hv with
    | obj hnames hfields =>
      refine .obj (by simpa using hnames) fun f hf => ?_
      simp only [List.mem_append, List.mem_cons] at hf hfields
      rcases hf with hf | rfl | hf
      · exact hfields f (.inl hf)
      · exact ih (hfields (name, _) (.inr (.inl rfl)))
      · exact hfields f (.inr (.inr hf))
  | fields _ hperm =>
    cases hv with
    | obj hnames hfields =>
      exact .obj ((hperm.map Prod.fst).nodup_iff.mp hnames)
        fun f hf => hfields f (hperm.mem_iff.mpr hf)

end Reordered

end Newline.Json
