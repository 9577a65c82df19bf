/-
Edits read from JSON: all of an array, or those that can be read.

An edit can be read exactly if integers stand at four places in its object. An array is refused for
its first entry that cannot be read; if there is none, reading all of it and reading what can be
read give the same edits.

* `Editor.Coord` — the four places;
* `Editor.Edit.ofJson?_eq_some_iff`, `Editor.Edit.ofJson?_eq_none_iff` — what an edit is read as;
* `Editor.Edit.allFrom_eq`, `Editor.Edit.isLeast_findIdx` — all edits of an array, or the first
  entry that cannot be read;
* `Editor.Edit.map_some_listOfJson`, `Editor.Edit.listOfJson_between` — the edits that can be read,
  and that the other entries can be left out;
* `Editor.Edit.ofJson?_reordered`, `Editor.Edit.decode_reordered` — the order of fields does not
  matter;
* `Editor.Edit.ofJson?_encode`, `Editor.Edit.fits_encodeList` — encoded edits can be read, and their
  text too;
* `Editor.Edit.decodings_agree` — both ways of reading, and reading what has been encoded.
-/
import Mathlib.Order.Bounds.Basic
import Newline.Proofs.FieldOrder
import Newline.Proofs.RangeOrder
import Newline.Wire

namespace Newline

theorem Json.int?_eq_some_iff {v : Json} {n : Int} : v.int? = some n ↔ v = .int n := by
  cases v <;> simp [int?]

namespace Editor

theorem toNat_coordOfInt (n : Int) :
    ((coordOfInt n).toNat : Int) = max 0 (min n 0xFFFFFFFF) := by
  rw [coordOfInt, toNat_coordOfNat_eq]
  simp only [UInt32.size]
  omega

theorem coordOfInt_eq_iff {n : Int} {x : UInt32} :
    coordOfInt n = x ↔ (x.toNat : Int) = max 0 (min n 0xFFFFFFFF) := by
  rw [← UInt32.toNat_inj, ← toNat_coordOfInt, Int.ofNat_inj, eq_comm]

theorem coordOfInt_toNat (x : UInt32) : coordOfInt x.toNat = x := by
  have := x.toNat_lt
  exact coordOfInt_eq_iff.mpr (by omega)

theorem Position.ofJson?_eq_some_iff {v : Json} {p : Position} :
    ofJson? v = some p ↔
      (∃ n, v.at? ["line"] = some (.int n) ∧ coordOfInt n = p.line) ∧
      ∃ n, v.at? ["character"] = some (.int n) ∧ coordOfInt n = p.character := by
  obtain ⟨line, character⟩ := p
  simp only [ofJson?, Option.pure_def, Option.bind_eq_bind, Option.bind_eq_some_iff,
    Json.int?_eq_some_iff, Option.some.injEq, mk.injEq, Json.at?, exists_eq_right]
  constructor
  · rintro ⟨_, hm, m, rfl, _, hn, n, rfl, rfl, rfl⟩
    exact ⟨⟨m, hm, rfl⟩, n, hn, rfl⟩
  · rintro ⟨⟨m, hm, rfl⟩, n, hn, rfl⟩
    exact ⟨_, hm, m, rfl, _, hn, n, rfl, rfl, rfl⟩

theorem Range.ofJson?_eq_some_iff {v : Json} {r : Range} :
    ofJson? v = some r ↔
      (v.at? ["start"]).bind Position.ofJson? = some r.start ∧
      (v.at? ["end"]).bind Position.ofJson? = some r.stop := by
  obtain ⟨start, stop⟩ := r
  simp only [ofJson?, Option.pure_def, Option.bind_eq_bind, Option.bind_eq_some_iff,
    Option.some.injEq, mk.injEq, Json.at?, exists_eq_right]
  constructor
  · rintro ⟨a, ha, _, hstart, b, hb, _, hstop, rfl, rfl⟩
    exact ⟨⟨a, ha, hstart⟩, b, hb, hstop⟩
  · rintro ⟨⟨a, ha, hstart⟩, b, hb, hstop⟩
    exact ⟨a, ha, _, hstart, b, hb, _, hstop, rfl, rfl⟩

section

variable {v : Json} {path : List String}

theorem Position.bind_ofJson?_eq_some_iff {p : Position} :
    (v.at? path).bind ofJson? = some p ↔
      (∃ n, v.at? (path ++ ["line"]) = some (.int n) ∧ coordOfInt n = p.line) ∧
      ∃ n, v.at? (path ++ ["character"]) = some (.int n) ∧ coordOfInt n = p.character := by
  rw [Json.at?_append, Json.at?_append]
  cases v.at? path with
  | none => simp
  | some w => exact ofJson?_eq_some_iff

theorem Range.bind_ofJson?_eq_some_iff {r : Range} :
    (v.at? path).bind ofJson? = some r ↔
      (v.at? (path ++ ["start"])).bind Position.ofJson? = some r.start ∧
      (v.at? (path ++ ["end"])).bind Position.ofJson? = some r.stop := by
  rw [Json.at?_append, Json.at?_append]
  cases v.at? path with
  | none => simp
  | some w => exact ofJson?_eq_some_iff

end

/-- The coordinates of an edit. -/
inductive Coord
  | startLine
  | startCharacter
  | stopLine
  | stopCharacter
  deriving DecidableEq, Repr

namespace Coord

/-- Where the coordinate stands in the JSON object of an edit. -/
def path : Coord → List String
  | startLine => ["range", "start", "line"]
  | startCharacter => ["range", "start", "character"]
  | stopLine => ["range", "end", "line"]
  | stopCharacter => ["range", "end", "character"]

/-- The coordinate of a given edit. -/
def get (e : Edit) : Coord → UInt32
  | startLine => e.range.start.line
  | startCharacter => e.range.start.character
  | stopLine => e.range.stop.line
  | stopCharacter => e.range.stop.character

theorem forall_iff {p : Coord → Prop} :
    (∀ c, p c) ↔ (p startLine ∧ p startCharacter) ∧ p stopLine ∧ p stopCharacter := by
  constructor
  · intro h
    exact ⟨⟨h _, h _⟩, h _, h _⟩
  · rintro ⟨⟨h₁, h₂⟩, h₃, h₄⟩ c
    cases c <;> assumption

end Coord

namespace Edit

/-- The text that an object gives for an edit, empty if it gives none. -/
def textIn (v : Json) : Text :=
  match v.get? "newText" with
  | some (.str s) => s.toList
  | _ => []

theorem textIn_eq (v : Json) : (((v.get? "newText").bind Json.str?).getD "").toList = textIn v := by
  rw [textIn]
  cases v.get? "newText" with
  | none => rfl
  | some w => cases w <;> rfl

theorem ofJson?_eq_some_iff_range {v : Json} {e : Edit} :
    ofJson? v = some e ↔
      (v.at? ["range"]).bind Range.ofJson? = some e.range ∧ e.newText = textIn v := by
  obtain ⟨range, newText⟩ := e
  simp only [ofJson?, textIn_eq, Option.pure_def, Option.bind_eq_bind, Option.bind_eq_some_iff,
    Option.some.injEq, mk.injEq, Json.at?, exists_eq_right]
  constructor
  · rintro ⟨r, hr, _, hrange, rfl, rfl⟩
    exact ⟨⟨r, hr, hrange⟩, rfl⟩
  · rintro ⟨⟨r, hr, hrange⟩, rfl⟩
    exact ⟨r, hr, _, hrange, rfl, rfl⟩

/-- **What an edit is read as**: the words nearest the integers at the four places. -/
theorem ofJson?_eq_some_iff {v : Json} {e : Edit} :
    ofJson? v = some e ↔
      (∀ c : Coord, ∃ n, v.at? c.path = some (.int n) ∧ coordOfInt n = c.get e) ∧
      e.newText = textIn v := by
  rw [ofJson?_eq_some_iff_range, Range.bind_ofJson?_eq_some_iff,
    Position.bind_ofJson?_eq_some_iff, Position.bind_ofJson?_eq_some_iff, Coord.forall_iff]
  rfl

/-- An edit cannot be read exactly if there is no integer at one of the four places. -/
theorem ofJson?_eq_none_iff {v : Json} :
    ofJson? v = none ↔ ∃ c : Coord, ∀ n, v.at? c.path ≠ some (.int n) := by
  rw [← not_iff_not, ← ne_eq, Option.ne_none_iff_exists']
  simp only [not_exists, not_forall, not_not]
  constructor
  · rintro ⟨e, he⟩ c
    obtain ⟨n, hn, -⟩ := (ofJson?_eq_some_iff.mp he).1 c
    exact ⟨n, hn⟩
  · intro h
    choose n hn using h
    refine ⟨⟨⟨⟨coordOfInt (n .startLine), coordOfInt (n .startCharacter)⟩,
      ⟨coordOfInt (n .stopLine), coordOfInt (n .stopCharacter)⟩⟩, textIn v⟩,
      ofJson?_eq_some_iff.mpr ⟨fun c => ⟨n c, hn c, ?_⟩, rfl⟩⟩
    cases c <;> rfl

/-! ### Arrays -/

/-- Whether an entry can be read. -/
def readable (v : Json) : Bool := (ofJson? v).isSome

/-- Where the entries stand that cannot be read. -/
def unreadable (items : List Json) : Set Nat :=
  {i | ∃ v, items[i]? = some v ∧ ofJson? v = none}

variable {items kept : List Json}

theorem not_readable_iff {v : Json} : readable v = false ↔ ofJson? v = none := by
  rw [readable, Option.isSome_eq_false_iff, Option.isNone_iff_eq_none]

/-- **All edits of an array**, or the first entry that cannot be read. -/
theorem allFrom_eq (index : Nat) (items : List Json) :
    allFrom index items =
      if ∀ v ∈ items, readable v then .ok (items.filterMap ofJson?)
      else .error (.badEntry (index + items.findIdx fun v => !readable v)) := by
  induction items generalizing index with
  | nil => rfl
  | cons v vs ih =>
    cases hv : ofJson? v with
    | none =>
      have hread : readable v = false := not_readable_iff.mpr hv
      simp [allFrom, hv, hread, List.findIdx_cons]
    | some e =>
      have hread : readable v = true := by rw [readable, hv]; rfl
      simp only [allFrom, hv, ih, List.forall_mem_cons, hread, true_and, List.filterMap_cons,
        List.findIdx_cons, Bool.not_true, cond_false]
      split
      · rfl
      · simp [Except.map]
        omega

/-- The entry that an array is refused for is the first that cannot be read. -/
theorem isLeast_findIdx (h : ¬ ∀ v ∈ items, readable v) :
    IsLeast (unreadable items) (items.findIdx fun v => !readable v) := by
  have hlt : (items.findIdx fun v => !readable v) < items.length := by
    rw [List.findIdx_lt_length]
    simpa using h
  refine ⟨⟨_, List.getElem?_eq_getElem hlt, ?_⟩, ?_⟩
  · have := List.findIdx_getElem (w := hlt)
    simpa [not_readable_iff] using this
  · rintro i ⟨v, hv, hnone⟩
    by_contra hlt
    obtain ⟨hi, rfl⟩ := List.getElem?_eq_some_iff.mp hv
    have := List.not_of_lt_findIdx (not_le.mp hlt)
    simp [not_readable_iff.mpr hnone] at this

/-- **The edits of an array** are what its entries that can be read are read as, in their order. -/
theorem map_some_listOfJson (items : List Json) :
    (listOfJson (.arr items)).map some = (items.filter readable).map ofJson? := by
  show (items.filterMap ofJson?).map some = _
  induction items with
  | nil => rfl
  | cons v vs ih =>
    cases hv : ofJson? v with
    | none => simp [readable, hv, ih]
    | some e => simp [readable, hv, ih]

/-- Entries that cannot be read can be left out, some or all of them. -/
theorem listOfJson_between (hkept : kept.Sublist items)
    (hread : (items.filter readable).Sublist kept) :
    listOfJson (.arr kept) = listOfJson (.arr items) := by
  have hfilter : kept.filter readable = items.filter readable := by
    refine (hkept.filter readable).antisymm ?_
    simpa using hread.filter readable
  refine List.map_injective_iff.mpr (Option.some_injective _) ?_
  rw [map_some_listOfJson, map_some_listOfJson, hfilter]

theorem allOfJson_eq_ok_iff {v : Json} {es : List Edit} :
    allOfJson v = .ok es ↔
      (∃ items, v = .arr items ∧ ∀ item ∈ items, readable item) ∧ es = listOfJson v := by
  cases v with
  | arr items =>
    have harr : (∃ vs, Json.arr items = .arr vs ∧ ∀ item ∈ vs, readable item) ↔
        ∀ item ∈ items, readable item := by simp
    show allFrom 0 items = .ok es ↔ _
    rw [allFrom_eq, harr]
    by_cases h : ∀ item ∈ items, readable item = true
    · rw [if_pos h, Except.ok.injEq, and_iff_right h]
      exact eq_comm
    · rw [if_neg h]
      constructor
      · intro hok
        cases hok
      · rintro ⟨hall, -⟩
        exact absurd hall h
  | _ => simp [allOfJson, Json.items?]

theorem exists_allOfJson_eq_error (h : ∃ item ∈ items, readable item = false) :
    ∃ i, IsLeast (unreadable items) i ∧ allOfJson (.arr items) = .error (.badEntry i) := by
  have hnot : ¬ ∀ item ∈ items, readable item := by simpa using h
  refine ⟨_, isLeast_findIdx hnot, ?_⟩
  show allFrom 0 items = _
  rw [allFrom_eq, if_neg hnot, Nat.zero_add]

theorem allOfJson_of_ne_arr {v : Json} (h : ∀ items, v ≠ .arr items) :
    listOfJson v = [] ∧ allOfJson v = .error .notAnArray := by
  cases v with
  | arr items => exact absurd rfl (h items)
  | _ => exact ⟨rfl, rfl⟩

/-! ### The order of fields -/

section Reordered

variable {v w : Json}

/-- **An edit is read as the same** whatever the order of its fields. -/
theorem ofJson?_reordered (h : Json.Reordered v w) : ofJson? w = ofJson? v := by
  have hint : ∀ path n, w.at? path = some (.int n) ↔ v.at? path = some (.int n) := by
    intro path n
    have hread := h.bind_at? Json.int? (fun _ => rfl) (fun _ => rfl) path
    simpa [Option.bind_eq_some_iff, Json.int?_eq_some_iff] using
      (congrArg (· = some n) hread.symm).to_iff
  have htext : textIn w = textIn v := by
    have hread := h.bind_at? Json.str? (fun _ => rfl) (fun _ => rfl) ["newText"]
    simp only [Json.at?, Option.bind_fun_some] at hread
    rw [← textIn_eq, ← textIn_eq, hread]
  refine Option.ext fun e => ?_
  simp only [ofJson?_eq_some_iff, hint, htext]

theorem allFrom_append_cons (h : ofJson? w = ofJson? v) (index : Nat) (before after : List Json) :
    allFrom index (before ++ w :: after) = allFrom index (before ++ v :: after) := by
  induction before generalizing index with
  | nil => simp only [List.nil_append, allFrom, h]
  | cons u us ih => simp only [List.cons_append, allFrom, ih]

theorem decode_reordered (h : Json.Reordered v w) :
    listOfJson w = listOfJson v ∧ allOfJson w = allOfJson v := by
  induction h with
  | refl => exact ⟨rfl, rfl⟩
  | trans _ _ ih ih' => exact ⟨ih'.1.trans ih.1, ih'.2.trans ih.2⟩
  | @item v w before after h _ =>
    have hitem := ofJson?_reordered h
    refine ⟨?_, allFrom_append_cons hitem 0 before after⟩
    show (before ++ w :: after).filterMap ofJson? = (before ++ v :: after).filterMap ofJson?
    simp only [List.filterMap_append, List.filterMap_cons, hitem]
  | field => exact ⟨rfl, rfl⟩
  | fields => exact ⟨rfl, rfl⟩

end Reordered

/-! ### Encoded edits -/

/-- **An encoded edit is read as itself.** -/
theorem ofJson?_encode (e : Edit) : ofJson? (Wire.encode e) = some e := by
  refine ofJson?_eq_some_iff.mpr ⟨fun c => ⟨(c.get e).toNat, ?_, coordOfInt_toNat _⟩, ?_⟩
  · cases c <;> rfl
  · exact String.toList_ofList.symm

theorem listOfJson_encodeList (es : List Edit) : listOfJson (Wire.encodeList es) = es := by
  show (es.map Wire.encode).filterMap ofJson? = es
  rw [List.filterMap_map]
  simp [ofJson?_encode]

theorem allOfJson_encodeList (es : List Edit) : allOfJson (Wire.encodeList es) = .ok es := by
  have hread : ∀ v ∈ es.map Wire.encode, readable v = true := by
    intro v hv
    obtain ⟨e, -, rfl⟩ := List.mem_map.mp hv
    rw [readable, ofJson?_encode]
    rfl
  show allFrom 0 (es.map Wire.encode) = _
  rw [allFrom_eq, if_pos hread]
  exact congrArg _ (listOfJson_encodeList es)

theorem fits_coord (depth : Nat) (x : UInt32) : Json.Fits depth (.int x.toNat) := by
  have hsize : x.toNat < UInt64.size := x.toNat_lt.trans (by decide)
  exact .int _ (by omega) (by omega)

theorem fits_encode_position (depth : Nat) (p : Position) :
    Json.Fits (depth + 1) (Wire.encode p) :=
  .pair (by decide) (fits_coord depth p.line) (fits_coord depth p.character)

/-- Encoded edits are objects in objects in objects in an array. -/
theorem fits_encodeList (depth : Nat) (es : List Edit) :
    Json.Fits (depth + 4) (Wire.encodeList es) := by
  refine .arr fun v hv => ?_
  obtain ⟨e, -, rfl⟩ := List.mem_map.mp hv
  exact .pair (by decide) (.pair (by decide) (fits_encode_position depth _)
    (fits_encode_position depth _)) (.str _)

/-- Encoded edits are read from every text of their encoding, with its fields in any order. -/
theorem parse_reordered {w : Json} {u : Text} {es : List Edit}
    (h : Json.Reordered (Wire.encodeList es) w) (hu : Json.parse? u = some w) :
    parse u = .ok es := by
  rw [parse, hu]
  exact (decode_reordered h).2.trans (allOfJson_encodeList es)

theorem parse?_of_scan? {w : Json} {u : Text} {es : List Edit}
    (h : Json.Reordered (Wire.encodeList es) w)
    (hu : Json.Token.scan? u = Json.Token.scan? w.pretty.toList) : Json.parse? u = some w := by
  rw [Json.parse?, Json.Tree.parse?, hu]
  -- Four of the 127 levels are needed.
  exact Json.parse?_pretty (h.fits (fits_encodeList 123 es))

/-- **The two ways of reading edits agree, and both undo the encoding.** Let `v` be the value of a
text. All of it can be read exactly if `v` is an array of entries that can be read, and then what
is found is what the other way finds. An array with other entries is refused for the first of them.
What is no array is refused as such, and nothing is found in it. What is found in an array are the
entries that can be read, in their order, and any of the others can be taken out before.

An entry can be read exactly if there is an integer at the place of each coordinate, and the
coordinate is that integer or the end of the range of 32-bit words that is nearest to it. The order
of fields does not matter. Encoded edits are found again, and all of them are read from every text
of their encoding: from the printed one, and from any other with the same tokens. So they are if
the fields of the encoding are put in another order before it is printed. -/
theorem decodings_agree (t : Text) (v : Json) (ht : Json.parse? t = some v) (es : List Edit) :
    ((∃ found, parse t = .ok found) ↔ ∃ items, v = .arr items ∧ ∀ item ∈ items, readable item) ∧
    (∀ found, parse t = .ok found → found = listOfJson v) ∧
    (∀ items, v = .arr items → (∃ item ∈ items, readable item = false) →
      ∃ i, IsLeast (unreadable items) i ∧ parse t = .error (.badEntry i) ∧
        (Error.badEntry i).message = s!"malformed TextEdit: entry {i} lacks a valid range") ∧
    ((∀ items, v ≠ .arr items) → listOfJson v = [] ∧ parse t = .error .notAnArray ∧
      Error.notAnArray.message = "malformed TextEdit[]: expected an array") ∧
    (∀ items, v = .arr items → (listOfJson v).map some = (items.filter readable).map ofJson? ∧
      ∀ kept, kept.Sublist items → (items.filter readable).Sublist kept →
        listOfJson (.arr kept) = listOfJson v) ∧
    (∀ item e, ofJson? item = some e ↔
      (∀ c : Coord, ∃ n, item.at? c.path = some (.int n) ∧
        ((c.get e).toNat : Int) = max 0 (min n 0xFFFFFFFF)) ∧ e.newText = textIn item) ∧
    (∀ item, ofJson? item = none ↔ ∃ c : Coord, ∀ n, item.at? c.path ≠ some (.int n)) ∧
    listOfJson (Wire.encodeList es) = es ∧
    (∀ u, Json.parse? u = some (Wire.encodeList es) → parse u = .ok es) ∧
    (∀ u, Json.Token.scan? u = Json.Token.scan? (Wire.encodeList es).pretty.toList →
      parse u = .ok es) ∧
    (∀ w, Json.Reordered v w → listOfJson w = listOfJson v ∧
      ∀ u, Json.parse? u = some w → parse u = parse t) ∧
    ∀ w, Json.Reordered (Wire.encodeList es) w → listOfJson w = es ∧
      (∀ u, Json.parse? u = some w → parse u = .ok es) ∧
      ∀ u, Json.Token.scan? u = Json.Token.scan? w.pretty.toList → parse u = .ok es := by
  have hparse : parse t = allOfJson v := by rw [parse, ht]
  rw [hparse]
  refine ⟨?_, fun found h => (allOfJson_eq_ok_iff.mp h).2, ?_, ?_, ?_, ?_,
    fun item => ofJson?_eq_none_iff, listOfJson_encodeList es, fun u => parse_reordered (.refl _),
    fun u hu => parse_reordered (.refl _) (parse?_of_scan? (.refl _) hu), ?_, ?_⟩
  · exact ⟨fun ⟨found, h⟩ => (allOfJson_eq_ok_iff.mp h).1,
      fun h => ⟨_, allOfJson_eq_ok_iff.mpr ⟨h, rfl⟩⟩⟩
  · rintro items rfl hbad
    obtain ⟨i, hleast, herror⟩ := exists_allOfJson_eq_error hbad
    exact ⟨i, hleast, herror, rfl⟩
  · intro hv
    exact ⟨(allOfJson_of_ne_arr hv).1, (allOfJson_of_ne_arr hv).2, rfl⟩
  · rintro items rfl
    exact ⟨map_some_listOfJson items, fun kept => listOfJson_between⟩
  · intro item e
    simp only [ofJson?_eq_some_iff, coordOfInt_eq_iff]
  · intro w hw
    refine ⟨(decode_reordered hw).1, fun u hu => ?_⟩
    rw [parse, hu]
    exact (decode_reordered hw).2
  · intro w hw
    exact ⟨(decode_reordered hw).1.trans (listOfJson_encodeList es), fun u => parse_reordered hw,
      fun u hu => parse_reordered hw (parse?_of_scan? hw hu)⟩

/-- Numbers out of range are moved into it, and an entry without a range and one with a text for a
line are left out: an array with both is refused for the first of them. Edits are read back from
their encoding, also if the names in it are sorted. -/
theorem decodings_agree_mixed :
    let place (line character : Json) : Json := .obj [("line", line), ("character", character)]
    let edit (start : Json) : Json :=
      .obj [("range", .obj [("start", start), ("end", place (.int 0) (.int 2))]),
        ("newText", .str "x\n")]
    let wide := edit (place (.int (-1)) (.int 5000000000))
    let spelled := edit (place (.str "1") (.int 0))
    let bare : Json := .obj [("newText", .str "no range")]
    let v : Json := .arr [wide, bare, spelled, wide]
    let e : Edit := ⟨⟨⟨0, 4294967295⟩, ⟨0, 2⟩⟩, ['x', '\n']⟩
    let sortedPlace (p : Position) : Json :=
      .obj [("character", .int p.character.toNat), ("line", .int p.line.toNat)]
    let sorted : Json := .obj [("newText", .str (String.ofList e.newText)),
      ("range", .obj [("end", sortedPlace e.range.stop), ("start", sortedPlace e.range.start)])]
    Json.parse? v.pretty.toList = some v ∧ parse v.pretty.toList = .error (.badEntry 1) ∧
    listOfJson v = [e, e] ∧ listOfJson (.arr [wide, spelled, wide]) = [e, e] ∧
    ofJson? spelled = none ∧ listOfJson (Wire.encodeList [e, e]) = [e, e] ∧
    parse (Wire.encodeList [e, e]).pretty.toList = .ok [e, e] ∧
    Json.Reordered (Wire.encodeList [e, e]) (.arr [sorted, sorted]) ∧
    parse (Json.arr [sorted, sorted]).pretty.toList = .ok [e, e] := by
  intro place edit wide spelled bare v e sortedPlace sorted
  have hplace : ∀ {line : Json} {character : Json}, Json.Fits 123 line → Json.Fits 123 character →
      Json.Fits 124 (place line character) := .pair (by decide)
  have hedit : ∀ {start : Json}, Json.Fits 124 start → Json.Fits 126 (edit start) := by
    intro start hstart
    have hstop := hplace (.int 0 (by decide) (by decide)) (.int 2 (by decide) (by decide))
    exact .pair (by decide) (.pair (by decide) hstart hstop) (.str _)
  have hwide : Json.Fits 126 wide :=
    hedit (hplace (.int _ (by decide) (by decide)) (.int _ (by decide) (by decide)))
  have hspelled : Json.Fits 126 spelled :=
    hedit (hplace (.str _) (.int _ (by decide) (by decide)))
  have hbare : Json.Fits 126 bare := .obj (by decide) (by simp [Json.Fits.str])
  have ht : Json.parse? v.pretty.toList = some v :=
    Json.parse?_pretty (.arr (by simp [hwide, hspelled, hbare]))
  obtain ⟨-, -, hbad, -, hlist, hsome, hnone, hcode, -, hprint, -, hany⟩ :=
    decodings_agree v.pretty.toList v ht [e, e]
  have hread : ofJson? wide = some e := by
    refine (hsome wide e).mpr ⟨fun c => ?_, rfl⟩
    cases c with
    | startLine => exact ⟨-1, rfl, by decide⟩
    | startCharacter => exact ⟨5000000000, rfl, by decide⟩
    | stopLine => exact ⟨0, rfl, by decide⟩
    | stopCharacter => exact ⟨2, rfl, by decide⟩
  have hline : ofJson? spelled = none := (hnone spelled).mpr ⟨.startLine, fun n h => by cases h⟩
  have hrange : ofJson? bare = none := (hnone bare).mpr ⟨.startLine, fun n h => by cases h⟩
  have hleast : IsLeast (unreadable [wide, bare, spelled, wide]) 1 := by
    refine ⟨⟨bare, rfl, hrange⟩, fun i => ?_⟩
    rintro ⟨w, hw, hnone⟩
    by_contra hlt
    obtain rfl : i = 0 := by omega
    obtain rfl : wide = w := Option.some.inj hw
    rw [hread] at hnone
    cases hnone
  obtain ⟨i, hi, herror, -⟩ := hbad _ rfl ⟨bare, by simp, not_readable_iff.mpr hrange⟩
  obtain rfl : i = 1 := hi.unique hleast
  have hfound : listOfJson v = [e, e] := by
    show [wide, bare, spelled, wide].filterMap ofJson? = [e, e]
    simp [hread, hline, hrange]
  have hkept := (hlist _ rfl).2 [wide, spelled, wide] (.cons_cons _ (.cons _ (.refl _)))
    (by simp [readable, hread, hline, hrange])
  have hsorted : Json.Reordered (Wire.encode e) sorted :=
    .pair (by decide) (.pair (by decide) (.pair (by decide) (.refl _) (.refl _))
      (.pair (by decide) (.refl _) (.refl _))) (.refl _)
  have harr : Json.Reordered (Wire.encodeList [e, e]) (.arr [sorted, sorted]) :=
    (Json.Reordered.item [] [_] hsorted).trans (.item [_] [] hsorted)
  exact ⟨ht, herror, hfound, hkept.trans hfound, hline, hcode, hprint _ rfl, harr,
    (hany _ harr).2.2 _ rfl⟩

end Edit

end Editor

end Newline
