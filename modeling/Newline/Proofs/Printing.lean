/-
Printed JSON is read as what has been printed.

A value is printed as a text, the text has tokens, the tokens make a tree, and the tree denotes the
value. Only a number can be read differently where it stands, since what follows may go on with it;
in a printed document nothing that follows does.

* `Number.read?_toString`, `Piece.exists_pieces` — integers and strings are read as printed;
* `Tree.tokens`, `Tree.ofTokens?_tokens` — a tree, and the machine that builds it from its tokens;
* `Fits` — values with integers only, of 64 bits, with no name twice in an object, and nested no
  deeper than a bound;
* `exists_tree` — the tree of a printed value;
* `parse?_pretty` — such a value is what its text is read as.
-/
import Mathlib.Data.List.Basic
import Newline.Json.Printer

namespace Newline.Json

/-! ### Numbers -/

namespace Number

/-- The literal of an integer. -/
def ofInt (n : Int) : Number := ⟨n < 0, Nat.toDigits 10 n.natAbs, [], none⟩

/-- A text that does not go on with a number literal before it. -/
def Stops (t : Text) : Prop := ∀ c ∈ t.head?, c.isDigit = false ∧ c ≠ '.' ∧ c ≠ 'e' ∧ c ≠ 'E'

variable {rest : Text}

theorem ofDigits_eq (n : Nat) (ds : List Char) : ofDigits n ds = Nat.ofDigitChars 10 ds n := by
  induction ds generalizing n with
  | nil => exact Nat.ofDigitChars_nil.symm
  | cons d ds ih =>
    show ofDigits (10 * n + (d.toNat - '0'.toNat)) ds = _
    rw [ih, Nat.ofDigitChars_cons]

theorem head?_toDigits_ne {n : Nat} (h : 0 < n) : (Nat.toDigits 10 n).head? ≠ some '0' := by
  induction n using Nat.strongRecOn with
  | ind n ih =>
    by_cases hn : n < 10
    · rw [Nat.toDigits_of_lt_base hn, List.head?_cons, ne_eq, Option.some.injEq,
        Nat.digitChar_eq_zero]
      omega
    · rw [Nat.toDigits_of_base_le (by omega) (by omega),
        List.head?_append_of_ne_nil _ Nat.toDigits_ne_nil]
      exact ih (n / 10) (by omega) (by omega)

theorem isDigit_of_mem {n : Nat} {d : Char} (h : d ∈ Nat.toDigits 10 n) : d.isDigit = true :=
  Nat.isDigit_of_mem_toDigits (by omega) (by omega) h

theorem toList_toString (n : Int) :
    (toString n).toList = (if n < 0 then ['-'] else []) ++ Nat.toDigits 10 n.natAbs := by
  rw [Int.toString_eq_repr, Int.repr_eq_if]
  by_cases hn : n < 0
  · rw [if_neg (by omega), if_pos hn, String.toList_append, Nat.toList_repr,
      show (-n).toNat = n.natAbs by omega]
    rfl
  · rw [if_pos (by omega), if_neg hn, Nat.toList_repr, show n.toNat = n.natAbs by omega]
    rfl

/-- An integer begins with a minus sign or a digit. -/
theorem exists_toList_toString (n : Int) :
    ∃ c cs, (toString n).toList = c :: cs ∧ (c = '-' ∨ c.isDigit = true) := by
  obtain ⟨d, ds, hds⟩ := List.exists_cons_of_ne_nil (Nat.toDigits_ne_nil (b := 10) (n := n.natAbs))
  rw [toList_toString]
  by_cases hn : n < 0
  · exact ⟨'-', _, by rw [if_pos hn]; rfl, Or.inl rfl⟩
  · exact ⟨d, ds, by rw [if_neg hn, hds]; rfl, Or.inr (isDigit_of_mem (hds ▸ List.mem_cons_self))⟩

theorem readDigits?_append {ds : List Char} (hne : ds ≠ []) (hds : ∀ d ∈ ds, d.isDigit = true)
    (hrest : Stops rest) : readDigits? (ds ++ rest) = some (ds, rest) := by
  have hstop : rest.takeWhile Char.isDigit = [] ∧ rest.dropWhile Char.isDigit = rest := by
    cases rest with
    | nil => exact ⟨rfl, rfl⟩
    | cons c cs => simp [(hrest c (by simp)).1]
  rw [readDigits?, List.takeWhile_append_of_pos hds, List.dropWhile_append_of_pos hds, hstop.1,
    hstop.2, List.append_nil]
  split
  · contradiction
  · rfl

theorem readWhole?_toDigits (n : Nat) (hrest : Stops rest) :
    readWhole? (Nat.toDigits 10 n ++ rest) = some (Nat.toDigits 10 n, rest) := by
  rcases Nat.eq_zero_or_pos n with rfl | hn
  · rw [Nat.toDigits_zero]
    rfl
  · rw [readWhole?]
    · exact readDigits?_append Nat.toDigits_ne_nil (fun d hd => isDigit_of_mem hd) hrest
    · intro cs hcs
      have hhead := head?_toDigits_ne hn
      rw [← List.head?_append_of_ne_nil _ Nat.toDigits_ne_nil, hcs] at hhead
      exact hhead rfl

theorem readUnsigned?_toDigits (b : Bool) (n : Nat) (hrest : Stops rest) :
    readUnsigned? b (Nat.toDigits 10 n ++ rest)
      = some (⟨b, Nat.toDigits 10 n, [], none⟩, rest) := by
  have hfraction : readFraction? rest = some ([], rest) := by
    unfold readFraction?
    split
    · exact absurd rfl (hrest _ rfl).2.1
    · rfl
  have hexponent : readExponent? rest = some (none, rest) := by
    unfold readExponent?
    split
    · exact absurd rfl (hrest _ rfl).2.2.1
    · exact absurd rfl (hrest _ rfl).2.2.2
    · rfl
  simp only [readUnsigned?, readWhole?_toDigits n hrest, Option.bind_eq_bind, Option.bind_some,
    hfraction, hexponent]
  rfl

/-- **An integer is read as printed.** -/
theorem read?_toString (n : Int) (hrest : Stops rest) :
    read? ((toString n).toList ++ rest) = some (ofInt n, rest) := by
  rw [toList_toString, List.append_assoc, ofInt]
  by_cases hn : n < 0
  · rw [if_pos hn, decide_eq_true hn]
    exact readUnsigned?_toDigits true n.natAbs hrest
  · rw [if_neg hn, decide_eq_false hn, List.nil_append, read?]
    · exact readUnsigned?_toDigits false n.natAbs hrest
    · intro cs hcs
      have hmem : '-' ∈ Nat.toDigits 10 n.natAbs := by
        refine List.mem_of_mem_head? ?_
        rw [← List.head?_append_of_ne_nil _ Nat.toDigits_ne_nil, hcs]
        rfl
      exact absurd (isDigit_of_mem hmem) (by decide)

theorem integer?_ofInt {n : Int} (hmin : -0x8000000000000000 ≤ n) (hmax : n < UInt64.size) :
    (ofInt n).integer? = some n := by
  have hsize : ofDigits 0 (Nat.toDigits 10 n.natAbs) = n.natAbs := by
    rw [ofDigits_eq, Nat.ofDigitChars_ten_toDigits]
  simp only [integer?, ofInt, List.isEmpty_nil, Option.isNone_none, Bool.and_self, if_true, hsize,
    decide_eq_true_eq, Bool.and_eq_true]
  by_cases hn : n < 0
  · rw [if_pos hn, if_pos (by omega)]
    congr 1
    omega
  · rw [if_neg hn, if_pos (by omega)]
    congr 1
    omega

end Number

/-! ### Strings -/

namespace Piece

theorem hexDigit?_digitChar : ∀ n < 16, hexDigit? (Nat.digitChar n) = some n := by decide

theorem read?_escape {e c : Char} (h : ofEscape? e = some c) (t : Text) :
    read? ('\\' :: e :: t) = (read? t).map (Prod.map (char c :: ·) id) := by
  rw [read?]
  · rw [h]
    cases read? t <;> rfl
  · rintro a b c d cs rfl -
    exact absurd h (by simp [ofEscape?])

theorem read?_control {c : Char} (hc : c.toNat < 0x20) (t : Text) :
    read? (['\\', 'u', '0', '0'] ++ controlDigits c ++ t)
      = (read? t).map (Prod.map (unit c.toNat :: ·) id) := by
  have hunit : unitOfHex? '0' '0' (Nat.digitChar (c.toNat / 16)) (Nat.digitChar (c.toNat % 16))
      = some c.toNat := by
    rw [unitOfHex?, hexDigit?_digitChar _ (by omega), hexDigit?_digitChar _ (by omega)]
    show some (((0 * 16 + 0) * 16 + c.toNat / 16) * 16 + c.toNat % 16) = _
    congr 1
    omega
  show read? ('\\' :: 'u' :: '0' :: '0' :: Nat.digitChar (c.toNat / 16) ::
    Nat.digitChar (c.toNat % 16) :: t) = _
  rw [read?, hunit]
  cases read? t <;> rfl

theorem read?_plain {c : Char} (hquote : c ≠ '"') (hslash : c ≠ '\\') (hc : ¬ c.toNat < 0x20)
    (t : Text) : read? (c :: t) = (read? t).map (Prod.map (char c :: ·) id) := by
  rw [read?]
  · rw [if_neg (by simp [hslash, hc])]
    rfl
  · exact hquote
  · intro a b c d cs h
    exact absurd h hslash
  · intro e cs h
    exact absurd h hslash

theorem decode?_control {c : Char} (hc : c.toNat < 0x20) (ps : List Piece) :
    decode? (unit c.toNat :: ps) = (decode? ps).map (c :: ·) := by
  have hhigh : isHighSurrogate c.toNat = false := by
    simp [isHighSurrogate]
    omega
  have hlow : isLowSurrogate c.toNat = false := by
    simp [isLowSurrogate]
    omega
  rw [decode?.eq_def]
  simp [hhigh, hlow, Char.ofNat_toNat]

/-- A character is read as one piece, however it is escaped. -/
theorem exists_piece (c : Char) : ∃ p : Piece,
    (∀ t, read? (escapeChar c ++ t) = (read? t).map (Prod.map (p :: ·) id)) ∧
    ∀ ps, decode? (p :: ps) = (decode? ps).map (c :: ·) := by
  unfold escapeChar
  split
  iterate 7 exact ⟨.char _, read?_escape rfl, fun _ => rfl⟩
  split
  · next hc => exact ⟨.unit c.toNat, read?_control hc, decode?_control hc⟩
  · exact ⟨.char c, read?_plain ‹_› ‹_› ‹_›, fun _ => rfl⟩

/-- **A string is read as printed.** -/
theorem exists_pieces (cs : List Char) : ∃ ps : List Piece, decode? ps = some cs ∧
    ∀ t, read? (cs.flatMap escapeChar ++ '"' :: t) = some (ps, t) := by
  induction cs with
  | nil => exact ⟨[], rfl, fun _ => by rw [List.flatMap_nil, List.nil_append, read?]⟩
  | cons c cs ih =>
    obtain ⟨p, hread, hdecode⟩ := exists_piece c
    obtain ⟨ps, hps, hreads⟩ := ih
    refine ⟨p :: ps, by rw [hdecode, hps, Option.map_some], fun t => ?_⟩
    rw [List.flatMap_cons, List.append_assoc, hread, hreads]
    rfl

end Piece

/-! ### Tokens -/

theorem toList_margin (level : Nat) :
    (margin level).toList = '\n' :: List.replicate (2 * level) ' ' := by
  simp [margin]

namespace Token

variable {t rest : Text} {token : Token}

/-- No token begins with a blank. -/
theorem read?_blank {c : Char} (h : isBlank c = true) (t : Text) : read? (c :: t) = none := by
  simp only [isBlank, Bool.or_eq_true, decide_eq_true_eq] at h
  rcases h with ((rfl | rfl) | rfl) | rfl <;> rfl

theorem scan?_of_read? (h : read? t = some (token, rest)) :
    scan? t = (scan? rest).map (token :: ·) := by
  cases t with
  | nil => cases h
  | cons c cs =>
    have hblank : ¬ isBlank c = true := by
      intro hblank
      rw [read?_blank hblank] at h
      cases h
    rw [scan?, if_neg hblank]
    split
    · next hnone => simp [h] at hnone
    · next token' rest' hsome =>
      rw [h, Option.some.injEq, Prod.mk.injEq] at hsome
      rw [hsome.1, hsome.2]

theorem scan?_blank {c : Char} (h : isBlank c = true) (t : Text) : scan? (c :: t) = scan? t := by
  rw [scan?, if_pos h]

theorem scan?_margin (level : Nat) (t : Text) :
    scan? ((margin level).toList ++ t) = scan? t := by
  have hblanks : ∀ n, scan? (List.replicate n ' ' ++ t) = scan? t := by
    intro n
    induction n with
    | zero => rfl
    | succ n ih => rw [List.replicate_succ, List.cons_append, scan?_blank rfl, ih]
  rw [toList_margin, List.cons_append, scan?_blank rfl, hblanks]

theorem read?_of_ne {c : Char} (h : c ∉ ['n', 't', 'f', '"']) (t : Text) :
    read? (c :: t) = ((ofPunctuation? c).map (·, t)).or
      ((Number.read? (c :: t)).map (Prod.map number id)) := by
  simp only [List.mem_cons, List.not_mem_nil, or_false, not_or] at h
  obtain ⟨hn, ht, hf, hquote⟩ := h
  rw [read?]
  · cases ofPunctuation? c <;> rfl
  · intro cs hc
    exact absurd hc hn
  · intro cs hc
    exact absurd hc ht
  · intro cs hc
    exact absurd hc hf
  · exact hquote

theorem read?_number {c : Char} {n : Number} (hc : c = '-' ∨ c.isDigit = true)
    (h : Number.read? (c :: t) = some (n, rest)) : read? (c :: t) = some (number n, rest) := by
  have hne : ∀ d : Char, d ≠ '-' → d.isDigit = false → c ≠ d := by
    rintro d hminus hdigit rfl
    simp [hminus, hdigit] at hc
  have hpunctuation : ofPunctuation? c = none := by
    unfold ofPunctuation?
    split
    iterate 6 exact absurd rfl (hne _ (by decide) (by decide))
    rfl
  have hmem : c ∉ ['n', 't', 'f', '"'] := by
    intro hmem
    simp only [List.mem_cons, List.not_mem_nil, or_false] at hmem
    rcases hmem with rfl | rfl | rfl | rfl <;> exact absurd rfl (hne _ (by decide) (by decide))
  rw [read?_of_ne hmem, hpunctuation, h]
  rfl

theorem read?_mark {c : Char} (h : ofPunctuation? c = some token) (t : Text) :
    read? (c :: t) = some (token, t) := by
  have hmem : c ∉ ['n', 't', 'f', '"'] := by
    intro hmem
    simp only [List.mem_cons, List.not_mem_nil, or_false] at hmem
    rcases hmem with rfl | rfl | rfl | rfl <;> cases h
  rw [read?_of_ne hmem, h]
  rfl

theorem scan?_mark {s : String} {c : Char} (hs : s.toList = [c])
    (h : ofPunctuation? c = some token) (t : Text) :
    scan? (s.toList ++ t) = (scan? t).map (token :: ·) := by
  rw [hs]
  exact scan?_of_read? (read?_mark h t)

theorem scan?_colon (t : Text) : scan? (": ".toList ++ t) = (scan? t).map (colon :: ·) := by
  rw [show ": ".toList ++ t = ":".toList ++ ' ' :: t from rfl, scan?_mark rfl rfl, scan?_blank rfl]

theorem scan?_toString (n : Int) (hrest : Number.Stops rest) :
    scan? ((toString n).toList ++ rest) = (scan? rest).map (number (.ofInt n) :: ·) := by
  have hread := Number.read?_toString n hrest
  obtain ⟨c, cs, hcs, hc⟩ := Number.exists_toList_toString n
  rw [hcs, List.cons_append] at hread ⊢
  exact scan?_of_read? (read?_number hc hread)

theorem exists_scan?_quote (s : String) : ∃ ps : List Piece, Piece.decode? ps = some s.toList ∧
    ∀ t, scan? ((quote s).toList ++ t) = (scan? t).map (string ps :: ·) := by
  obtain ⟨ps, hps, hread⟩ := Piece.exists_pieces s.toList
  refine ⟨ps, hps, fun t => ?_⟩
  have htext : (quote s).toList ++ t = '"' :: (s.toList.flatMap escapeChar ++ '"' :: t) := by
    simp [quote]
  rw [htext]
  refine scan?_of_read? ?_
  rw [read?, hread, Option.map_some]

end Token

/-! ### Trees -/

namespace Tree

mutual

/-- The tokens of a document. -/
def tokens : Tree → List Token
  | .null => [.null]
  | .bool b => [.bool b]
  | .number n => [.number n]
  | .string ps => [.string ps]
  | .array [] => [.openBracket, .closeBracket]
  | .array (t :: ts) => .openBracket :: (tokens t ++ itemTokens ts ++ [.closeBracket])
  | .object [] => [.openBrace, .closeBrace]
  | .object ((key, t) :: fs) =>
    .openBrace :: .string key :: .colon :: (tokens t ++ fieldTokens fs ++ [.closeBrace])

/-- The tokens of the items after the first. -/
def itemTokens : List Tree → List Token
  | [] => []
  | t :: ts => .comma :: (tokens t ++ itemTokens ts)

/-- The tokens of the fields after the first. -/
def fieldTokens : List (List Piece × Tree) → List Token
  | [] => []
  | (key, t) :: fs => .comma :: .string key :: .colon :: (tokens t ++ fieldTokens fs)

end

/-- In an array that has just been opened, an item begins as everywhere. -/
theorem foldlM_opened (t : Tree) (stack : List Frame) :
    t.tokens.foldlM step (.opened stack) = t.tokens.foldlM step (.value (.array [] :: stack)) := by
  cases t with
  | array items => cases items <;> rfl
  | object fields => cases fields <;> rfl
  | _ => rfl

-- The machine completes a tree on any stack; what an open array or object holds so far is in its
-- frame, the last first.
mutual

theorem foldlM_tokens (stack : List Frame) :
    ∀ t : Tree, t.tokens.foldlM step (.value stack) = some (.complete t stack)
  | .null | .bool _ | .number _ | .string _ | .array [] | .object [] => rfl
  | .array (t :: ts) => by
    show List.foldlM step (.opened stack) (tokens t ++ itemTokens ts ++ [.closeBracket]) = _
    rw [List.append_assoc, List.foldlM_append, foldlM_opened, foldlM_tokens _ t]
    exact foldlM_itemTokens stack [] t ts
  | .object ((key, t) :: fs) => by
    show List.foldlM step (.value (.object [] key :: stack))
      (tokens t ++ fieldTokens fs ++ [.closeBrace]) = _
    rw [List.append_assoc, List.foldlM_append, foldlM_tokens _ t]
    exact foldlM_fieldTokens stack [] key t fs

theorem foldlM_itemTokens (stack : List Frame) (items : List Tree) (t : Tree) :
    ∀ ts : List Tree, (itemTokens ts ++ [Token.closeBracket]).foldlM step
      (.complete t (.array items :: stack))
        = some (.complete (.array ((t :: items).reverse ++ ts)) stack)
  | [] => by
    rw [List.append_nil]
    rfl
  | t' :: ts => by
    show List.foldlM step (.value (.array (t :: items) :: stack))
      (tokens t' ++ itemTokens ts ++ [.closeBracket]) = _
    rw [List.append_assoc, List.foldlM_append, foldlM_tokens _ t']
    refine (foldlM_itemTokens stack (t :: items) t' ts).trans ?_
    simp

theorem foldlM_fieldTokens (stack : List Frame) (fields : List (List Piece × Tree))
    (key : List Piece) (t : Tree) :
    ∀ fs : List (List Piece × Tree), (fieldTokens fs ++ [Token.closeBrace]).foldlM step
      (.complete t (.object fields key :: stack))
        = some (.complete (.object (((key, t) :: fields).reverse ++ fs)) stack)
  | [] => by
    rw [List.append_nil]
    rfl
  | (key', t') :: fs => by
    show List.foldlM step (.value (.object ((key, t) :: fields) key' :: stack))
      (tokens t' ++ fieldTokens fs ++ [.closeBrace]) = _
    rw [List.append_assoc, List.foldlM_append, foldlM_tokens _ t']
    refine (foldlM_fieldTokens stack ((key, t) :: fields) key' t' fs).trans ?_
    simp

end

/-- **A tree is what its tokens are read as.** -/
theorem ofTokens?_tokens (t : Tree) : ofTokens? t.tokens = some t := by
  rw [ofTokens?, foldlM_tokens]

end Tree

/-! ### Values -/

/-- A value without doubles whose integers have 64 bits, in which no object has a name twice, and
with at most `depth` arrays and objects inside each other. -/
inductive Fits : Nat → Json → Prop
  | null {depth : Nat} : Fits depth null
  | bool {depth : Nat} (b : Bool) : Fits depth (bool b)
  | int {depth : Nat} (n : Int) (hmin : -0x8000000000000000 ≤ n) (hmax : n < UInt64.size) :
    Fits depth (int n)
  | str {depth : Nat} (s : String) : Fits depth (str s)
  | arr {depth : Nat} {items : List Json} (h : ∀ v ∈ items, Fits depth v) :
    Fits (depth + 1) (arr items)
  | obj {depth : Nat} {fields : List (String × Json)} (hnames : (fields.map Prod.fst).Nodup)
    (h : ∀ f ∈ fields, Fits depth f.2) : Fits (depth + 1) (obj fields)

/-- A tree that denotes the value, and whose tokens are those of the printed value wherever it
stands. -/
structure Prints (depth : Nat) (v : Json) (tree : Tree) : Prop where
  value : tree.value? depth = some v
  scan (level : Nat) {rest : Text} : Number.Stops rest →
    Token.scan? ((prettyAt level v).toList ++ rest) = (Token.scan? rest).map (tree.tokens ++ ·)

variable {depth : Nat} {rest : Text}

/-- An object with two fields. -/
theorem Fits.pair {a b : String} {v w : Json} (hne : a ≠ b) (hv : Fits depth v)
    (hw : Fits depth w) : Fits (depth + 1) (.obj [(a, v), (b, w)]) := by
  refine .obj (by simp [hne]) ?_
  simp [hv, hw]

theorem keepLast_eq_self {fields : List (String × Json)} (h : (fields.map Prod.fst).Nodup) :
    keepLast fields = fields := by
  induction fields with
  | nil => rfl
  | cons f fields ih =>
    obtain ⟨name, v⟩ := f
    obtain ⟨hname, hnames⟩ := List.nodup_cons.mp h
    have hlookup : fields.lookup name = none := by
      rw [List.lookup_eq_none_iff]
      intro g hg
      rw [bne_iff_ne]
      rintro rfl
      exact hname (List.mem_map.mpr ⟨g, hg, rfl⟩)
    rw [keepLast, hlookup, ih hnames]
    rfl

-- After a value stands a comma, the margin before a closing bracket, or nothing.

theorem stops_nil : Number.Stops [] := by
  rintro _ ⟨⟩

theorem stops_cons {c : Char} (h : c = '\n' ∨ c = ',') (t : Text) : Number.Stops (c :: t) := by
  rintro _ ⟨⟩
  rcases h with rfl | rfl <;> decide

theorem stops_margin (level : Nat) (t : Text) : Number.Stops ((margin level).toList ++ t) := by
  rw [toList_margin]
  exact stops_cons (Or.inl rfl) _

theorem stops_prettyItems (level : Nat) (vs : List Json) (h : Number.Stops rest) :
    Number.Stops ((prettyItems level vs).toList ++ rest) := by
  cases vs with
  | nil => exact h
  | cons v vs =>
    simp only [prettyItems, String.toList_append, List.append_assoc]
    exact stops_cons (Or.inr rfl) _

theorem stops_prettyFields (level : Nat) (fs : List (String × Json)) (h : Number.Stops rest) :
    Number.Stops ((prettyFields level fs).toList ++ rest) := by
  cases fs with
  | nil => exact h
  | cons f fs =>
    simp only [prettyFields, String.toList_append, List.append_assoc]
    exact stops_cons (Or.inr rfl) _

/-- The trees of items that stand after the first of an array. -/
theorem exists_itemTrees (vs : List Json) (h : ∀ v ∈ vs, ∃ t, Prints depth v t) :
    ∃ ts, Tree.values? depth ts = some vs ∧ ∀ (level : Nat) {rest : Text}, Number.Stops rest →
      Token.scan? ((prettyItems level vs).toList ++ rest)
        = (Token.scan? rest).map (Tree.itemTokens ts ++ ·) := by
  induction vs with
  | nil => exact ⟨[], rfl, fun level rest _ => by simp [prettyItems, Tree.itemTokens]⟩
  | cons v vs ih =>
    obtain ⟨t, ht⟩ := h v (by simp)
    obtain ⟨ts, hts, hscan⟩ := ih fun w hw => h w (by simp [hw])
    refine ⟨t :: ts, by simp [Tree.values?, ht.value, hts], fun level rest hrest => ?_⟩
    have hitem := ht.scan level (stops_prettyItems level vs hrest)
    simp only [prettyItems, String.toList_append, List.append_assoc,
      Token.scan?_mark (s := ",") rfl rfl, Token.scan?_margin, hitem, hscan level hrest]
    simp [Tree.itemTokens, Function.comp_def]

/-- The trees of fields that stand after the first of an object, with their keys. -/
theorem exists_fieldTrees (fs : List (String × Json)) (h : ∀ f ∈ fs, ∃ t, Prints depth f.2 t) :
    ∃ ts, Tree.fieldValues? depth ts = some fs ∧
      ∀ (level : Nat) {rest : Text}, Number.Stops rest →
        Token.scan? ((prettyFields level fs).toList ++ rest)
          = (Token.scan? rest).map (Tree.fieldTokens ts ++ ·) := by
  induction fs with
  | nil => exact ⟨[], rfl, fun level rest _ => by simp [prettyFields, Tree.fieldTokens]⟩
  | cons f fs ih =>
    obtain ⟨name, v⟩ := f
    obtain ⟨key, hkey, hname⟩ := Token.exists_scan?_quote name
    obtain ⟨t, ht⟩ := h (name, v) (by simp)
    obtain ⟨ts, hts, hscan⟩ := ih fun g hg => h g (by simp [hg])
    refine ⟨(key, t) :: ts, by simp [Tree.fieldValues?, hkey, ht.value, hts],
      fun level rest hrest => ?_⟩
    have hfield := ht.scan level (stops_prettyFields level fs hrest)
    simp only [prettyFields, String.toList_append, List.append_assoc,
      Token.scan?_mark (s := ",") rfl rfl, Token.scan?_margin, hname, Token.scan?_colon, hfield,
      hscan level hrest]
    simp [Tree.fieldTokens, Function.comp_def]

theorem exists_arrayTree {items : List Json} (h : ∀ v ∈ items, ∃ t, Prints depth v t) :
    ∃ t, Prints (depth + 1) (arr items) t := by
  cases items with
  | nil =>
    refine ⟨.array [], rfl, fun level rest _ => ?_⟩
    simp only [prettyAt, show "[]" = "[" ++ "]" from rfl, String.toList_append, List.append_assoc,
      Token.scan?_mark (s := "[") rfl rfl, Token.scan?_mark (s := "]") rfl rfl]
    simp [Tree.tokens, Function.comp_def]
  | cons v vs =>
    obtain ⟨t, ht⟩ := h v (by simp)
    obtain ⟨ts, hts, hscan⟩ := exists_itemTrees vs fun w hw => h w (by simp [hw])
    have hvalue : Tree.value? (depth + 1) (.array (t :: ts)) = some (arr (v :: vs)) := by
      simp [Tree.value?, Tree.values?, ht.value, hts]
    refine ⟨.array (t :: ts), hvalue, fun level rest _ => ?_⟩
    have hclose := stops_margin level ("]".toList ++ rest)
    have hitem := ht.scan (level + 1) (stops_prettyItems (level + 1) vs hclose)
    simp only [prettyAt, String.toList_append, List.append_assoc,
      Token.scan?_mark (s := "[") rfl rfl, Token.scan?_margin, hitem, hscan (level + 1) hclose,
      Token.scan?_mark (s := "]") rfl rfl]
    simp [Tree.tokens, Function.comp_def]

theorem exists_objectTree {fields : List (String × Json)} (hnames : (fields.map Prod.fst).Nodup)
    (h : ∀ f ∈ fields, ∃ t, Prints depth f.2 t) : ∃ t, Prints (depth + 1) (obj fields) t := by
  cases fields with
  | nil =>
    refine ⟨.object [], rfl, fun level rest _ => ?_⟩
    simp only [prettyAt, show "\x7b\x7d" = "\x7b" ++ "\x7d" from rfl, String.toList_append,
      List.append_assoc, Token.scan?_mark (s := "\x7b") rfl rfl,
      Token.scan?_mark (s := "\x7d") rfl rfl]
    simp [Tree.tokens, Function.comp_def]
  | cons f fs =>
    obtain ⟨name, v⟩ := f
    obtain ⟨key, hkey, hname⟩ := Token.exists_scan?_quote name
    obtain ⟨t, ht⟩ := h (name, v) (by simp)
    obtain ⟨ts, hts, hscan⟩ := exists_fieldTrees fs fun g hg => h g (by simp [hg])
    have hvalue : Tree.value? (depth + 1) (.object ((key, t) :: ts))
        = some (obj ((name, v) :: fs)) := by
      simp [Tree.value?, Tree.fieldValues?, hkey, ht.value, hts, keepLast_eq_self hnames]
    refine ⟨.object ((key, t) :: ts), hvalue, fun level rest _ => ?_⟩
    have hclose := stops_margin level ("\x7d".toList ++ rest)
    have hfield := ht.scan (level + 1) (stops_prettyFields (level + 1) fs hclose)
    simp only [prettyAt, String.toList_append, List.append_assoc,
      Token.scan?_mark (s := "\x7b") rfl rfl, Token.scan?_margin, hname, Token.scan?_colon, hfield,
      hscan (level + 1) hclose, Token.scan?_mark (s := "\x7d") rfl rfl]
    simp [Tree.tokens, Function.comp_def]

/-- **The tree of a printed value.** -/
theorem exists_tree {v : Json} (h : Fits depth v) : ∃ t, Prints depth v t := by
  induction h with
  | null =>
    refine ⟨.null, rfl, fun level rest _ => ?_⟩
    rw [prettyAt]
    exact Token.scan?_of_read? rfl
  | bool b =>
    refine ⟨.bool b, rfl, fun level rest _ => ?_⟩
    rw [prettyAt]
    cases b <;> exact Token.scan?_of_read? rfl
  | int n hmin hmax =>
    refine ⟨.number (.ofInt n), ?_, fun level rest hrest => ?_⟩
    · rw [Tree.value?, Number.integer?_ofInt hmin hmax]
    · rw [prettyAt]
      exact Token.scan?_toString n hrest
  | str s =>
    obtain ⟨ps, hps, hscan⟩ := Token.exists_scan?_quote s
    refine ⟨.string ps, ?_, fun level rest _ => ?_⟩
    · rw [Tree.value?, hps, Option.map_some, String.ofList_toList]
    · rw [prettyAt]
      exact hscan rest
  | arr _ ih => exact exists_arrayTree ih
  | obj hnames _ ih => exact exists_objectTree hnames ih

/-- **A value is what its printed text is read as.** -/
theorem parse?_pretty {v : Json} (h : Fits maxDepth v) : parse? v.pretty.toList = some v := by
  obtain ⟨t, ht⟩ := exists_tree h
  have hscan : Token.scan? v.pretty.toList = some t.tokens := by
    have hprinted := ht.scan 0 stops_nil
    rw [List.append_nil, Token.scan?, Option.map_some, List.append_nil] at hprinted
    exact hprinted
  rw [parse?, Tree.parse?, hscan, Option.bind_some, Tree.ofTokens?_tokens, Option.bind_some,
    ht.value]

end Newline.Json
