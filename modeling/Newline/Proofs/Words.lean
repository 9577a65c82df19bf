/-
The word at a caret.

A caret between two bytes touches at most one longest run of the bytes of words, and the search
through the words of its line finds that run. Bytes and characters agree here: all bytes of a
character are bytes of words or none is.

* `Word.isWordByte_eq` — the class of a byte is the class of its character;
* `Word.wordAt_cut`, `Word.wordAt_cut_pred` — the bytes on either side of a cut;
* `Word.Run`, `Word.Run.unique` — a longest run at a caret, and that there is only one;
* `Word.exists_stands_of_mem_runs`, `Word.exists_run_over_char` — the words of a line are longest
  runs, and no character of a word is left out;
* `Word.YieldsRuns`, `Word.yieldsRuns_runs` — finding the longest runs of a line, as the scan does;
* `Word.at_finds_run` — what is found at a caret, on any line and at any character.
-/
import Mathlib.Data.List.TakeWhile
import Newline.Proofs.Conversions
import Newline.Proofs.Remapping
import Newline.Proofs.StaleRanges

namespace Newline.Word

open Text

/-! ### Bytes of words -/

/-- The bytes of words: the letters and digits of ASCII and the underscore. -/
def isWordByte (b : UInt8) : Bool :=
  ('A'.toUInt8 ≤ b && b ≤ 'Z'.toUInt8) || ('a'.toUInt8 ≤ b && b ≤ 'z'.toUInt8) ||
    ('0'.toUInt8 ≤ b && b ≤ '9'.toUInt8) || b = '_'.toUInt8

/-- The codes of the characters of words. -/
def IsWordCode (n : Nat) : Prop :=
  65 ≤ n ∧ n ≤ 90 ∨ 97 ≤ n ∧ n ≤ 122 ∨ 48 ≤ n ∧ n ≤ 57 ∨ n = 95

theorem isWordByte_iff (b : UInt8) : isWordByte b = true ↔ IsWordCode b.toNat := by
  simp only [isWordByte, IsWordCode, Bool.or_eq_true, Bool.and_eq_true, decide_eq_true_eq,
    UInt8.le_iff_toNat_le, ← UInt8.toNat_inj, or_assoc]
  rfl

theorem isWordChar_iff (c : Char) : isWordChar c = true ↔ IsWordCode c.toNat := by
  have hranges : isWordChar c = (decide ('A'.val ≤ c.val ∧ c.val ≤ 'Z'.val) ||
      ('a'.val ≤ c.val && c.val ≤ 'z'.val) || ('0'.val ≤ c.val && c.val ≤ '9'.val) || c = '_') :=
    rfl
  simp only [hranges, IsWordCode, Bool.or_eq_true, Bool.and_eq_true, decide_eq_true_eq,
    UInt32.le_iff_toNat_le, ← Char.toNat_inj, or_assoc]
  rfl

/-- **The class of a byte is the class of its character**: the characters of words are single bytes,
and the bytes of longer characters are no ASCII. -/
theorem isWordByte_eq {c : Char} {b : UInt8} (h : b ∈ String.utf8EncodeChar c) :
    isWordByte b = isWordChar c := by
  rw [Bool.eq_iff_iff, isWordByte_iff, isWordChar_iff]
  have hcode : IsWordCode c.toNat → b.toNat = c.toNat := by
    intro hc
    have hle : c.val.toNat ≤ 127 := by
      rw [IsWordCode, show c.toNat = c.val.toNat from rfl] at hc
      omega
    rw [String.utf8EncodeChar, if_pos hle, List.mem_singleton] at h
    rw [h, UInt8.toNat_ofNat']
    exact Nat.mod_eq_of_lt (Nat.lt_of_le_of_lt hle (by decide))
  rcases mem_utf8EncodeChar h with heq | hge
  · rw [heq]
  · constructor
    · intro hb
      rw [IsWordCode] at hb
      omega
    · intro hc
      rwa [hcode hc]

/-- Whether there is a byte of words at an offset. -/
def wordAt (bytes : List UInt8) (i : Nat) : Bool := bytes[i]?.any isWordByte

/-- Every offset before the end is at a byte of a character. -/
theorem exists_char_over {t : Text} {i : Nat} (h : i < byteLen t) :
    ∃ u c v, t = u ++ c :: v ∧ byteLen u ≤ i ∧ i < byteLen u + c.utf8Size := by
  induction t generalizing i with
  | nil => exact absurd h (Nat.not_lt_zero i)
  | cons c cs ih =>
    rw [byteLen_cons] at h
    by_cases hi : i < c.utf8Size
    · exact ⟨[], c, cs, rfl, Nat.zero_le i, by simpa using hi⟩
    · obtain ⟨u, d, v, rfl, hle, hlt⟩ := ih (show i - c.utf8Size < byteLen cs by omega)
      refine ⟨c :: u, d, v, rfl, ?_, ?_⟩
      · rw [byteLen_cons]
        omega
      · rw [byteLen_cons]
        omega

/-- **Every byte of a character** is as the character is. -/
theorem wordAt_char (u v : Text) (c : Char) {i : Nat} (hle : byteLen u ≤ i)
    (hlt : i < byteLen u + c.utf8Size) : wordAt (toBytes (u ++ c :: v)) i = isWordChar c := by
  have hin : i - (toBytes u).length < (String.utf8EncodeChar c).length := by
    rw [length_toBytes, String.length_utf8EncodeChar]
    omega
  rw [← length_toBytes] at hle
  rw [wordAt, toBytes_append, List.getElem?_append_right hle, toBytes_cons,
    List.getElem?_append_left hin, List.getElem?_eq_getElem hin, Option.any_some]
  exact isWordByte_eq (List.getElem_mem hin)

/-- The byte at a cut is the first of what follows. -/
theorem wordAt_cut (a b : Text) :
    wordAt (toBytes (a ++ b)) (byteLen a) = b.head?.any isWordChar := by
  cases b with
  | nil => simp [wordAt, ← length_toBytes]
  | cons c cs =>
    have hpos := c.utf8Size_pos
    exact wordAt_char a cs c (Nat.le_refl _) (by omega)

/-- The byte before a cut is the last of what comes before. -/
theorem wordAt_cut_pred {a : Text} (b : Text) {i : Nat} (h : i + 1 = byteLen a) :
    wordAt (toBytes (a ++ b)) i = a.getLast?.any isWordChar := by
  rcases List.eq_nil_or_concat a with rfl | ⟨init, c, rfl⟩
  · exact absurd h (Nat.succ_ne_zero i)
  · have hpos := c.utf8Size_pos
    have hlen : byteLen (init ++ [c]) = byteLen init + c.utf8Size := by simp
    rw [List.concat_eq_append, List.append_assoc, List.singleton_append,
      wordAt_char init b c (by rw [List.concat_eq_append] at h; omega)
        (by rw [List.concat_eq_append] at h; omega)]
    simp

/-- A byte of words belongs to a character of words. -/
theorem exists_char_of_wordAt {t : Text} {i : Nat} (h : wordAt t.toBytes i = true) :
    ∃ u c v, t = u ++ c :: v ∧ isWordChar c = true ∧ byteLen u ≤ i ∧
      i < byteLen u + c.utf8Size := by
  have hlt : i < byteLen t := by
    by_contra hge
    rw [wordAt, List.getElem?_eq_none (by rw [length_toBytes]; omega)] at h
    exact absurd h (by simp)
  obtain ⟨u, c, v, rfl, hu, hc⟩ := exists_char_over hlt
  rw [wordAt_char u v c hu hc] at h
  exact ⟨u, c, v, rfl, h, hu, hc⟩

/-! ### Longest runs -/

/-- The byte at the caret or the one before it is one of words. -/
def Touched (bytes : List UInt8) (caret : Nat) : Prop :=
  ∃ i, (i = caret ∨ i + 1 = caret) ∧ wordAt bytes i = true

/-- A run of bytes of words around the caret or next to it, with none before it and none behind. -/
structure Run (bytes : List UInt8) (caret start stop : Nat) : Prop where
  start_le : start ≤ caret
  le_stop : caret ≤ stop
  inside : ∀ i, start ≤ i → i < stop → wordAt bytes i = true
  before : ∀ i, i + 1 = start → wordAt bytes i = false
  behind : wordAt bytes stop = false

section Run

variable {bytes : List UInt8} {caret start stop start' stop' : Nat}

theorem Run.start_le_start (h : Run bytes caret start stop) (h' : Run bytes caret start' stop') :
    start' ≤ start := by
  by_contra hlt
  -- The byte before the second run is inside the first.
  have hcaret := h'.start_le
  have hstop := h.le_stop
  have hin := h.inside (start' - 1) (by omega) (by omega)
  rw [h'.before (start' - 1) (by omega)] at hin
  exact absurd hin (by simp)

theorem Run.stop_le_stop (h : Run bytes caret start stop) (h' : Run bytes caret start' stop') :
    stop ≤ stop' := by
  by_contra hlt
  have hcaret := h'.le_stop
  have hstart := h.start_le
  have hin := h.inside stop' (by omega) (by omega)
  rw [h'.behind] at hin
  exact absurd hin (by simp)

/-- **There is only one longest run at a caret**: two of them never meet. -/
theorem Run.unique (h : Run bytes caret start stop) (h' : Run bytes caret start' stop') :
    start' = start ∧ stop' = stop :=
  ⟨Nat.le_antisymm (h.start_le_start h') (h'.start_le_start h),
    Nat.le_antisymm (h'.stop_le_stop h) (h.stop_le_stop h')⟩

theorem Run.touched (h : Run bytes caret start stop) (hlt : start < stop) :
    Touched bytes caret := by
  have hstart := h.start_le
  have hstop := h.le_stop
  by_cases hcaret : caret < stop
  · exact ⟨caret, Or.inl rfl, h.inside caret hstart hcaret⟩
  · exact ⟨caret - 1, Or.inr (by omega), h.inside (caret - 1) (by omega) (by omega)⟩

end Run

/-! ### The words of a line -/

/-- The word `w` stands in a line, `a` before it and `b` behind it, and cannot be made longer. -/
structure Stands (line a w b : Text) : Prop where
  line_eq : line = a ++ w ++ b
  ne_nil : w ≠ []
  inside : ∀ c ∈ w, isWordChar c = true
  before : a.getLast?.any isWordChar = false
  behind : b.head?.any isWordChar = false

/-- A word that stands in a line is a longest run of its bytes, at every caret that touches it. -/
theorem Stands.run {line a w b : Text} (h : Stands line a w b) {caret : Nat}
    (hstart : byteLen a ≤ caret) (hstop : caret ≤ byteLen a + byteLen w) :
    Run line.toBytes caret (byteLen a) (byteLen a + byteLen w) := by
  obtain ⟨rfl, -, hinside, hbefore, hbehind⟩ := h
  refine ⟨hstart, hstop, fun i hi hi' => ?_, fun i hi => ?_, ?_⟩
  · obtain ⟨u, c, v, rfl, hu, hc⟩ := exists_char_over (show i - byteLen a < byteLen w by omega)
    have hline : a ++ (u ++ c :: v) ++ b = (a ++ u) ++ c :: (v ++ b) := by simp
    rw [hline, wordAt_char (a ++ u) (v ++ b) c (by rw [byteLen_append]; omega)
      (by rw [byteLen_append]; omega)]
    exact hinside c (by simp)
  · rw [List.append_assoc, wordAt_cut_pred (w ++ b) hi, hbefore]
  · rw [← byteLen_append, wordAt_cut, hbehind]

theorem Stands.byteLen_pos {line a w b : Text} (h : Stands line a w b) : 0 < byteLen w := by
  obtain ⟨c, cs, hw⟩ := List.exists_cons_of_ne_nil h.ne_nil
  have hpos := c.utf8Size_pos
  rw [hw, byteLen_cons]
  omega

theorem head?_dropWhile_isWordChar (cs : Text) :
    (cs.dropWhile isWordChar).head?.any isWordChar = false := by
  have hnot := List.head?_dropWhile_not isWordChar cs
  cases hhead : (cs.dropWhile isWordChar).head? with
  | none => rfl
  | some c =>
    rw [hhead] at hnot
    exact hnot

/-- **The words of a line** stand in it. -/
theorem exists_stands_of_mem_runs {offset s : Nat} {line w : Text} (h : (s, w) ∈ runs offset line) :
    ∃ a b, Stands line a w b ∧ s = offset + byteLen a := by
  fun_induction runs offset line with
  | case1 => simp at h
  | case2 offset c cs hc word ih =>
    have hword : ∀ d ∈ word, isWordChar d = true := by
      intro d hd
      rcases List.mem_cons.mp hd with rfl | hd
      · exact hc
      · exact List.mem_takeWhile_imp hd
    have hcut : c :: cs = word ++ cs.dropWhile isWordChar := by
      rw [List.cons_append, List.takeWhile_append_dropWhile]
    have hhead := head?_dropWhile_isWordChar cs
    rcases List.mem_cons.mp h with heq | hmem
    · obtain ⟨rfl, rfl⟩ := Prod.mk.inj heq
      exact ⟨[], cs.dropWhile isWordChar,
        ⟨by rw [List.nil_append, hcut], by simp [word], hword, rfl, hhead⟩, rfl⟩
    · obtain ⟨a, b, hstands, rfl⟩ := ih hmem
      -- Behind the first word there is something before the next one.
      have ha : a ≠ [] := by
        rintro rfl
        obtain ⟨d, ds, hw⟩ := List.exists_cons_of_ne_nil hstands.ne_nil
        rw [hstands.line_eq, hw] at hhead
        have hd := hstands.inside d (by simp [hw])
        simp [hd] at hhead
      refine ⟨word ++ a, b, ⟨?_, hstands.ne_nil, hstands.inside, ?_, hstands.behind⟩, ?_⟩
      · rw [hcut, hstands.line_eq]
        simp
      · rw [List.getLast?_append_of_ne_nil _ ha]
        exact hstands.before
      · rw [byteLen_append, Nat.add_assoc]
  | case3 offset c cs hc ih =>
    obtain ⟨a, b, hstands, rfl⟩ := ih h
    refine ⟨c :: a, b, ⟨?_, hstands.ne_nil, hstands.inside, ?_, hstands.behind⟩, ?_⟩
    · rw [hstands.line_eq]
      simp
    · have hbefore := hstands.before
      rw [List.getLast?_cons, Option.any_some]
      cases hlast : a.getLast? with
      | none => simpa using hc
      | some d =>
        rw [hlast] at hbefore
        exact hbefore
    · rw [byteLen_cons, Nat.add_assoc]

/-- **No character of a word is left out**: some word goes over it. -/
theorem exists_run_over_char (offset : Nat) (line : Text) {c : Char} (hc : isWordChar c = true) :
    ∀ u v : Text, line = u ++ c :: v → ∃ s w, (s, w) ∈ runs offset line ∧
      s ≤ offset + byteLen u ∧ offset + byteLen u + c.utf8Size ≤ s + byteLen w := by
  fun_induction runs offset line with
  | case1 =>
    intro u v hline
    simp at hline
  | case2 offset d cs hd word ih =>
    intro u v hline
    have hcut : word ++ cs.dropWhile isWordChar = u ++ c :: v := by
      rw [← hline, List.cons_append, List.takeWhile_append_dropWhile]
    rcases List.append_eq_append_iff.mp hcut with ⟨m, rfl, hm⟩ | ⟨m, hm, hm'⟩
    · obtain ⟨s, w, hmem, hle, hge⟩ := ih m v hm
      rw [byteLen_append, ← Nat.add_assoc]
      exact ⟨s, w, List.mem_cons_of_mem _ hmem, hle, hge⟩
    · cases m with
      | nil =>
        -- The character would be the first behind the word, and the word would go on.
        have hhead := head?_dropWhile_isWordChar cs
        rw [← List.nil_append (cs.dropWhile isWordChar), ← hm'] at hhead
        simp [hc] at hhead
      | cons e m =>
        obtain ⟨rfl, rfl⟩ := List.cons.inj hm'
        refine ⟨offset, word, List.mem_cons_self, Nat.le_add_right _ _, ?_⟩
        rw [hm, byteLen_append, byteLen_cons]
        omega
  | case3 offset d cs hd ih =>
    intro u v hline
    cases u with
    | nil =>
      obtain ⟨rfl, rfl⟩ := List.cons.inj hline
      exact absurd hc hd
    | cons e u =>
      obtain ⟨rfl, hcs⟩ := List.cons.inj hline
      obtain ⟨s, w, hmem, hle, hge⟩ := ih u v hcs
      rw [byteLen_cons, ← Nat.add_assoc]
      exact ⟨s, w, hmem, hle, hge⟩

/-- A caret that is touched is at a word that stands in the line, or at an end of it. -/
theorem exists_stands_of_touched {line : Text} {caret : Nat} (h : Touched line.toBytes caret) :
    ∃ a w b, Stands line a w b ∧ byteLen a ≤ caret ∧ caret ≤ byteLen a + byteLen w := by
  obtain ⟨i, hi, hword⟩ := h
  obtain ⟨u, c, v, hline, hc, hle, hlt⟩ := exists_char_of_wordAt hword
  obtain ⟨s, w, hmem, hstart, hstop⟩ := exists_run_over_char 0 line hc u v hline
  obtain ⟨a, b, hstands, rfl⟩ := exists_stands_of_mem_runs hmem
  exact ⟨a, w, b, hstands, by omega, by omega⟩

/-- Two words that stand in a line and touch the same caret are one. -/
theorem Stands.unique {line a w b a' w' b' : Text} {caret : Nat} (h : Stands line a w b)
    (h' : Stands line a' w' b') (hstart : byteLen a ≤ caret) (hstop : caret ≤ byteLen a + byteLen w)
    (hstart' : byteLen a' ≤ caret) (hstop' : caret ≤ byteLen a' + byteLen w') :
    byteLen a' = byteLen a ∧ w' = w := by
  obtain ⟨hs, he⟩ := (h.run hstart hstop).unique (h'.run hstart' hstop')
  have hw := slice_append a w b
  have hw' := slice_append a' w' b'
  rw [← h.line_eq] at hw
  rw [← h'.line_eq, he, hs] at hw'
  exact ⟨hs, hw'.symm.trans hw⟩

/-- What is found in a line are the longest runs of characters of words in it, each with the offset
of its start. -/
def YieldsRuns (find : Text → List (Nat × Text)) : Prop :=
  ∀ line s w, (s, w) ∈ find line ↔ ∃ a b, Stands line a w b ∧ s = byteLen a

/-- **The scan of a line** finds its longest runs. -/
theorem yieldsRuns_runs : YieldsRuns (runs 0) := by
  intro line s w
  constructor
  · intro hmem
    simpa using exists_stands_of_mem_runs hmem
  · rintro ⟨a, b, hstands, rfl⟩
    -- The scan finds a word over the first character of this one, and the two meet there.
    obtain ⟨c, cs, rfl⟩ := List.exists_cons_of_ne_nil hstands.ne_nil
    obtain ⟨s', w', hmem, hstart, hstop⟩ := exists_run_over_char 0 line
      (hstands.inside c (by simp)) a (cs ++ b) (by simp [hstands.line_eq])
    obtain ⟨a', b', hstands', rfl⟩ := exists_stands_of_mem_runs hmem
    simp only [Nat.zero_add] at hmem hstart hstop
    obtain ⟨hs, rfl⟩ := hstands.unique hstands' (Nat.le_refl _) (Nat.le_add_right _ _) hstart
      (by omega)
    rwa [hs] at hmem

/-! ### The word at a position -/

/-- A range whose ends are where the parts of a text meet takes out what is between. -/
theorem sliceRange_parts (index : LineIndex) (r : Range) (a b c : Text)
    (hstart : index.offsetAt r.start = byteLen a)
    (hstop : index.offsetAt r.stop = byteLen a + byteLen b) :
    sliceRange (a ++ b ++ c) index r = b := by
  have hfirst : floorBoundary (a ++ b ++ c) (byteLen a) = byteLen a :=
    isBoundary_iff.mpr ⟨a, b ++ c, List.append_assoc a b c, rfl⟩
  have hsecond : floorBoundary (a ++ b ++ c) (byteLen a + byteLen b) = byteLen a + byteLen b :=
    isBoundary_iff.mpr ⟨a ++ b, c, rfl, byteLen_append a b⟩
  rw [sliceRange, resolveRange, hstart, hstop, hfirst, hsecond]
  simp only [Nat.min_eq_left (Nat.le_add_right _ _), Nat.max_eq_right (Nat.le_add_right _ _)]
  exact slice_append a b c

/-- A part of the text of a line is what its range takes out of the whole text. -/
theorem sliceRange_line {t : Text} {i : Nat} {l : Line} (hl : (Line.split t)[i]? = some l)
    {a w b : Text} (hbody : l.body = a ++ w ++ b) :
    t.sliceRange (LineIndex.ofText t) ⟨⟨i, byteLen a⟩, ⟨i, byteLen a + byteLen w⟩⟩ = w := by
  have hi := (List.getElem?_eq_some_iff.mp hl).choose
  have hparts : t = Line.concat ((Line.split t).take i) ++ a ++ w
      ++ (b ++ (l.delimiter.text ++ Line.concat ((Line.split t).drop (i + 1)))) := by
    conv_lhs => rw [← Line.concat_split t, ← Line.concat_around hl, hbody]
    simp
  have hslice := sliceRange_parts (LineIndex.ofText t)
    ⟨⟨i, byteLen a⟩, ⟨i, byteLen a + byteLen w⟩⟩
    (Line.concat ((Line.split t).take i) ++ a) w
    (b ++ (l.delimiter.text ++ Line.concat ((Line.split t).drop (i + 1))))
    (by rw [LineIndex.offsetAt_of_lt t hi, byteLen_append, Line.startOf])
    (by rw [LineIndex.offsetAt_of_lt t hi, byteLen_append, Line.startOf, Nat.add_assoc])
  rwa [← hparts] at hslice

/-- What is found at a caret in a line of the text with this content: nothing if the caret is not
touched, and else the one longest run there is. -/
def Finds (t : Text) (line : Nat) (content : Text) (caret : Nat) : Option Word → Prop
  | none => ¬ Touched content.toBytes caret
  | some w => Touched content.toBytes caret ∧ ∃ start stop,
      w.range = ⟨⟨line, start⟩, ⟨line, stop⟩⟩ ∧ Run content.toBytes caret start stop ∧
      (∀ start' stop', Run content.toBytes caret start' stop' → start' = start ∧ stop' = stop) ∧
      content.slice? start stop = some w.text ∧
      t.sliceRange (LineIndex.ofText t) w.range = w.text

/-- **Whatever finds the longest runs of a line** finds the one at the caret, if there is one. The
order in which the runs are found does not matter, since the caret touches only one. -/
theorem YieldsRuns.finds {find : Text → List (Nat × Text)} (hfind : YieldsRuns find) {t : Text}
    {p : Position} {l : Line}
    (hl : (Line.split t)[min p.line (LineIndex.ofText t).lastLine]? = some l) :
    Finds t (min p.line (LineIndex.ofText t).lastLine) l.body (min p.character (byteLen l.body))
      (atWith? find t (LineIndex.ofText t) p) := by
  have hcontent : t.lineAt (LineIndex.ofText t) (min p.line (LineIndex.ofText t).lastLine)
      = l.body := by
    refine lineAt_ofText ?_
    rwa [Nat.min_eq_left (Nat.min_le_right _ _)]
  rw [atWith?]
  simp only [hcontent]
  generalize min p.line (LineIndex.ofText t).lastLine = line at hl ⊢
  generalize min p.character (byteLen l.body) = caret
  generalize hfound : (find l.body).find? _ = found
  cases found with
  | none =>
    intro htouched
    obtain ⟨a, w, b, hstands, hstart, hstop⟩ := exists_stands_of_touched htouched
    have hmem : (byteLen a, w) ∈ find l.body := (hfind _ _ _).mpr ⟨a, b, hstands, rfl⟩
    have hnot := List.find?_eq_none.mp hfound _ hmem
    simp [hstart, hstop] at hnot
  | some found =>
    obtain ⟨s, w⟩ := found
    obtain ⟨a, b, hstands, rfl⟩ := (hfind _ _ _).mp (List.mem_of_find?_eq_some hfound)
    have hcaret := List.find?_some hfound
    simp only [Bool.and_eq_true, decide_eq_true_eq] at hcaret
    have hrun := hstands.run hcaret.1 hcaret.2
    have hpos := hstands.byteLen_pos
    refine ⟨hrun.touched (by omega), byteLen a, byteLen a + byteLen w, rfl, hrun,
      fun start' stop' h => hrun.unique h, ?_, sliceRange_line hl hstands.line_eq⟩
    rw [hstands.line_eq]
    exact slice?_parts a w b

/-- **The word at a position** is the one longest run of bytes of words that the position touches in
the text of its line, wherever the position is: past the end of the line it counts as the end, on a
line that does not exist as one on the last. Nothing is found exactly if neither the byte before the
position nor the one at it belongs to a word. The range that is given takes the word out of the
text. The same is found with anything else that finds the longest runs of a line. -/
theorem at_finds_run (t : Text) (p : Position) :
    ∃ l, (Line.split t)[min p.line (LineIndex.ofText t).lastLine]? = some l ∧
      Finds t (min p.line (LineIndex.ofText t).lastLine) l.body
        (min p.character (byteLen l.body)) (at? t (LineIndex.ofText t) p) ∧
      ∀ find, YieldsRuns find → Finds t (min p.line (LineIndex.ofText t).lastLine) l.body
        (min p.character (byteLen l.body)) (atWith? find t (LineIndex.ofText t) p) := by
  have hlt := LineIndex.min_lastLine_lt t p.line
  have hl := List.getElem?_eq_getElem hlt
  exact ⟨_, hl, yieldsRuns_runs.finds hl, fun find hfind => hfind.finds hl⟩

/-- A caret right behind a word, on a line that does not exist, with the words found from the last
to the first. -/
theorem at_finds_run_backwards :
    let find := fun line => (runs 0 line).reverse
    let t : Text := ['é', '_', '1', ' ', 'b']
    YieldsRuns find ∧
      atWith? find t (LineIndex.ofText t) ⟨9, 4⟩ = some ⟨['_', '1'], ⟨⟨0, 2⟩, ⟨0, 4⟩⟩⟩ := by
  intro find t
  have hfind : YieldsRuns find := by
    intro line s w
    rw [List.mem_reverse]
    exact yieldsRuns_runs line s w
  obtain ⟨l, hl, -, hall⟩ := at_finds_run t ⟨9, 4⟩
  obtain rfl : ⟨t, .eof⟩ = l := Option.some.inj hl
  have hfinds : Finds t 0 t 4 (atWith? find t (LineIndex.ofText t) ⟨9, 4⟩) := hall find hfind
  have hrun : Run t.toBytes 4 2 4 := by
    refine ⟨by decide, by decide, fun i hi hi' => ?_, fun i hi => ?_, by decide⟩
    · obtain rfl | rfl : i = 2 ∨ i = 3 := by omega
      · decide
      · decide
    · obtain rfl : i = 1 := by omega
      decide
  refine ⟨hfind, ?_⟩
  cases hfound : atWith? find t (LineIndex.ofText t) ⟨9, 4⟩ with
  | none =>
    rw [hfound] at hfinds
    exact absurd (hrun.touched (by decide)) hfinds
  | some w =>
    rw [hfound] at hfinds
    obtain ⟨-, start, stop, hrange, -, hunique, htext, -⟩ := hfinds
    obtain ⟨rfl, rfl⟩ := hunique 2 4 hrun
    have hslice : t.slice? 2 4 = some ['_', '1'] := by decide
    obtain ⟨text, range⟩ := w
    obtain rfl : ['_', '1'] = text := Option.some.inj (hslice.symm.trans htext)
    rw [show range = _ from hrange]

end Newline.Word
