/-
Places in the editor and offsets, there and back.

An offset becomes a line and a column in units, as 32-bit words; a place in the editor becomes
an offset. On the way a place is moved into a line, out of a terminator and out of a character.

* `Editor.toNat_coordOfNat` — numbers that fit are coordinates as they are;
* `Document.positionAt_of_holds`, `Document.offsetAt_eq` — both ways on a given line;
* `Document.offsetAt_positionAt` — where an offset has moved to, there and back;
* `Document.positionAt_mono` — later offsets have later places;
* `Document.positions_round_trip` — both round trips, and the one through the LF form.
-/
import Newline.Proofs.Pairs
import Newline.Proofs.Remapping
import Newline.Proofs.Units

namespace Newline

/-! ### Coordinates -/

namespace Editor

theorem toNat_coordOfNat {n : Nat} (h : n < UInt32.size) : (coordOfNat n).toNat = n := by
  rw [coordOfNat, UInt32.ofNatClamp, dif_pos h, UInt32.toNat_ofNatLT]

theorem Position.le_iff_toNat {p q : Position} :
    p ≤ q ↔ p.line.toNat < q.line.toNat ∨
      p.line.toNat = q.line.toNat ∧ p.character.toNat ≤ q.character.toNat := by
  rw [le_iff, UInt32.lt_iff_toNat_lt, UInt32.le_iff_toNat_le, UInt32.toNat_inj]

end Editor

open Line

/-- A text has no more terminators than bytes. -/
theorem Line.Complete.length_le {ls : List Line} (h : Complete ls) :
    ls.length ≤ Text.byteLen (concat ls) + 1 := by
  induction h with
  | last hb => simp
  | @cons l ls hb hd hls ih =>
    have hpos := Delimiter.byteLen_text_pos hd
    rw [List.length_cons, concat_cons, Text.byteLen_append, byteLen_text]
    omega

theorem Text.not_inPair_normalize_lf (t : Text) (x : Nat) :
    ¬ InPair (t.normalize (.fixed .lf)) x := by
  intro hpair
  obtain ⟨i, l, hl, hcrlf, -⟩ := hpair.exists_line
  rw [split_normalize, List.getElem?_map] at hl
  obtain ⟨k, -, rfl⟩ := Option.map_eq_some_iff.mp hl
  exact k.delimiter_withEnding_lf_ne hcrlf

namespace Document

variable (version : Int) {t : Text} (enc : Encoding) {i x : Nat} {l : Line}

/-! ### On a given line -/

theorem lineText_eq (hl : (split t)[i]? = some l) : (ofText version t enc).lineText i = l.body := by
  have hi := (List.getElem?_eq_some_iff.mp hl).choose
  refine Text.lineAt_ofText (t := t) ?_
  rw [LineIndex.lastLine_ofText, Nat.min_eq_left (by omega), hl]

/-- **The place of an offset**: its line, and the column in the text of the line. -/
theorem positionAt_of_holds (hl : (split t)[i]? = some l)
    (h : Holds (split t) i (min x t.byteLen)) :
    (ofText version t enc).positionAt x
      = ⟨Editor.coordOfNat i, Editor.coordOfNat
          (enc.unitsOfByte l.body (min x t.byteLen - startOf (split t) i))⟩ := by
  have hlast := LineIndex.lastLine_ofText t
  have hi := h.lt
  show (ofText version t enc).toEditor ((LineIndex.ofText t).positionAt (min x t.byteLen)) = _
  rw [LineIndex.positionAt_ofText t h.lt h.start_le h.lt_next]
  have hmin : min i (ofText version t enc).index.lastLine = i := Nat.min_eq_left (by
    show i ≤ (LineIndex.ofText t).lastLine
    omega)
  simp only [toEditor, hmin, lineText_eq version enc hl]
  rfl

/-- **The offset of a place**: the start of its line, and the bytes of the column. -/
theorem offsetAt_eq (p : Editor.Position)
    (hl : (split t)[min p.line.toNat (LineIndex.ofText t).lastLine]? = some l) :
    (ofText version t enc).offsetAt p
      = startOf (split t) (min p.line.toNat (LineIndex.ofText t).lastLine)
        + enc.byteOfUnits l.body p.character.toNat := by
  show (LineIndex.ofText t).offsetAt ⟨min p.line.toNat (LineIndex.ofText t).lastLine,
    enc.byteOfUnits ((ofText version t enc).lineText
      (min p.line.toNat (LineIndex.ofText t).lastLine)) p.character.toNat⟩ = _
  rw [LineIndex.offsetAt_ofText, Nat.min_eq_left (Nat.min_le_right _ _),
    lineText_eq version enc hl]

theorem exists_offsetAt (p : Editor.Position) :
    ∃ i l, (split t)[i]? = some l ∧
      (ofText version t enc).offsetAt p
        = startOf (split t) i + enc.byteOfUnits l.body p.character.toNat := by
  have hlt := LineIndex.min_lastLine_lt t p.line.toNat
  have hl := List.getElem?_eq_getElem hlt
  exact ⟨_, _, hl, offsetAt_eq version enc p hl⟩

/-! ### There and back -/

section Bounded

variable (ht : t.byteLen < UInt32.size)
include ht

theorem line_lt (hl : (split t)[i]? = some l) : i < UInt32.size := by
  have hi := (List.getElem?_eq_some_iff.mp hl).choose
  have hlen := (complete_split t).length_le
  rw [concat_split] at hlen
  omega

theorem body_lt (hl : (split t)[i]? = some l) : Text.byteLen l.body < UInt32.size := by
  have haround := congrArg Text.byteLen (concat_around hl)
  rw [concat_split, Text.byteLen_append, Text.byteLen_append] at haround
  omega

/-- The place of column `byte` of a line has the offset of the character that holds it. -/
theorem offsetAt_coord (hl : (split t)[i]? = some l) (byte : Nat) :
    (ofText version t enc).offsetAt
        ⟨Editor.coordOfNat i, Editor.coordOfNat (enc.unitsOfByte l.body byte)⟩
      = startOf (split t) i + Text.floorBoundary l.body byte := by
  have hi := (List.getElem?_eq_some_iff.mp hl).choose
  have hunits := enc.unitsOfByte_le l.body byte
  have hbody := body_lt ht hl
  have hline : min (Editor.coordOfNat i).toNat (LineIndex.ofText t).lastLine = i := by
    rw [Editor.toNat_coordOfNat (line_lt ht hl), LineIndex.lastLine_ofText]
    omega
  rw [offsetAt_eq version enc _ (by rw [hline]; exact hl), hline,
    Editor.toNat_coordOfNat (by omega), enc.byteOfUnits_unitsOfByte]

/-- **Where an offset has moved to**, there and back: out of a pair to its front, and out of a
character to its start. -/
theorem offsetAt_positionAt (x : Nat) :
    (ofText version t enc).offsetAt ((ofText version t enc).positionAt x)
      = if t.InPair (min x t.byteLen) then min x t.byteLen - 1
        else t.floorBoundary (min x t.byteLen) := by
  obtain ⟨i, hholds⟩ := exists_holds t (min x t.byteLen)
  obtain ⟨l, hl⟩ := hholds.exists_line
  have hstart := hholds.start_le
  rw [positionAt_of_holds version enc hl hholds, offsetAt_coord version enc ht hl]
  rcases hholds.within (complete_split t) hl (by rw [concat_split]; omega) with hin | ⟨hcrlf, hpair⟩
  · -- In the text of the line, boundaries are those of the text.
    have hy : min x t.byteLen - startOf (split t) i ≤ Text.byteLen l.body := by omega
    have hnot := Text.not_inPair_line hl hy
    have hfloor := Text.floorBoundary_line hl hy
    rw [show startOf (split t) i + (min x t.byteLen - startOf (split t) i) = min x t.byteLen by
      omega] at hnot hfloor
    rw [if_neg hnot, hfloor]
  · -- Between the two characters of the pair, the column is that of the end of the line.
    have hfloor : Text.floorBoundary l.body (Text.byteLen l.body + 1) = Text.byteLen l.body := by
      rw [Text.floorBoundary, Text.takeBytes_of_le (Nat.le_succ _)]
    rw [if_pos ((Text.inPair_iff_of_holds hl hholds).mpr ⟨hcrlf, hpair⟩), hpair,
      show startOf (split t) i + Text.byteLen l.body + 1 - startOf (split t) i
        = Text.byteLen l.body + 1 by omega, hfloor]
    rfl

/-- **Later offsets have later places.** -/
theorem positionAt_mono {x y : Nat} (h : x ≤ y) :
    (ofText version t enc).positionAt x ≤ (ofText version t enc).positionAt y := by
  obtain ⟨i, hx⟩ := exists_holds t (min x t.byteLen)
  obtain ⟨j, hy⟩ := exists_holds t (min y t.byteLen)
  obtain ⟨l, hl⟩ := hx.exists_line
  obtain ⟨m, hm⟩ := hy.exists_line
  have hle : min x t.byteLen ≤ min y t.byteLen := by omega
  have hij := hx.mono hy hle
  rw [positionAt_of_holds version enc hl hx, positionAt_of_holds version enc hm hy,
    Editor.Position.le_iff_toNat]
  simp only [Editor.toNat_coordOfNat (line_lt ht hl), Editor.toNat_coordOfNat (line_lt ht hm)]
  by_cases hlt : i < j
  · exact Or.inl hlt
  · -- On one line, the columns are in order.
    obtain rfl : i = j := by omega
    obtain rfl : l = m := Option.some.inj (hl.symm.trans hm)
    have hbody := body_lt ht hl
    have hlow := enc.unitsOfByte_le l.body (min x t.byteLen - startOf (split t) i)
    have hhigh := enc.unitsOfByte_le l.body (min y t.byteLen - startOf (split t) i)
    refine Or.inr ⟨rfl, ?_⟩
    rw [Editor.toNat_coordOfNat (by omega), Editor.toNat_coordOfNat (by omega)]
    exact enc.unitsOfByte_mono l.body (by omega)

end Bounded

/-! ### Offsets of places -/

theorem isBoundary_offsetAt (p : Editor.Position) :
    t.IsBoundary ((ofText version t enc).offsetAt p) := by
  obtain ⟨i, l, hl, hoffset⟩ := exists_offsetAt (t := t) version enc p
  rw [hoffset, Text.isBoundary_line_iff hl (enc.byteOfUnits_le l.body _)]
  exact enc.isBoundary_byteOfUnits l.body _

theorem not_inPair_offsetAt (p : Editor.Position) :
    ¬ t.InPair ((ofText version t enc).offsetAt p) := by
  obtain ⟨i, l, hl, hoffset⟩ := exists_offsetAt (t := t) version enc p
  rw [hoffset]
  exact Text.not_inPair_line hl (enc.byteOfUnits_le l.body _)

theorem offsetAt_positionAt_of_boundary (ht : t.byteLen < UInt32.size) (hx : t.IsBoundary x)
    (hpair : ¬ t.InPair x) :
    (ofText version t enc).offsetAt ((ofText version t enc).positionAt x) = x := by
  rw [offsetAt_positionAt version enc ht, Nat.min_eq_left hx.le_byteLen, if_neg hpair]
  exact hx

theorem offsetAt_positionAt_inside (ht : t.byteLen < UInt32.size) {a b : Text} {c : Char}
    (heq : t = a ++ c :: b) (hlow : a.byteLen < min x t.byteLen)
    (hhigh : min x t.byteLen < a.byteLen + c.utf8Size) :
    (ofText version t enc).offsetAt ((ofText version t enc).positionAt x) = a.byteLen := by
  have hfloor : t.floorBoundary (min x t.byteLen) = a.byteLen := by
    have hinside := Text.floorBoundary_inside a b
      (show min x t.byteLen - a.byteLen < c.utf8Size by omega)
    rwa [← heq, show a.byteLen + (min x t.byteLen - a.byteLen) = min x t.byteLen by omega]
      at hinside
  -- What lies inside a character is no boundary, so it is not inside a pair.
  have hnot : ¬ t.InPair (min x t.byteLen) := by
    intro hpair
    have hbound : t.floorBoundary (min x t.byteLen) = min x t.byteLen := hpair.isBoundary
    omega
  rw [offsetAt_positionAt version enc ht, if_neg hnot, hfloor]

/-- What a document says about places in the editor and offsets, there and back. -/
structure RoundTrips (d : Document) : Prop where
  boundary : ∀ x, d.text.IsBoundary (min x d.text.byteLen) →
    ¬ d.text.InPair (min x d.text.byteLen) →
      d.offsetAt (d.positionAt x) = min x d.text.byteLen
  pair : ∀ x, d.text.InPair (min x d.text.byteLen) →
    d.offsetAt (d.positionAt x) = min x d.text.byteLen - 1
  inside : ∀ (x : Nat) (a b : Text) (c : Char), d.text = a ++ c :: b →
    a.byteLen < min x d.text.byteLen → min x d.text.byteLen < a.byteLen + c.utf8Size →
      d.offsetAt (d.positionAt x) = a.byteLen
  position_mono : ∀ x y, x ≤ y → d.positionAt x ≤ d.positionAt y
  place_boundary : ∀ p, d.offsetAt p ≤ d.text.byteLen ∧ d.text.IsBoundary (d.offsetAt p)
  place_not_inPair : ∀ p, ¬ d.text.InPair (d.offsetAt p)
  place : ∀ p, d.offsetAt (d.positionAt (d.offsetAt p)) = d.offsetAt p
  lf : ∀ o, d.lfText.IsBoundary o → d.editorToLfOffset (d.lfOffsetToEditor o) = o

/-- **Places and offsets, there and back.** For a text whose lines and columns fit their words, an
offset comes back as the nearest place before it that the editor can name, and a place as one
that has the same offset; the order of offsets is kept, and offsets of the LF form come back as
they are. -/
theorem positions_round_trip (ht : t.byteLen < UInt32.size) :
    RoundTrips (ofText version t enc) := by
  have hback := offsetAt_positionAt version enc ht
  refine ⟨?_, ?_, fun x a b c => offsetAt_positionAt_inside version enc ht,
    fun x y => positionAt_mono version enc ht, ?_, not_inPair_offsetAt version enc, ?_, ?_⟩
  · intro x hx hpair
    exact (hback x).trans ((if_neg hpair).trans hx)
  · intro x hpair
    exact (hback x).trans (if_pos hpair)
  · intro p
    exact ⟨(isBoundary_offsetAt version enc p).le_byteLen, isBoundary_offsetAt version enc p⟩
  · intro p
    exact offsetAt_positionAt_of_boundary version enc ht (isBoundary_offsetAt version enc p)
      (not_inPair_offsetAt version enc p)
  · -- The LF form is a text like any other, without pairs.
    intro o ho
    have hlen := CrlfMarks.byteLen_eq t
    rw [lfOffsetToEditor_eq version version t enc, editorToLfOffset_eq version version t enc]
    exact offsetAt_positionAt_of_boundary version enc (by omega) ho
      (t.not_inPair_normalize_lf o)

/-- Offsets inside a pair, inside a character of two units, and past the end. -/
theorem positions_round_trip_mixed :
    let t : Text := ['é', '\r', '\n', '😀']
    t.byteLen < UInt32.size ∧ RoundTrips (ofText 1 t .utf16) ∧
      (ofText 1 t .utf16).offsetAt ((ofText 1 t .utf16).positionAt 3) = 2 ∧
      (ofText 1 t .utf16).offsetAt ((ofText 1 t .utf16).positionAt 6) = 4 ∧
      (ofText 1 t .utf16).offsetAt ((ofText 1 t .utf16).positionAt 9) = 8 := by
  intro t
  have htrip : RoundTrips (ofText 1 t .utf16) := positions_round_trip 1 .utf16 (by decide)
  refine ⟨by decide, htrip, ?_, ?_, ?_⟩
  · exact htrip.pair 3 (by decide)
  · exact htrip.inside 6 ['é', '\r', '\n'] [] '😀' rfl (by decide) (by decide)
  · exact htrip.boundary 9 (by decide) (by decide)

end Document

end Newline
