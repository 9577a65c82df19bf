/-
Edits and the LF form.

The edits of an editor may be made in a text or in its LF form: without bare carriage returns, the
second result is the LF form of the first. Both runs take the same decisions, since the two
documents have the same lines, and they cut the two texts at places that correspond.

* `Text.Paired` — every carriage return is the first half of a pair;
* `Text.normalize_of_paired` — the LF form of such a text is the text without them;
* `Text.Seam` — an offset of a text and the offset of the same place in its LF form;
* `Text.seam_line` — places in the texts of lines are seams;
* `Edit.filter_replaceAll` — replacing between seams, in both texts;
* `Document.applyEdits_normalize` — edits and the LF form commute.
-/
import Newline.Proofs.RoundTrip
import Newline.Proofs.Splicing

namespace Newline

open Line

/-! ### Carriage returns in pairs only -/

namespace Text

/-- Every carriage return has a line feed behind it. -/
def Paired (t : Text) : Prop := ∀ a b, t = a ++ '\r' :: b → ∃ c, b = '\n' :: c

variable {s t : Text}

theorem paired_of_no_cr (h : '\r' ∉ t) : Paired t := by
  intro a b heq
  exact absurd (by simp [heq]) h

/-- No pair is made or broken where two such texts meet. -/
theorem Paired.append (hs : Paired s) (ht : Paired t) : Paired (s ++ t) := by
  intro a b heq
  rcases List.append_eq_append_iff.mp heq with ⟨m, rfl, hm⟩ | ⟨m, rfl, hm⟩
  · exact ht m b hm
  · cases m with
    | nil => exact ht [] b hm.symm
    | cons c cs =>
      -- The carriage return is one of the first text, and so is the line feed behind it.
      obtain ⟨rfl, rfl⟩ := List.cons.inj hm
      obtain ⟨ds, rfl⟩ := hs a cs rfl
      exact ⟨ds ++ t, rfl⟩

theorem Paired.of_append_right (h : Paired (s ++ t)) : Paired t := by
  intro a b heq
  exact h (s ++ a) b (by rw [heq, List.append_assoc])

theorem Plain.no_cr (h : Plain t) : '\r' ∉ t := fun hmem => (h _ hmem).1 rfl

theorem filter_of_no_cr (h : '\r' ∉ t) : t.filter (· ≠ '\r') = t := by
  refine List.filter_eq_self.mpr fun c hc => ?_
  have hne : c ≠ '\r' := fun heq => h (heq ▸ hc)
  simpa using hne

/-- The carriage returns of a line are those of its terminator. -/
theorem paired_text {l : Line} (hb : l.body.Plain) (hd : l.delimiter ≠ .cr) : Paired l.text := by
  refine (paired_of_no_cr hb.no_cr).append ?_
  cases hl : l.delimiter with
  | lf => exact paired_of_no_cr (by simp)
  | crlf =>
    intro a b heq
    match a, heq with
    | [], heq => exact ⟨[], by simpa using heq.symm⟩
    | [c], heq => simp at heq
    | c :: d :: cs, heq => simp at heq
  | cr => exact absurd hl hd
  | eof => exact paired_of_no_cr (by simp)

theorem paired_concat {ls : List Line} (hb : ∀ l ∈ ls, l.body.Plain)
    (hd : ∀ l ∈ ls, l.delimiter ≠ .cr) : Paired (concat ls) := by
  induction ls with
  | nil => exact paired_of_no_cr (by simp)
  | cons l ls ih =>
    rw [concat_cons]
    refine (paired_text (hb l (by simp)) (hd l (by simp))).append ?_
    exact ih (fun m hm => hb m (by simp [hm])) fun m hm => hd m (by simp [hm])

/-- A line loses the carriage return of its pair, if it has one. -/
theorem filter_text {l : Line} (hb : l.body.Plain) (hd : l.delimiter ≠ .cr) :
    l.text.filter (· ≠ '\r') = (l.withEnding .lf).text := by
  rw [text, List.filter_append, filter_of_no_cr hb.no_cr, text, body_withEnding,
    delimiter_withEnding]
  cases hl : l.delimiter with
  | lf => rfl
  | crlf => rfl
  | cr => exact absurd hl hd
  | eof => rfl

theorem filter_concat {ls : List Line} (hb : ∀ l ∈ ls, l.body.Plain)
    (hd : ∀ l ∈ ls, l.delimiter ≠ .cr) :
    (concat ls).filter (· ≠ '\r') = concat (ls.map (withEnding .lf)) := by
  induction ls with
  | nil => rfl
  | cons l ls ih =>
    rw [concat_cons, List.filter_append, filter_text (hb l (by simp)) (hd l (by simp)),
      ih (fun m hm => hb m (by simp [hm])) fun m hm => hd m (by simp [hm])]
    rfl

/-- **Carriage returns in pairs only**: no line ends in a bare one. -/
theorem paired_iff : Paired t ↔ ∀ l ∈ split t, l.delimiter ≠ .cr := by
  constructor
  · intro h
    rw [← tally_eq_zero]
    induction t using scanInduction with
    | nil => rfl
    | crlf cs ih =>
      have htail : Paired cs := Paired.of_append_right (s := ['\r', '\n']) h
      simp [split, ih htail]
    | cr cs hcs ih =>
      obtain ⟨ds, rfl⟩ := h [] cs rfl
      exact absurd rfl (hcs ds)
    | lf cs ih =>
      have htail : Paired cs := Paired.of_append_right (s := ['\n']) h
      simp [split, ih htail]
    | char c cs hcr hlf ih =>
      have htail : Paired cs := Paired.of_append_right (s := [c]) h
      rw [split_cons_char hcr hlf, tally_consHead]
      exact ih htail
  · intro h
    have hpaired := paired_concat (complete_split t).plain h
    rwa [concat_split] at hpaired

/-- **The LF form** of a text without bare carriage returns is the text without any. -/
theorem normalize_of_paired (h : Paired t) :
    t.normalize (.fixed .lf) = t.filter (· ≠ '\r') := by
  rw [normalize_fixed, ← filter_concat (complete_split t).plain (paired_iff.mp h), concat_split]

/-! ### The same place in both texts -/

/-- The offset `x` of the text and the offset `y` of its LF form are the same place: the text
before the first, which does not end inside a pair, is as long as `y` without its carriage
returns. -/
structure Seam (t : Text) (x y : Nat) : Prop where
  boundary : IsBoundary t x
  paired : Paired (takeBytes x t)
  byteLen_eq : byteLen ((takeBytes x t).filter (· ≠ '\r')) = y

theorem seam_zero (t : Text) : Seam t 0 0 := by
  refine ⟨isBoundary_zero t, ?_, ?_⟩
  · rw [takeBytes_zero]
    exact paired_of_no_cr (by simp)
  · rw [takeBytes_zero]
    rfl

theorem seam_byteLen (h : Paired t) : Seam t (byteLen t) (byteLen (t.filter (· ≠ '\r'))) := by
  have htake : takeBytes (byteLen t) t = t := takeBytes_of_le (Nat.le_refl _)
  refine ⟨isBoundary_byteLen t, ?_, ?_⟩
  · rwa [htake]
  · rw [htake]

/-- **Between two seams** lies the same text, but for the carriage returns of its pairs. -/
theorem Seam.slice {x x' y y' : Nat} (h : Seam t x y) (h' : Seam t x' y') (hle : x ≤ x') :
    Paired (t.slice x x') ∧
      (t.slice x x').filter (· ≠ '\r') = Text.slice (t.filter (· ≠ '\r')) y y' := by
  obtain ⟨hx, -, hy⟩ := h
  obtain ⟨hx', hpaired, hy'⟩ := h'
  obtain ⟨a, b, c, rfl, rfl, rfl⟩ := exists_three_parts hx hx' hle
  have hfirst : takeBytes (byteLen a) (a ++ b ++ c) = a := by
    rw [List.append_assoc, takeBytes_append]
  have hboth : takeBytes (byteLen a + byteLen b) (a ++ b ++ c) = a ++ b := by
    rw [← byteLen_append, takeBytes_append]
  rw [hfirst] at hy
  rw [hboth] at hpaired hy'
  rw [List.filter_append, byteLen_append] at hy'
  constructor
  · rw [slice_append]
    exact hpaired.of_append_right
  · rw [slice_append, List.filter_append, List.filter_append, ← hy, ← hy', slice_append]

/-- **Places in the text of a line are seams**, whatever terminators the lines before have. -/
theorem seam_line (h : Paired t) {i ch : Nat} {l : Line} (hl : (split t)[i]? = some l)
    (hch : IsBoundary l.body ch) :
    Seam t (startOf (split t) i + ch)
      (startOf ((split t).map (withEnding .lf)) i + ch) := by
  have hle : ch ≤ byteLen l.body := hch.le_byteLen
  have hplain : ∀ m ∈ (split t).take i, m.body.Plain :=
    fun m hm => (complete_split t).plain m (List.mem_of_mem_take hm)
  have hcr : ∀ m ∈ (split t).take i, m.delimiter ≠ .cr :=
    fun m hm => paired_iff.mp h m (List.mem_of_mem_take hm)
  -- The text before the place: the lines before, and the first part of the line.
  have htake := takeBytes_line hl hle
  have hpart : '\r' ∉ takeBytes ch l.body := by
    have hbody := ((complete_split t).plain l (List.mem_of_getElem? hl)).no_cr
    rw [← takeBytes_append_dropBytes ch l.body, List.mem_append, not_or] at hbody
    exact hbody.1
  refine ⟨(isBoundary_line_iff hl hle).mpr hch, ?_, ?_⟩
  · rw [htake]
    exact (paired_concat hplain hcr).append (paired_of_no_cr hpart)
  · rw [htake, List.filter_append, filter_of_no_cr hpart, filter_concat hplain hcr, byteLen_append,
      startOf, List.map_take]
    exact congrArg _ hch

end Text

/-! ### Cuts in both texts -/

/-- The line exists, and the character is a boundary of its text. -/
def Position.InBody (t : Text) (p : Position) : Prop :=
  ∃ l, (split t)[p.line]? = some l ∧ l.body.IsBoundary p.character

namespace Position.InBody

variable {t : Text} {p : Position}

theorem normalize (h : p.InBody t) (e : Ending) : p.InBody (t.normalize (.fixed e)) := by
  obtain ⟨l, hl, hch⟩ := h
  exact ⟨l.withEnding e, by rw [split_normalize, List.getElem?_map, hl, Option.map_some], hch⟩

theorem floorBoundary_offsetAt (h : p.InBody t) :
    t.floorBoundary ((LineIndex.ofText t).offsetAt p) = startOf (split t) p.line + p.character := by
  obtain ⟨l, hl, hch⟩ := h
  obtain ⟨hlt, -⟩ := List.getElem?_eq_some_iff.mp hl
  have hlast := LineIndex.lastLine_ofText t
  rw [LineIndex.offsetAt_ofText, Nat.min_eq_left (by omega)]
  exact (Text.isBoundary_line_iff hl hch.le_byteLen).mpr hch

theorem seam (h : p.InBody t) (ht : t.Paired) :
    t.Seam (t.floorBoundary ((LineIndex.ofText t).offsetAt p))
      ((t.normalize (.fixed .lf)).floorBoundary
        ((LineIndex.ofText (t.normalize (.fixed .lf))).offsetAt p)) := by
  rw [h.floorBoundary_offsetAt, (h.normalize .lf).floorBoundary_offsetAt, split_normalize]
  obtain ⟨l, hl, hch⟩ := h
  exact Text.seam_line ht hl hch

end Position.InBody

namespace Edit

/-- **The run over both texts**: from a seam on, the two texts with all cuts replaced differ only
in the carriage returns of pairs. -/
theorem filter_replaceAll {t : Text} (ht : t.Paired) {cs : List Edit}
    (hin : ∀ c ∈ cs, c.range.start.InBody t ∧ c.range.stop.InBody t)
    (hnew : ∀ c ∈ cs, '\r' ∉ c.newText) {x y : Nat} (hseam : t.Seam x y)
    (h : Cut.Ordered t x (cs.map (cut t))) :
    (Cut.replaceAll t x (cs.map (cut t))).Paired ∧
      (Cut.replaceAll t x (cs.map (cut t))).filter (· ≠ '\r')
        = Cut.replaceAll (t.normalize (.fixed .lf)) y
            (cs.map (cut (t.normalize (.fixed .lf)))) := by
  have hlf := Text.normalize_of_paired ht
  induction cs generalizing x y with
  | nil =>
    have hrest := hseam.slice (Text.seam_byteLen ht) hseam.boundary.le_byteLen
    rwa [← hlf] at hrest
  | cons c cs ih =>
    obtain ⟨hle, hc, -, -, hrest⟩ := h
    obtain ⟨hstart, hstop⟩ := hin c (by simp)
    have hcr := hnew c (by simp)
    -- What stays before the cut, what is put there, and the run behind it.
    obtain ⟨hbefore, hbeforeLf⟩ := hseam.slice (hstart.seam ht) hle
    obtain ⟨hbehind, hbehindLf⟩ := ih (fun d hd => hin d (by simp [hd]))
      (fun d hd => hnew d (by simp [hd])) (hstop.seam ht) hrest
    rw [← hlf] at hbeforeLf
    simp only [List.map_cons, Cut.replaceAll]
    refine ⟨(hbefore.append (Text.paired_of_no_cr hcr)).append hbehind, ?_⟩
    rw [List.filter_append, List.filter_append]
    exact congrArg₂ _ (congrArg₂ _ hbeforeLf (Text.filter_of_no_cr hcr)) hbehindLf

end Edit

namespace Document

theorem SameLines.resolve {d e : Document} (h : SameLines d e) (es : List Editor.Edit) :
    d.resolve es = e.resolve es := by
  simp only [Document.resolve, ofEditorRange, h.ofEditor]

variable (version lfVersion : Int) (t : Text) (enc : Encoding)

/-- A place in the editor becomes a boundary in the text of a line. -/
theorem inBody_ofEditor (p : Editor.Position) : ((ofText version t enc).ofEditor p).InBody t := by
  have hlt := LineIndex.min_lastLine_lt t p.line.toNat
  have hl := List.getElem?_eq_getElem hlt
  refine ⟨_, hl, ?_⟩
  show Text.IsBoundary _ (enc.byteOfUnits ((ofText version t enc).lineText
    (min p.line.toNat (LineIndex.ofText t).lastLine)) p.character.toNat)
  rw [lineText_eq version enc hl]
  exact enc.isBoundary_byteOfUnits _ _

/-- **Edits and the LF form commute.** In a text without bare carriage returns, edits of an editor
that bring in none, wherever they are and however they overlap, have a result, and its LF form is
the result of the same edits in the LF form of the text. -/
theorem applyEdits_normalize (es : List Editor.Edit) (hcr : (Stats.ofText t).cr = 0)
    (hes : ∀ e ∈ es, '\r' ∉ e.newText) :
    ∃ out, (ofText version t enc).applyEdits? es = some out ∧
      (ofText lfVersion (t.normalize (.fixed .lf)) enc).applyEdits? es
        = some (out.normalize (.fixed .lf)) := by
  have ht : t.Paired := by
    rw [(Stats.ofText_eq t).2.2] at hcr
    exact Text.paired_iff.mpr (tally_eq_zero.mp hcr)
  -- The edits are the same in both documents, and so are the groups that they form.
  have hsame := (sameLines_lf version lfVersion t enc).resolve es
  have hin := Edit.forall_ends_compact
    (forall_ends_resolve version t enc (inBody_ofEditor version t enc) es)
  have hnew : ∀ c ∈ Edit.compact ((ofText version t enc).resolve es), '\r' ∉ c.newText := by
    refine Edit.forall_newText_compact (P := fun s => '\r' ∉ s) fun d hd => ?_
    obtain ⟨e, he, rfl⟩ := List.mem_map.mp hd
    exact hes e he
  have hline : ∀ e ∈ (ofText version t enc).resolve es, e.InLine t :=
    fun e he => inLine_resolve version t enc he
  have hlineLf : ∀ e ∈ (ofText version t enc).resolve es, e.InLine (t.normalize (.fixed .lf)) := by
    rw [hsame]
    exact fun e he => inLine_resolve lfVersion (t.normalize (.fixed .lf)) enc he
  obtain ⟨hordered, hrun⟩ := Edit.applyAll_eq_replaceAll hline
  obtain ⟨-, hrunLf⟩ := Edit.applyAll_eq_replaceAll hlineLf
  obtain ⟨hpaired, hfilter⟩ := Edit.filter_replaceAll ht hin hnew t.seam_zero hordered
  refine ⟨_, hrun, ?_⟩
  rw [Text.normalize_of_paired hpaired, hfilter, applyEdits?, ← hsame]
  exact hrunLf

/-- A line feed put before a pair that stays, and two edits that overlap and take out another pair,
one of them reversed and with a column past the end of its line. -/
theorem applyEdits_normalize_overlapping :
    let t : Text := ['a', '\r', '\n', 'é', '\r', '\n', '😀', 'b', '\n']
    let es : List Editor.Edit :=
      [⟨⟨⟨2, 2⟩, ⟨1, 9⟩⟩, ['x']⟩, ⟨⟨⟨1, 0⟩, ⟨2, 0⟩⟩, ['y']⟩, ⟨⟨⟨0, 7⟩, ⟨0, 7⟩⟩, ['\n']⟩]
    (Stats.ofText t).cr = 0 ∧ (∀ e ∈ es, '\r' ∉ e.newText) ∧
      (ofText 1 t .utf16).applyEdits? es = some ['a', '\n', '\r', '\n', 'x', 'b', '\n'] ∧
      (ofText 2 (t.normalize (.fixed .lf)) .utf16).applyEdits? es
        = some ['a', '\n', '\n', 'x', 'b', '\n'] := by
  intro t es
  have hcr : (Stats.ofText t).cr = 0 := by decide
  have hes : ∀ e ∈ es, '\r' ∉ e.newText := by decide
  have hnormal : ((ofText 1 t .utf16).resolve es).map Edit.normalized
      = [⟨⟨⟨1, 2⟩, ⟨2, 4⟩⟩, ['x']⟩, ⟨⟨⟨1, 0⟩, ⟨2, 0⟩⟩, ['y']⟩, ⟨⟨⟨0, 1⟩, ⟨0, 1⟩⟩, ['\n']⟩] := by
    decide
  have hsorted : (((ofText 1 t .utf16).resolve es).map Edit.normalized).mergeSort
        (fun d e => decide (d.range ≤ e.range))
      = [⟨⟨⟨0, 1⟩, ⟨0, 1⟩⟩, ['\n']⟩, ⟨⟨⟨1, 0⟩, ⟨2, 0⟩⟩, ['y']⟩, ⟨⟨⟨1, 2⟩, ⟨2, 4⟩⟩, ['x']⟩] := by
    rw [hnormal]
    simp [List.mergeSort, List.MergeSort.Internal.splitInTwo, Range.le_iff, Position.lt_iff,
      Position.le_iff]
  have hrun : (ofText 1 t .utf16).applyEdits? es
      = some ['a', '\n', '\r', '\n', 'x', 'b', '\n'] := by
    rw [applyEdits?, Edit.applyAll?, Edit.compact, hsorted]
    decide
  obtain ⟨out, hout, hlf⟩ := applyEdits_normalize 1 2 t .utf16 es hcr hes
  obtain rfl : out = ['a', '\n', '\r', '\n', 'x', 'b', '\n'] :=
    Option.some.inj (hout.symm.trans hrun)
  refine ⟨hcr, hes, hrun, hlf.trans ?_⟩
  decide

end Document

end Newline
