/-
Loops over bytes and over slices.

The scans of a text go from character to character. A loop can go over its bytes instead, with an
index that moves on behind each byte or pair; or it can look for the next terminator, cut the text
there and go on behind it. Such loops find what the scans find.

* `Text.loopBytes`, `Text.loopBytes_eq` — the loop over bytes, whatever is done at a terminator;
* `Stats.measure_eq`, `Text.loopLines_eq`, `LineIndex.build_eq` — the counts, the number of lines
  and the line starts, by that loop;
* `CrlfMarks.build_eq` — the marks, by a loop that looks for pairs only and takes the number of
  marks it has made off its index;
* `Text.loopSlices`, `Text.loopSlices_eq` — the loop by slices, whatever is done with a line;
* `Line.cut_eq`, `Text.rewrite_eq` — the lines, and a text with its terminators written anew, by
  that loop.
-/
import Newline.Proofs.Boundary
import Newline.Proofs.LineStarts
import Newline.Proofs.Stream

namespace Newline

open Chunk Text

/-! ### Bytes of terminators -/

namespace Text

theorem toBytes_eq_nil_iff {t : Text} : t.toBytes = [] ↔ t = [] := by
  cases t with
  | nil => simp
  | cons c cs =>
    obtain ⟨b, bs, hbytes⟩ := utf8EncodeChar_eq_cons c
    simp [toBytes_cons, hbytes]

theorem crByte_mem_toBytes {t : Text} : crByte ∈ t.toBytes ↔ '\r' ∈ t := by
  rw [toBytes, List.mem_flatMap]
  constructor
  · rintro ⟨c, hc, hbyte⟩
    by_contra hnot
    refine ne_crByte_of_mem (c := c) ?_ _ hbyte rfl
    rintro rfl
    exact hnot hc
  · intro h
    exact ⟨_, h, by decide⟩

theorem count_lfByte_toBytes (t : Text) : t.toBytes.count lfByte = t.count '\n' := by
  induction t with
  | nil => rfl
  | cons c cs ih =>
    rw [toBytes_cons, List.count_append, ih, List.count_cons, Nat.add_comm]
    congr 1
    by_cases hc : c = '\n'
    · subst hc
      decide
    · have hnone : lfByte ∉ String.utf8EncodeChar c := fun h => ne_lfByte_of_mem hc _ h rfl
      simp [List.count_eq_zero_of_not_mem hnone, hc]

theorem getLast?_toBytes_eq_lf_iff {t : Text} :
    t.toBytes.getLast? = some lfByte ↔ t.getLast? = some '\n' := by
  rcases List.eq_nil_or_concat t with rfl | ⟨init, c, rfl⟩
  · simp
  · obtain ⟨b, bs, hbytes⟩ := utf8EncodeChar_eq_cons c
    rw [List.concat_eq_append, toBytes_append, List.getLast?_concat, Option.some.injEq,
      toBytes_cons, toBytes_nil, List.append_nil,
      List.getLast?_append_of_ne_nil _ (by simp [hbytes])]
    constructor
    · intro hlast
      by_contra hc
      exact ne_lfByte_of_mem hc _ (List.mem_of_getLast? hlast) rfl
    · rintro rfl
      decide

/-- Behind a carriage return of its own there is no byte of a line feed. -/
theorem head?_toBytes_ne_lf {t : Text} (h : ∀ ds, t = '\n' :: ds → False) :
    t.toBytes.head? ≠ some lfByte := by
  cases t with
  | nil => simp
  | cons c cs =>
    have hc : c ≠ '\n' := fun hc => h cs (by rw [hc])
    obtain ⟨b, bs, hbytes⟩ := utf8EncodeChar_eq_cons c
    have hb := ne_lfByte_of_mem hc b (by simp [hbytes])
    simpa [toBytes_cons, hbytes] using hb

/-! ### The loop over bytes -/

section Bytes

variable {σ : Type} (visit : σ → Delimiter → Nat → σ)

/-- The loop over bytes from the index `i` on. At each terminator `visit` is told which one it is
and where it ends. A carriage return looks at the byte behind it, and a line feed there is taken
along. -/
def loopBytes (bytes : List UInt8) (i : Nat) (s : σ) : σ :=
  if h : i < bytes.length then
    if bytes[i] = crByte then
      if bytes[i + 1]? = some lfByte then loopBytes bytes (i + 2) (visit s .crlf (i + 2))
      else loopBytes bytes (i + 1) (visit s .cr (i + 1))
    else if bytes[i] = lfByte then loopBytes bytes (i + 1) (visit s .lf (i + 1))
    else loopBytes bytes (i + 1) s
  else s
termination_by bytes.length - i

/-- The same from character to character, for a text that begins at `offset`. -/
def loopChars (offset : Nat) (s : σ) : Text → σ
  | [] => s
  | '\r' :: '\n' :: cs => loopChars (offset + 2) (visit s .crlf (offset + 2)) cs
  | '\r' :: cs => loopChars (offset + 1) (visit s .cr (offset + 1)) cs
  | '\n' :: cs => loopChars (offset + 1) (visit s .lf (offset + 1)) cs
  | c :: cs => loopChars (offset + c.utf8Size) s cs

theorem loopChars_cons_char {c : Char} {cs : Text} (hcr : c ≠ '\r') (hlf : c ≠ '\n')
    (offset : Nat) (s : σ) :
    loopChars visit offset s (c :: cs) = loopChars visit (offset + c.utf8Size) s cs := by
  rw [loopChars]
  · exact fun ds h => absurd h hcr
  · exact hcr
  · exact hlf

section Steps

variable (a b : List UInt8) (s : σ)

theorem loopBytes_end : loopBytes visit a a.length s = s := by
  rw [loopBytes, dif_neg (Nat.lt_irrefl _)]

theorem loopBytes_crlf : loopBytes visit (a ++ crByte :: lfByte :: b) a.length s
    = loopBytes visit (a ++ [crByte, lfByte] ++ b) (a ++ [crByte, lfByte]).length
      (visit s .crlf (a.length + 2)) := by
  rw [loopBytes]
  simp

theorem loopBytes_cr (h : b.head? ≠ some lfByte) :
    loopBytes visit (a ++ crByte :: b) a.length s
      = loopBytes visit (a ++ [crByte] ++ b) (a ++ [crByte]).length
        (visit s .cr (a.length + 1)) := by
  have hnext : (a ++ crByte :: b)[a.length + 1]? = b.head? := by
    rw [List.getElem?_append_right (Nat.le_add_right _ _), List.head?_eq_getElem?]
    simp
  rw [loopBytes]
  simp [hnext, h]

theorem loopBytes_lf : loopBytes visit (a ++ lfByte :: b) a.length s
    = loopBytes visit (a ++ [lfByte] ++ b) (a ++ [lfByte]).length
      (visit s .lf (a.length + 1)) := by
  have hne : lfByte ≠ crByte := by decide
  rw [loopBytes]
  simp [hne]

/-- Bytes that belong to no terminator are passed over. -/
theorem loopBytes_ordinary (c : List UInt8) (h : ∀ x ∈ b, x ≠ crByte ∧ x ≠ lfByte) :
    loopBytes visit (a ++ (b ++ c)) a.length s
      = loopBytes visit (a ++ b ++ c) (a ++ b).length s := by
  induction b generalizing a with
  | nil => simp
  | cons x xs ih =>
    obtain ⟨hcr, hlf⟩ := h x (by simp)
    have hstep : loopBytes visit (a ++ (x :: xs ++ c)) a.length s
        = loopBytes visit (a ++ [x] ++ (xs ++ c)) (a ++ [x]).length s := by
      rw [loopBytes]
      simp [hcr, hlf]
    rw [hstep, ih _ fun y hy => h y (by simp [hy]), List.append_assoc a, List.singleton_append]

end Steps

/-- From wherever the bytes of a text begin, the loop does what the scan of its characters does. -/
theorem loopBytes_toBytes (a : List UInt8) (s : σ) (t : Text) :
    loopBytes visit (a ++ t.toBytes) a.length s = loopChars visit a.length s t := by
  induction t using scanInduction generalizing a s with
  | nil => rw [toBytes_nil, List.append_nil, loopBytes_end, loopChars]
  | crlf cs ih =>
    rw [toBytes_cons_cr, toBytes_cons_lf, loopBytes_crlf, ih, loopChars, List.length_append]
    rfl
  | cr cs h ih =>
    rw [toBytes_cons_cr, loopBytes_cr _ _ _ _ (head?_toBytes_ne_lf h), ih, loopChars,
      List.length_append]
    · rfl
    · exact h
  | lf cs ih =>
    rw [toBytes_cons_lf, loopBytes_lf, ih, loopChars, List.length_append]
    rfl
  | char c cs hcr hlf ih =>
    have hbytes : ∀ b ∈ String.utf8EncodeChar c, b ≠ crByte ∧ b ≠ lfByte :=
      fun b hb => ⟨ne_crByte_of_mem hcr b hb, ne_lfByte_of_mem hlf b hb⟩
    rw [toBytes_cons, loopBytes_ordinary _ _ _ _ _ hbytes, ih, loopChars_cons_char visit hcr hlf,
      List.length_append, String.length_utf8EncodeChar]

/-- **The loop over the bytes of a text** does what the scan of its characters does. -/
theorem loopBytes_eq (s : σ) (t : Text) : loopBytes visit t.toBytes 0 s = loopChars visit 0 s t :=
  loopBytes_toBytes visit [] s t

end Bytes

end Text

/-! ### Counts, lines and starts -/

namespace Stats

/-- The counts with one more terminator. -/
def visit (s : Stats) (d : Delimiter) (_ : Nat) : Stats :=
  match d with
  | .lf => { s with lf := s.lf + 1 }
  | .crlf => { s with crlf := s.crlf + 1 }
  | .cr => { s with cr := s.cr + 1 }
  | .eof => s

/-- The counts of a text, from its bytes. -/
def measure (t : Text) : Stats :=
  if t.toBytes = [] then {}
  else if crByte ∈ t.toBytes then
    { loopBytes visit t.toBytes 0 {} with terminated := t.isTerminated }
  else { lf := t.toBytes.count lfByte, terminated := t.toBytes.getLast? = some lfByte }

theorem loopChars_visit (offset : Nat) (s : Stats) (t : Text) :
    loopChars visit offset s t = scan s t := by
  induction t using scanInduction generalizing offset s with
  | nil => rfl
  | crlf cs ih => rw [loopChars, scan, ih, visit]
  | cr cs h ih =>
    rw [loopChars, scan, ih, visit]
    · exact h
    · exact h
  | lf cs ih => rw [loopChars, scan, ih, visit]
  | char c cs hcr hlf ih =>
    rw [loopChars_cons_char _ hcr hlf, ih, scan_cons_char s hcr hlf]

theorem measure_eq (t : Text) : measure t = ofText t := by
  simp only [measure, ofText, loopBytes_eq, loopChars_visit, toBytes_eq_nil_iff,
    crByte_mem_toBytes, count_lfByte_toBytes, getLast?_toBytes_eq_lf_iff, List.isEmpty_iff]

end Stats

namespace Text

/-- The number of lines, from the bytes of the text. -/
def loopLines (t : Text) : Nat := loopBytes (fun n _ _ => n + 1) t.toBytes 0 1

theorem countLines_cons_char {c : Char} {cs : Text} (hcr : c ≠ '\r') (hlf : c ≠ '\n') :
    countLines (c :: cs) = countLines cs := by
  rw [countLines]
  · exact fun ds h => absurd h hcr
  · exact hcr
  · exact hlf

theorem loopChars_succ (offset n : Nat) (t : Text) :
    loopChars (fun n _ _ => n + 1) offset (n + 1) t = n + t.countLines := by
  induction t using scanInduction generalizing offset n with
  | nil => rfl
  | crlf cs ih => rw [loopChars, countLines, ih, Nat.add_right_comm, Nat.add_assoc]
  | cr cs h ih =>
    rw [loopChars, countLines, ih, Nat.add_right_comm, Nat.add_assoc]
    · exact h
    · exact h
  | lf cs ih => rw [loopChars, countLines, ih, Nat.add_right_comm, Nat.add_assoc]
  | char c cs hcr hlf ih =>
    rw [loopChars_cons_char _ hcr hlf, ih, countLines_cons_char hcr hlf]

theorem loopLines_eq (t : Text) : t.loopLines = t.countLines := by
  rw [loopLines, loopBytes_eq, loopChars_succ 0 0, Nat.zero_add]

end Text

namespace LineIndex

/-- The index of a text, from its bytes. -/
def build (t : Text) : LineIndex where
  starts := loopBytes (fun starts _ stop => starts.push stop) t.toBytes 0 #[0]
  len := t.toBytes.length

theorem loopChars_push (offset : Nat) (starts : Array Nat) (t : Text) :
    loopChars (fun starts _ stop => starts.push stop) offset starts t
      = starts ++ (startsFrom offset t).toArray := by
  induction t using scanInduction generalizing offset starts with
  | nil => simp [loopChars, startsFrom]
  | crlf cs ih =>
    rw [loopChars, startsFrom, ih]
    simp
  | cr cs h ih =>
    rw [loopChars, startsFrom, ih]
    · simp
    · exact h
    · exact h
  | lf cs ih =>
    rw [loopChars, startsFrom, ih]
    simp
  | char c cs hcr hlf ih =>
    rw [loopChars_cons_char _ hcr hlf, ih, startsFrom_cons_char offset hcr hlf]

theorem build_eq (t : Text) : build t = ofText t := by
  rw [build, ofText, loopBytes_eq, loopChars_push, length_toBytes]
  simp

end LineIndex

/-! ### Pairs -/

namespace CrlfMarks

/-- The loop over bytes that looks for pairs, from the index `i` on. Each mark made before stands
for a byte that the LF form does not have. -/
def loopPairs (bytes : List UInt8) (i : Nat) (marks : Array Nat) : Array Nat :=
  if h : i + 1 < bytes.length then
    if bytes[i] = crByte ∧ bytes[i + 1] = lfByte then
      loopPairs bytes (i + 2) (marks.push (i - marks.size))
    else loopPairs bytes (i + 1) marks
  else marks
termination_by bytes.length - i

/-- The marks of a text, from its bytes. -/
def build (t : Text) : CrlfMarks where
  marks := loopPairs t.toBytes 0 #[]
  sourceLen := t.toBytes.length

section Steps

variable (a b : List UInt8) (marks : Array Nat)

theorem loopPairs_pair : loopPairs (a ++ crByte :: lfByte :: b) a.length marks
    = loopPairs (a ++ [crByte, lfByte] ++ b) (a ++ [crByte, lfByte]).length
      (marks.push (a.length - marks.size)) := by
  rw [loopPairs]
  simp

theorem loopPairs_cons {x : UInt8} (h : x = crByte → b.head? ≠ some lfByte) :
    loopPairs (a ++ x :: b) a.length marks
      = loopPairs (a ++ [x] ++ b) (a ++ [x]).length marks := by
  cases b with
  | nil => rw [loopPairs, dif_neg (by simp), loopPairs, dif_neg (by simp)]
  | cons y ys =>
    have hnot : ¬ (x = crByte ∧ y = lfByte) := fun hp => h hp.1 (by simp [hp.2])
    rw [loopPairs]
    simp [hnot]

theorem loopPairs_append (c : List UInt8) (h : crByte ∉ b) :
    loopPairs (a ++ (b ++ c)) a.length marks
      = loopPairs (a ++ b ++ c) (a ++ b).length marks := by
  induction b generalizing a with
  | nil => simp
  | cons x xs ih =>
    rw [List.mem_cons, not_or] at h
    rw [List.cons_append, loopPairs_cons _ _ _ fun hcr => absurd hcr.symm h.1, ih _ h.2,
      List.append_assoc a, List.singleton_append]

end Steps

/-- **The loop for pairs** makes the marks of a text. The marks made so far and the offset in the LF
form add up to the index, so that their number can be taken off it. -/
theorem loopPairs_toBytes (a : List UInt8) {marks : Array Nat} {offset : Nat}
    (hoffset : offset + marks.size = a.length) (t : Text) :
    loopPairs (a ++ t.toBytes) a.length marks = marks ++ (marksFrom offset t).toArray := by
  fun_induction marksFrom offset t generalizing a marks with
  | case1 offset =>
    rw [loopPairs, dif_neg (by simp)]
    simp
  | case2 offset cs ih =>
    have hmark : a.length - marks.size = offset := by omega
    rw [toBytes_cons_cr, toBytes_cons_lf, loopPairs_pair, hmark, ih]
    · simp
    · simp only [Array.size_push, List.length_append, List.length_cons, List.length_nil]
      omega
  | case3 offset c cs hpair ih =>
    have hlen : offset + c.utf8Size + marks.size = (a ++ String.utf8EncodeChar c).length := by
      rw [List.length_append, String.length_utf8EncodeChar]
      omega
    rw [toBytes_cons]
    by_cases hc : c = '\r'
    · have hcr : String.utf8EncodeChar c = [crByte] := by rw [hc]; rfl
      rw [hcr] at hlen
      rw [hcr, List.singleton_append, loopPairs_cons, ih _ hlen]
      exact fun _ => head?_toBytes_ne_lf fun ds => hpair ds hc
    · rw [loopPairs_append _ _ _ _ fun h => ne_crByte_of_mem hc _ h rfl, ih _ hlen]

theorem build_eq (t : Text) : build t = ofText t := by
  have h := loopPairs_toBytes [] (show 0 + #[].size = 0 from rfl) t
  rw [build, ofText, length_toBytes]
  simpa using h

end CrlfMarks

/-! ### The loop by slices -/

namespace Delimiter

/-- The terminator that a text begins with, if it begins with one. -/
def leading : Text → Delimiter
  | '\r' :: '\n' :: _ => crlf
  | '\r' :: _ => cr
  | _ => lf

/-- How far the loop goes on to be behind a terminator. -/
def width (d : Delimiter) : Nat := if d = crlf then 2 else 1

end Delimiter

namespace Text

open Delimiter

/-- The offset of the first terminator. -/
def findTerminator? : Text → Option Nat
  | [] => none
  | c :: cs => if c = '\r' ∨ c = '\n' then some 0 else (findTerminator? cs).map (· + c.utf8Size)

theorem plain_of_findTerminator? {t : Text} (h : findTerminator? t = none) : t.Plain := by
  induction t with
  | nil => exact plain_nil
  | cons c cs ih =>
    rw [findTerminator?] at h
    split at h
    · cases h
    · rename_i hc
      exact plain_cons.mpr ⟨not_or.mp hc, ih (Option.map_eq_none_iff.mp h)⟩

theorem exists_cut {t : Text} {pos : Nat} (h : findTerminator? t = some pos) :
    ∃ front behind d, t = front ++ d.text ++ behind ∧ pos = front.byteLen ∧
      leading (d.text ++ behind) = d ∧ d.text.byteLen = d.width ∧
      Line.split t = ⟨front, d⟩ :: Line.split behind := by
  induction t using scanInduction generalizing pos with
  | nil => cases h
  | crlf cs ih =>
    obtain rfl : 0 = pos := by simpa [findTerminator?] using h
    exact ⟨[], cs, .crlf, rfl, rfl, rfl, rfl, by rw [Line.split]⟩
  | cr cs hcs ih =>
    obtain rfl : 0 = pos := by simpa [findTerminator?] using h
    have hleading : leading ('\r' :: cs) = .cr := by
      rw [leading]
      exact hcs
    exact ⟨[], cs, .cr, rfl, rfl, hleading, rfl, by rw [Line.split]; exact hcs⟩
  | lf cs ih =>
    obtain rfl : 0 = pos := by simpa [findTerminator?] using h
    exact ⟨[], cs, .lf, rfl, rfl, rfl, rfl, by rw [Line.split]⟩
  | char c cs hcr hlf ih =>
    rw [findTerminator?, if_neg (not_or.mpr ⟨hcr, hlf⟩), Option.map_eq_some_iff] at h
    obtain ⟨p, hp, rfl⟩ := h
    obtain ⟨front, behind, d, rfl, rfl, hleading, hwidth, hsplit⟩ := ih hp
    refine ⟨c :: front, behind, d, rfl, by rw [byteLen_cons, Nat.add_comm], hleading, hwidth, ?_⟩
    rw [Line.split_cons_char hcr hlf, hsplit]
    rfl

/-- One turn of the loop takes the first line off the text. -/
theorem split_of_findTerminator? {t : Text} {pos : Nat} (h : findTerminator? t = some pos) :
    Line.split t = ⟨t.takeBytes pos, leading (t.dropBytes pos)⟩
      :: Line.split (t.dropBytes (pos + (leading (t.dropBytes pos)).width)) := by
  obtain ⟨front, behind, d, ht, rfl, hleading, hwidth, hsplit⟩ := exists_cut h
  have htake : t.takeBytes front.byteLen = front := by
    rw [ht, List.append_assoc, takeBytes_append]
  have hdrop : t.dropBytes front.byteLen = d.text ++ behind := by
    rw [ht, List.append_assoc, dropBytes_append]
  have hrest : t.dropBytes (front.byteLen + d.width) = behind := by
    rw [ht, ← hwidth, ← byteLen_append, dropBytes_append]
  rw [hdrop, hleading, htake, hrest, hsplit]

section Slices

variable {σ : Type} (visit : σ → Line → σ)

/-- The loop by slices. What is before the next terminator is a line, and the loop goes on with what
is behind the terminator; what is left in the end is the last line. -/
def loopSlices (rest : Text) (s : σ) : σ :=
  match _h : findTerminator? rest with
  | none => visit s ⟨rest, .eof⟩
  | some pos =>
    let d := leading (rest.dropBytes pos)
    loopSlices (rest.dropBytes (pos + d.width)) (visit s ⟨rest.takeBytes pos, d⟩)
termination_by (Line.split rest).length
decreasing_by
  rw [split_of_findTerminator? _h]
  exact Nat.lt_succ_self _

/-- **The loop by slices** visits the lines of the text, one after the other. -/
theorem loopSlices_eq (t : Text) (s : σ) : loopSlices visit t s = (Line.split t).foldl visit s := by
  fun_induction loopSlices visit t s with
  | case1 t s h =>
    rw [Line.split_of_plain (plain_of_findTerminator? h)]
    rfl
  | case2 t s pos h d ih => rw [ih, split_of_findTerminator? h, List.foldl_cons]

end Slices

/-- The text with every terminator written as `e`, slice by slice. -/
def rewrite (e : Ending) (t : Text) : Text :=
  loopSlices (fun out l => out ++ (l.body ++ if l.delimiter = .eof then [] else e.text)) t []

theorem rewrite_eq (e : Ending) (t : Text) : rewrite e t = replaceTerminators e t := by
  rw [rewrite, loopSlices_eq, List.foldl_append_eq_append, List.nil_append, replaceTerminators_eq,
    ← Line.joinWith_fixed, ← List.flatMap_def]
  rfl

end Text

namespace Line

/-- The delimited lines of a text, slice by slice. -/
def cut (t : Text) : Array Line := loopSlices (fun lines l => lines.push l) t #[]

theorem cut_eq (t : Text) : cut t = (split t).toArray := by
  rw [cut, loopSlices_eq, List.foldl_push_eq_append', Array.empty_append]

end Line

end Newline
