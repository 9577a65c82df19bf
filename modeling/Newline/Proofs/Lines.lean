/-
Texts and their delimited lines.

`Line.split` is the view of a text through which the rest of the theory speaks: every other
scanner of terminators is a function of the lines it gives.

* `Text.scanInduction` — induction along a text as a scanner reads it;
* `Line.Complete` — lines in which only the last is ended by the end of the text;
* `Line.concat_split`, `Line.complete_split` — splitting loses nothing and gives such lines;
* `Line.split_concat` — complete lines, put together and split again, are the same lines, but
  for a carriage return and a line feed that have come to stand side by side: `Line.fuse` says
  what becomes of those;
* `Line.length_fuse_eq_iff`, `Line.fuse_eq_self` — when nothing becomes of them.
-/
import Mathlib.Data.List.Chain
import Newline.Line

namespace Newline

/-- Induction along a text as a scanner of terminators reads it: a pair at once, then a
carriage return that no line feed follows, then what stands by itself. -/
@[elab_as_elim]
theorem Text.scanInduction {motive : Text → Prop} (nil : motive [])
    (crlf : ∀ cs, motive cs → motive ('\r' :: '\n' :: cs))
    (cr : ∀ cs, (∀ ds, cs = '\n' :: ds → False) → motive cs → motive ('\r' :: cs))
    (lf : ∀ cs, motive cs → motive ('\n' :: cs))
    (char : ∀ c cs, (c = '\r' → False) → (c = '\n' → False) → motive cs → motive (c :: cs))
    (t : Text) : motive t :=
  Line.split.induct motive nil crlf cr lf (fun c cs _ hcr hlf ih => char c cs hcr hlf ih) t

/-! ### Texts without terminators -/

/-- No character is part of a terminator. -/
def Text.Plain (t : Text) : Prop := ∀ c ∈ t, c ≠ '\r' ∧ c ≠ '\n'

instance (t : Text) : Decidable t.Plain := inferInstanceAs (Decidable (∀ c ∈ t, _))

namespace Text

@[simp] theorem plain_nil : Plain [] := by simp [Plain]

@[simp] theorem plain_cons {c : Char} {cs : Text} :
    Plain (c :: cs) ↔ (c ≠ '\r' ∧ c ≠ '\n') ∧ Plain cs := by
  simp [Plain]

@[simp] theorem plain_append {s t : Text} : Plain (s ++ t) ↔ Plain s ∧ Plain t := by
  constructor
  · intro h
    exact ⟨fun c hc => h c (List.mem_append_left t hc),
      fun c hc => h c (List.mem_append_right s hc)⟩
  · rintro ⟨hs, ht⟩ c hc
    exact (List.mem_append.mp hc).elim (hs c) (ht c)

theorem Plain.of_subset {s t : Text} (ht : Plain t) (h : s ⊆ t) : Plain s :=
  fun c hc => ht c (h hc)

end Text

namespace Delimiter

@[simp] theorem text_lf : text lf = ['\n'] := rfl

@[simp] theorem text_crlf : text crlf = ['\r', '\n'] := rfl

@[simp] theorem text_cr : text cr = ['\r'] := rfl

@[simp] theorem text_eof : text eof = [] := rfl

end Delimiter

namespace Line

/-! ### The lines of a text, one at a time -/

theorem split_cons_char {c : Char} {cs : Text} (hcr : c ≠ '\r') (hlf : c ≠ '\n') :
    split (c :: cs) = consHead c (split cs) := by
  rw [split]
  · exact fun ds h => absurd h hcr
  · exact hcr
  · exact hlf

theorem split_ne_nil (t : Text) : split t ≠ [] := by
  induction t using Text.scanInduction with
  | nil => simp [split]
  | crlf cs ih => simp [split]
  | cr cs h ih => simp [split]
  | lf cs ih => simp [split]
  | char c cs hcr hlf ih =>
    rw [split_cons_char hcr hlf]
    cases hs : split cs with
    | nil => exact absurd hs ih
    | cons l ls => simp [consHead]

/-- Text without terminators goes to the front of the first line. -/
theorem split_append {b t : Text} {l : Line} {ls : List Line} (hb : b.Plain)
    (h : split t = l :: ls) : split (b ++ t) = ⟨b ++ l.body, l.delimiter⟩ :: ls := by
  induction b with
  | nil => simpa using h
  | cons c cs ih =>
    obtain ⟨⟨hcr, hlf⟩, hcs⟩ := Text.plain_cons.mp hb
    rw [List.cons_append, split_cons_char hcr hlf, ih hcs]
    rfl

theorem split_of_plain {b : Text} (hb : b.Plain) : split b = [⟨b, .eof⟩] := by
  have h := split_append (t := []) hb rfl
  simpa using h

theorem split_append_lf {b : Text} (hb : b.Plain) (t : Text) :
    split (b ++ '\n' :: t) = ⟨b, .lf⟩ :: split t := by
  have h : split ('\n' :: t) = ⟨[], .lf⟩ :: split t := by simp [split]
  simpa using split_append hb h

theorem split_append_crlf {b : Text} (hb : b.Plain) (t : Text) :
    split (b ++ '\r' :: '\n' :: t) = ⟨b, .crlf⟩ :: split t := by
  have h : split ('\r' :: '\n' :: t) = ⟨[], .crlf⟩ :: split t := by simp [split]
  simpa using split_append hb h

theorem split_append_cr {b : Text} (hb : b.Plain) {t : Text}
    (ht : ∀ ds, t = '\n' :: ds → False) :
    split (b ++ '\r' :: t) = ⟨b, .cr⟩ :: split t := by
  have h : split ('\r' :: t) = ⟨[], .cr⟩ :: split t := by rw [split]; exact ht
  simpa using split_append hb h

/-! ### Complete lines -/

/-- Lines of a whole text: no line holds a terminator, and the last one, but no other, is ended
by the end of the text. -/
inductive Complete : List Line → Prop
  | last {b : Text} : b.Plain → Complete [⟨b, .eof⟩]
  | cons {l : Line} {ls : List Line} : l.body.Plain → l.delimiter ≠ .eof → Complete ls →
      Complete (l :: ls)

theorem Complete.ne_nil {ls : List Line} (h : Complete ls) : ls ≠ [] := by
  cases h <;> simp

theorem Complete.plain {ls : List Line} (h : Complete ls) : ∀ l ∈ ls, l.body.Plain := by
  induction h with
  | last hb => simpa using hb
  | cons hb hd hls ih => simpa using ⟨hb, ih⟩

theorem Complete.consHead {c : Char} {ls : List Line} (hcr : c ≠ '\r') (hlf : c ≠ '\n')
    (h : Complete ls) : Complete (consHead c ls) := by
  cases h with
  | last hb => exact .last (Text.plain_cons.mpr ⟨⟨hcr, hlf⟩, hb⟩)
  | cons hb hd hls => exact .cons (Text.plain_cons.mpr ⟨⟨hcr, hlf⟩, hb⟩) hd hls

/-- **The lines of a text are complete.** -/
theorem complete_split (t : Text) : Complete (split t) := by
  induction t using Text.scanInduction with
  | nil => exact .last Text.plain_nil
  | crlf cs ih => rw [split]; exact .cons Text.plain_nil (by simp) ih
  | cr cs h ih => rw [split.eq_3 cs h]; exact .cons Text.plain_nil (by simp) ih
  | lf cs ih => rw [split]; exact .cons Text.plain_nil (by simp) ih
  | char c cs hcr hlf ih => rw [split_cons_char hcr hlf]; exact ih.consHead hcr hlf

@[simp] theorem concat_nil : concat [] = [] := rfl

@[simp] theorem concat_cons (l : Line) (ls : List Line) :
    concat (l :: ls) = l.text ++ concat ls := rfl

@[simp] theorem concat_append (ls ms : List Line) :
    concat (ls ++ ms) = concat ls ++ concat ms := by
  simp [concat]

theorem concat_consHead (c : Char) {ls : List Line} (h : ls ≠ []) :
    concat (consHead c ls) = c :: concat ls := by
  cases ls with
  | nil => exact absurd rfl h
  | cons l ls => simp [Line.consHead, text]

/-- **A text is its lines put together.** -/
@[simp] theorem concat_split (t : Text) : concat (split t) = t := by
  induction t using Text.scanInduction with
  | nil => rfl
  | crlf cs ih => simp [split, text, ih]
  | cr cs h ih => simp [split, text, ih]
  | lf cs ih => simp [split, text, ih]
  | char c cs hcr hlf ih =>
    rw [split_cons_char hcr hlf, concat_consHead c (split_ne_nil cs), ih]

/-! ### Putting lines together again -/

/-- The lines as they are read when they have been put together: a carriage return that an
empty line and its line feed follow has become the first half of a pair. -/
def fuse : List Line → List Line
  | ⟨b, .cr⟩ :: ⟨[], .lf⟩ :: ls => ⟨b, .crlf⟩ :: fuse ls
  | l :: ls => l :: fuse ls
  | [] => []

/-- The delimiters of two lines in a row are read as one pair. -/
def Meets (l m : Line) : Prop := l.delimiter = .cr ∧ m = ⟨[], .lf⟩

instance (l m : Line) : Decidable (Meets l m) := inferInstanceAs (Decidable (_ ∧ _))

theorem fuse_cons_of_not_meets {l : Line} {ls : List Line} (h : ∀ m ∈ ls.head?, ¬ Meets l m) :
    fuse (l :: ls) = l :: fuse ls := by
  rw [fuse]
  rintro b ms rfl rfl
  exact h _ rfl ⟨rfl, rfl⟩

/-- Only an empty line that a line feed ends puts a line feed at the front. -/
theorem Complete.head_of_concat_eq_lf {ls : List Line} (h : Complete ls) {ds : Text}
    (hc : concat ls = '\n' :: ds) : ls.head? = some ⟨[], .lf⟩ := by
  -- The first character is of the first line's body, which has no line feed, or of its delimiter.
  cases h with
  | @last b hb =>
    rcases b with _ | ⟨c, cs⟩
    · simp [text] at hc
    · obtain ⟨rfl, -⟩ : c = '\n' ∧ _ := by simpa [text] using hc
      exact absurd hb (by simp)
  | @cons l ls hb hd hls =>
    obtain ⟨b, d⟩ := l
    rcases b with _ | ⟨c, cs⟩
    · cases d <;> simp_all [text]
    · obtain ⟨rfl, -⟩ : c = '\n' ∧ _ := by simpa [text] using hc
      exact absurd hb (by simp)

/-- **Complete lines, put together and split again.** -/
theorem split_concat {ls : List Line} (h : Complete ls) : split (concat ls) = fuse ls := by
  fun_induction fuse ls with
  | case1 b ls ih =>
    -- The two lines that meet: nothing stands between their delimiters.
    cases h with
    | cons hb hd hls =>
      cases hls with
      | cons hb' hd' hls => simp [text, split_append_crlf hb, ih hls]
  | case2 l ls hne ih =>
    cases h with
    | last hb => simp [text, split_of_plain hb, fuse]
    | cons hb hd hls =>
      obtain ⟨b, d⟩ := l
      cases d with
      | lf => simp [text, split_append_lf hb, ih hls]
      | crlf => simp [text, split_append_crlf hb, ih hls]
      | cr =>
        -- The only delimiter that the text behind it could lengthen.
        have hlf : ∀ ds, concat ls = '\n' :: ds → False := by
          intro ds hds
          obtain ⟨ms, rfl⟩ := List.head?_eq_some_iff.mp (hls.head_of_concat_eq_lf hds)
          exact hne b ms rfl rfl
        simp [text, split_append_cr hb hlf, ih hls]
      | eof => exact absurd rfl hd
  | case3 => exact absurd rfl h.ne_nil

@[simp] theorem fuse_split (t : Text) : fuse (split t) = split t := by
  rw [← split_concat (complete_split t), concat_split]

theorem length_fuse_le (ls : List Line) : (fuse ls).length ≤ ls.length := by
  fun_induction fuse ls with
  | case1 b ls ih => simp only [List.length_cons]; omega
  | case2 l ls hne ih => simpa using ih
  | case3 => simp

/-- Lines stay as many as they are exactly if no two in a row meet. -/
theorem length_fuse_eq_iff (ls : List Line) :
    (fuse ls).length = ls.length ↔ ls.IsChain fun l m => ¬ Meets l m := by
  fun_induction fuse ls with
  | case1 b ls ih =>
    -- A line is lost here, and none can come back later.
    have hlen := length_fuse_le ls
    have hmeets : Meets ⟨b, .cr⟩ ⟨[], .lf⟩ := ⟨rfl, rfl⟩
    simp only [List.length_cons, List.isChain_cons_cons, hmeets, not_true_eq_false, false_and,
      iff_false]
    omega
  | case2 l ls hne ih =>
    cases ls with
    | nil => simp [fuse]
    | cons m ms =>
      have hmeets : ¬ Meets l m := by
        rintro ⟨hl, rfl⟩
        exact hne l.body ms (by rw [← hl]) rfl
      simp only [List.length_cons, List.isChain_cons_cons, hmeets, not_false_eq_true, true_and,
        Nat.add_right_cancel_iff]
      simpa using ih
  | case3 => simp

/-- In a text that was read, no line feed is left behind a carriage return. -/
theorem isChain_split (t : Text) : (split t).IsChain fun l m => ¬ Meets l m := by
  rw [← length_fuse_eq_iff, fuse_split]

theorem fuse_eq_self {ls : List Line} (h : ls.IsChain fun l m => ¬ Meets l m) :
    fuse ls = ls := by
  induction ls with
  | nil => rfl
  | cons l ls ih =>
    rw [fuse_cons_of_not_meets, ih h.tail]
    intro m hm
    obtain ⟨ms, rfl⟩ := List.head?_eq_some_iff.mp hm
    exact (List.isChain_cons_cons.mp h).1

end Line

end Newline
