/-
Policies, line by line.

A policy works on the characters at the end of a text. What it makes of them is said here on the
list of lines: the empty line behind the last terminator is taken away or put there.

* `Policy.Ended`, `Policy.onLines` — the end of a list of lines, and what a policy does to it;
* `Line.split_stripFinalNewline` — the lines of a text without its last terminator;
* `Text.stripFinalNewline_normalize` — stripping and normal forms do not depend on their order;
* `Policy.apply_eq_joinLines` — a policy joins the lines that it leaves, with one ending;
* `Policy.apply_by_lines` — and without stripping a second run finds nothing to do.
-/
import Newline.Proofs.Canonical
import Newline.Proofs.Splitting

namespace Newline

open Line

/-! ### The end of a list of lines -/

namespace Policy

variable {bs : List Text} {b : Text}

/-- The lines of a text that is ended: behind the last terminator there is one more, an empty
one. -/
def Ended (bs : List Text) : Prop := 2 ≤ bs.length ∧ bs.getLast? = some []

instance (bs : List Text) : Decidable (Ended bs) := inferInstanceAs (Decidable (_ ∧ _))

/-- The lines without the empty one behind the last terminator. -/
def stripLines (bs : List Text) : List Text := if Ended bs then bs.dropLast else bs

/-- The lines with an empty one behind the last terminator. -/
def endLines (bs : List Text) : List Text := if Ended bs then bs else bs ++ [[]]

/-- The lines that a policy keeps: all of them, unless it strips. -/
def keptLines (p : Policy) (bs : List Text) : List Text :=
  if p.stripFinalNewline then stripLines bs else bs

/-- The lines that a policy leaves: those that it keeps, ended if they are to be. -/
def onLines (p : Policy) (bs : List Text) : List Text :=
  if p.ensureFinalNewline then endLines (p.keptLines bs) else p.keptLines bs

theorem ended_concat : Ended (bs ++ [b]) ↔ bs ≠ [] ∧ b = [] := by
  rw [Ended, List.getLast?_concat, Option.some.injEq, List.length_append, List.length_singleton,
    ← List.length_pos_iff]
  constructor
  · rintro ⟨hlen, hb⟩
    exact ⟨by omega, hb⟩
  · rintro ⟨hlen, hb⟩
    exact ⟨by omega, hb⟩

theorem Ended.exists_init (h : Ended bs) : ∃ init, init ≠ [] ∧ bs = init ++ [[]] := by
  rcases List.eq_nil_or_concat bs with rfl | ⟨init, b, rfl⟩
  · exact absurd h.2 (by simp)
  · rw [List.concat_eq_append] at h ⊢
    obtain ⟨hne, rfl⟩ := ended_concat.mp h
    exact ⟨init, hne, rfl⟩

theorem stripLines_concat (h : bs ≠ []) : stripLines (bs ++ [[]]) = bs := by
  rw [stripLines, if_pos (ended_concat.mpr ⟨h, rfl⟩), List.dropLast_concat]

theorem stripLines_of_not_ended (h : ¬ Ended bs) : stripLines bs = bs := if_neg h

theorem bodies_stripLines (h : Text.Bodies bs) : Text.Bodies (stripLines bs) := by
  by_cases hended : Ended bs
  · obtain ⟨init, hne, rfl⟩ := hended.exists_init
    rw [stripLines_concat hne]
    exact ⟨hne, fun b hb => h.plain b (by simp [hb])⟩
  · rwa [stripLines_of_not_ended hended]

theorem bodies_endLines (h : Text.Bodies bs) : Text.Bodies (endLines bs) := by
  rw [endLines]
  by_cases hended : Ended bs
  · rwa [if_pos hended]
  · rw [if_neg hended]
    refine ⟨by simp, ?_⟩
    intro b hb
    rcases List.mem_append.mp hb with hb | hb
    · exact h.plain b hb
    · rw [List.mem_singleton.mp hb]
      exact Text.plain_nil

theorem bodies_keptLines (p : Policy) (h : Text.Bodies bs) : Text.Bodies (p.keptLines bs) := by
  rw [keptLines]
  split
  · exact bodies_stripLines h
  · exact h

theorem bodies_onLines (p : Policy) (h : Text.Bodies bs) : Text.Bodies (p.onLines bs) := by
  have hkept := bodies_keptLines p h
  rw [onLines]
  split
  · exact bodies_endLines hkept
  · exact hkept

end Policy

open Policy

/-! ### Stripping the characters of a terminator -/

namespace Text

variable {s t : Text}

theorem isTerminated_iff_ended (t : Text) :
    t.isTerminated = true ↔ Ended ((split t).map body) := by
  rw [isTerminated_iff, Ended, List.length_map, List.getLast?_map]

theorem stripFinalNewline_cons {c : Char} (hne : s ≠ []) (hpair : c = '\r' → s ≠ ['\n']) :
    stripFinalNewline (c :: s) = c :: stripFinalNewline s := by
  rw [stripFinalNewline]
  · exact hpair
  · intro _
    exact hne
  · intro _
    exact hne

/-- A terminator comes off whole, and nothing else with it. Only a line feed could take something
along: a carriage return right before it. -/
theorem stripFinalNewline_append {d : Delimiter} (hd : d ≠ .eof)
    (hs : d = .lf → s.getLast? ≠ some '\r') : stripFinalNewline (s ++ d.text) = s := by
  induction s with
  | nil =>
    cases d with
    | eof => exact absurd rfl hd
    | lf => rfl
    | crlf => rfl
    | cr => rfl
  | cons c cs ih =>
    have hrest : d = .lf → cs.getLast? ≠ some '\r' := by
      intro hlf hlast
      have hne : cs ≠ [] := by
        rintro rfl
        exact absurd hlast (by simp)
      exact hs hlf (by rw [← List.singleton_append, List.getLast?_append_of_ne_nil [c] hne, hlast])
    have htext : cs ++ d.text ≠ [] := by
      cases d with
      | eof => exact absurd rfl hd
      | lf => simp
      | crlf => simp
      | cr => simp
    have hpair : c = '\r' → cs ++ d.text ≠ ['\n'] := by
      -- What is left would be the line feed alone, right behind the carriage return.
      rintro rfl hlf
      have hlen := congrArg List.length hlf
      cases d with
      | eof => exact hd rfl
      | lf =>
        obtain rfl : cs = [] := List.length_eq_zero_iff.mp (by simpa using hlen)
        exact hs rfl rfl
      | crlf => simp at hlen
      | cr =>
        obtain rfl : cs = [] := List.length_eq_zero_iff.mp (by simpa using hlen)
        exact absurd hlf (by decide)
    rw [List.cons_append, stripFinalNewline_cons htext hpair, ih hrest]

theorem stripFinalNewline_of_not_terminated (h : t.isTerminated = false) :
    stripFinalNewline t = t := by
  induction t with
  | nil => rfl
  | cons c cs ih =>
    by_cases hnil : cs = []
    · subst hnil
      obtain ⟨hlf, hcr⟩ : c ≠ '\n' ∧ c ≠ '\r' := by simpa [isTerminated] using h
      rw [stripFinalNewline]
      · rfl
      · exact fun _ hne => absurd hne (by simp)
      · exact fun hc _ => hlf hc
      · exact fun hc _ => hcr hc
    · have hcs : isTerminated cs = false := by
        rw [← h, ← List.singleton_append, isTerminated_append [c] hnil]
      have hpair : cs ≠ ['\n'] := by
        rintro rfl
        exact absurd hcs (by decide)
      rw [stripFinalNewline_cons hnil fun _ => hpair, ih hcs]

end Text

/-! ### Stripping lines -/

namespace Line

variable {t : Text} {before : List Line} {l : Line}

/-- Before a line feed that ends a line there is no carriage return. -/
theorem getLast_concat_ne_cr (h : WellFormed (before ++ [l, ⟨[], .eof⟩]))
    (hlf : l.delimiter = .lf) :
    (concat before ++ l.body).getLast? ≠ some '\r' := by
  intro hcr
  by_cases hbody : l.body = []
  · -- The line is empty, so the carriage return would end the line before it.
    rw [hbody, List.append_nil] at hcr
    rcases List.eq_nil_or_concat before with rfl | ⟨init, k, rfl⟩
    · exact absurd hcr (by simp)
    · have hmeets : ¬ Meets k l := by
        have hapart := h.apart
        rw [List.concat_eq_append, List.append_assoc, List.singleton_append,
          List.isChain_split, List.isChain_cons_cons] at hapart
        exact hapart.2.1
      have heof : k.delimiter ≠ .eof := h.others k (by simp [List.dropLast_append_of_ne_nil])
      obtain ⟨b, d⟩ := k
      cases d with
      | eof => exact heof rfl
      | lf => exact absurd hcr (by simp [text])
      | crlf => exact absurd hcr (by simp [text])
      | cr =>
        refine hmeets ⟨rfl, ?_⟩
        rw [← hbody, ← hlf]
  · rw [List.getLast?_append_of_ne_nil _ hbody] at hcr
    have hplain := h.plain l (by simp)
    exact (hplain '\r' (List.mem_of_getLast? hcr)).1 rfl

/-- **The lines of a stripped text**: the last terminator goes, and with it the empty line behind
it. -/
theorem split_stripFinalNewline (h : split t = before ++ [l, ⟨[], .eof⟩]) :
    split t.stripFinalNewline = before ++ [⟨l.body, .eof⟩] := by
  have hwell := wellFormed_split t
  have hconcat := concat_split t
  rw [h] at hwell hconcat
  have hd : l.delimiter ≠ .eof := hwell.others l (by simp [List.dropLast_append_of_ne_nil])
  have htext : t = (concat before ++ l.body) ++ l.delimiter.text := by
    rw [← hconcat]
    simp [text]
  have hstrip : t.stripFinalNewline = concat (before ++ [⟨l.body, .eof⟩]) := by
    rw [htext, Text.stripFinalNewline_append hd (getLast_concat_ne_cr hwell)]
    simp [text]
  rw [hstrip]
  refine WellFormed.split_concat ⟨?_, by simp, ?_, ?_⟩
  · intro m hm
    rcases List.mem_append.mp hm with hm | hm
    · exact hwell.plain m (by simp [hm])
    · rw [List.mem_singleton.mp hm]
      exact hwell.plain l (by simp)
  · intro m hm
    rw [List.dropLast_concat] at hm
    exact hwell.others m (by simp [List.dropLast_append_of_ne_nil, hm])
  · refine List.isChain_append.mpr ⟨hwell.apart.left_of_append, List.isChain_singleton _, ?_⟩
    rintro k - m hm ⟨-, hlf⟩
    obtain rfl : ⟨l.body, .eof⟩ = m := by simpa using hm
    exact absurd (congrArg delimiter hlf) (by simp)

/-- Either there is a last terminator, or there is nothing to strip. -/
theorem exists_last_terminator (t : Text) :
    (∃ before l, split t = before ++ [l, ⟨[], .eof⟩]) ∨
      ¬ Ended ((split t).map body) ∧ t.stripFinalNewline = t := by
  by_cases hended : Ended ((split t).map body)
  · left
    obtain ⟨init, b, hsplit, -, -⟩ := (complete_split t).exists_last
    rw [hsplit, List.map_append, List.map_singleton, ended_concat] at hended
    obtain ⟨hne, rfl⟩ := hended
    obtain ⟨before, l, rfl⟩ := (List.eq_nil_or_concat init).resolve_left (by simpa using hne)
    exact ⟨before, l, by rw [hsplit]; simp⟩
  · right
    refine ⟨hended, Text.stripFinalNewline_of_not_terminated ?_⟩
    rw [← Bool.not_eq_true, Text.isTerminated_iff_ended]
    exact hended

theorem map_body_stripFinalNewline (t : Text) :
    (split t.stripFinalNewline).map body = stripLines ((split t).map body) := by
  rcases exists_last_terminator t with ⟨before, l, hsplit⟩ | ⟨hended, hstrip⟩
  · have hlines : (split t).map body = (before ++ [(⟨l.body, .eof⟩ : Line)]).map body ++ [[]] := by
      rw [hsplit]
      simp
    rw [split_stripFinalNewline hsplit, hlines, stripLines_concat (by simp)]
  · rw [hstrip, stripLines_of_not_ended hended]

theorem delimiter_of_mem_stripFinalNewline {m : Line} (hm : m ∈ split t.stripFinalNewline)
    (hd : m.delimiter ≠ .eof) : m ∈ split t := by
  rcases exists_last_terminator t with ⟨before, l, hsplit⟩ | ⟨-, hstrip⟩
  · rw [split_stripFinalNewline hsplit] at hm
    rcases List.mem_append.mp hm with hm | hm
    · rw [hsplit]
      exact List.mem_append_left _ hm
    · rw [List.mem_singleton.mp hm] at hd
      exact absurd rfl hd
  · rwa [hstrip] at hm

end Line

/-! ### Policies -/

namespace Text

/-- **Stripping a normal form** gives the normal form of the stripped text. -/
theorem stripFinalNewline_normalize (e : Ending) (t : Text) :
    (t.normalize (.fixed e)).stripFinalNewline = t.stripFinalNewline.normalize (.fixed e) := by
  -- What is left of the normal form has no other ending, so it is a normal form itself.
  have hendings : ∀ l ∈ split (t.normalize (.fixed e)).stripFinalNewline, l.delimiter ≠ .eof →
      l.delimiter = e.delimiter := by
    intro l hl hd
    have hmem := delimiter_of_mem_stripFinalNewline hl hd
    rw [split_normalize] at hmem
    exact delimiter_of_mem_withEnding hmem hd
  rw [← normalize_eq_self hendings]
  refine normalize_congr e ?_
  rw [map_body_stripFinalNewline, map_body_stripFinalNewline, map_body_normalize]

theorem joinLines_concat (target : Target) {bs : List Text} (h : bs ≠ []) (b : Text) :
    joinLines target (bs ++ [b]) = joinLines target bs ++ (target.separator ++ b) := by
  rw [joinLines, joinLines]
  induction bs with
  | nil => exact absurd rfl h
  | cons c cs ih =>
    by_cases hnil : cs = []
    · subst hnil
      simp [List.intercalate]
    · have hne : cs ++ [b] ≠ [] := by simp
      rw [List.cons_append, List.intercalate_cons_of_ne_nil hne, ih hnil,
        List.intercalate_cons_of_ne_nil hnil]
      simp only [List.append_assoc]

theorem ensureFinalNewline_normalize (e : Ending) (t : Text) :
    (t.normalize (.fixed e)).ensureFinalNewline e
      = joinLines (.fixed e) (endLines ((split t).map body)) := by
  rw [ensureFinalNewline, endsWith_normalize, endLines, normalize_eq_joinLines]
  by_cases hended : Ended ((split t).map body)
  · rw [if_pos ((isTerminated_iff_ended t).mpr hended), if_pos hended]
  · rw [if_neg fun hterm => hended ((isTerminated_iff_ended t).mp hterm), if_neg hended,
      joinLines_concat _ (bodies_split t).ne_nil, List.append_nil]
    rfl

end Text

namespace Policy

/-- **A policy joins the lines that it leaves**, with the ending that it writes. -/
theorem apply_eq_joinLines (p : Policy) (t : Text) :
    p.apply t = Text.joinLines (.fixed (p.target t)) (p.onLines ((split t).map body)) := by
  -- Stripped or not, what is to be ended is the normal form of a text with the lines kept.
  obtain ⟨s, hnormal, hbody⟩ : ∃ s : Text,
      (if p.stripFinalNewline then (t.normalize (.fixed (p.target t))).stripFinalNewline
        else t.normalize (.fixed (p.target t))) = s.normalize (.fixed (p.target t)) ∧
      (split s).map body = p.keptLines ((split t).map body) := by
    rw [keptLines]
    cases p.stripFinalNewline with
    | false => exact ⟨t, rfl, rfl⟩
    | true =>
      exact ⟨t.stripFinalNewline, t.stripFinalNewline_normalize _, map_body_stripFinalNewline t⟩
  rw [apply, onLines, ← hbody]
  simp only [hnormal]
  cases p.ensureFinalNewline with
  | false => exact s.normalize_eq_joinLines _
  | true => exact s.ensureFinalNewline_normalize _

theorem map_body_apply (p : Policy) (t : Text) :
    (split (p.apply t)).map body = p.onLines ((split t).map body) := by
  rw [apply_eq_joinLines, (bodies_onLines p (Text.bodies_split t)).map_body_split_joinLines]

theorem apply_apply_of_not_strip {p : Policy} (hstrip : p.stripFinalNewline = false) (t : Text) :
    p.apply (p.apply t) = p.apply t := by
  have htarget := target_apply hstrip t
  refine apply_eq_self hstrip ?_ ?_
  · rw [htarget]
    exact (split_apply hstrip t).2
  · intro hensure
    rw [htarget]
    exact endsWith_apply hensure t

/-- **What a policy does, line by line.** The result is the lines of the text, without the empty one
at the end if that is to be stripped and with one if the text is to be ended, joined by the ending
that the policy chooses for the text. If nothing is stripped, the policy chooses the same ending
for the result, and leaves it alone. -/
theorem apply_by_lines (p : Policy) (t : Text) :
    p.apply t = Text.joinLines (.fixed (p.target t)) (p.onLines ((split t).map body)) ∧
      (p.stripFinalNewline = false →
        p.target (p.apply t) = p.target t ∧ p.apply (p.apply t) = p.apply t) := by
  refine ⟨p.apply_eq_joinLines t, ?_⟩
  intro hstrip
  exact ⟨target_apply hstrip t, apply_apply_of_not_strip hstrip t⟩

/-- Pairs win the vote, and win it again in what is written. -/
theorem apply_by_lines_preserve :
    let p : Policy := { ensureFinalNewline := true }
    let t : Text := ['a', '\r', '\n', 'b', '\r', '\n', 'c', '\n', 'd']
    p.stripFinalNewline = false ∧ p.target t = .crlf ∧
      p.apply t = Text.joinLines (.fixed .crlf) [['a'], ['b'], ['c'], ['d'], []] ∧
      p.target (p.apply t) = .crlf ∧ p.apply (p.apply t) = p.apply t := by
  intro p t
  obtain ⟨hlines, hagain⟩ := apply_by_lines p t
  obtain ⟨htarget, hsame⟩ := hagain rfl
  have hcrlf : p.target t = .crlf := by decide
  rw [hcrlf] at hlines htarget
  exact ⟨rfl, hcrlf, hlines, htarget, hsame⟩

end Policy

end Newline
