/-
The form of a formatted line.

A line is indentation and a rest that does not begin with a blank. Formatting trims the rest at
its end and writes the indentation anew, as wide as it was; of a blank line, where there is no
rest, trimming leaves nothing.

* `Indent.Ends`, `Indent.ends_iff` — the width of indentation is the column where it ends;
* `Indent.width_ofWidth`, `Indent.width_restyle` — indentation of a given width has that width;
* `Indent.Styled`, `Indent.restyle_eq_self_iff` — indentation as the settings want it, and that
  it is what stays as it is;
* `Indented`, `Indented.rdropWhile` — the two parts of a line, and how trimming goes with them;
* `Indented.formatLine` — the two parts after formatting;
* `Settings.Neat`, `Settings.formatLine_eq_self_iff` — the lines that formatting leaves alone;
* `Settings.formatLine_formatLine` — a formatted line is one of them.
-/
import Mathlib.Data.List.DropRight
import Mathlib.Order.Bounds.Basic
import Newline.Proofs.Formatting

namespace Newline

/-! ### The width of indentation -/

namespace Indent

/-- Indentation that begins at one column ends at another: a tab goes on to the first tab stop
behind it, anything else takes one column. -/
inductive Ends (tab : Nat) : Nat → Text → Nat → Prop
  | nil (column : Nat) : Ends tab column [] column
  | tab {column stop last : Nat} {cs : Text} : IsLeast {k | column < k ∧ tab ∣ k} stop →
      Ends tab stop cs last → Ends tab column ('\t' :: cs) last
  | other {column last : Nat} {c : Char} {cs : Text} : c ≠ '\t' →
      Ends tab (column + 1) cs last → Ends tab column (c :: cs) last

theorem isLeast_stop {tab : Nat} (htab : 0 < tab) (column : Nat) :
    IsLeast {k | column < k ∧ tab ∣ k} ((column / tab + 1) * tab) := by
  constructor
  · have hlt := Nat.lt_mul_div_succ column htab
    rw [Nat.mul_comm] at hlt
    exact ⟨hlt, Nat.dvd_mul_left tab _⟩
  · rintro k ⟨hlt, stop, rfl⟩
    have hdiv : column / tab < stop := Nat.div_lt_of_lt_mul hlt
    rw [Nat.mul_comm tab]
    exact Nat.mul_le_mul_right tab hdiv

/-- **The width is the column** at which the indentation ends. -/
theorem ends_iff {tab : Nat} (htab : 0 < tab) {column last : Nat} {indent : Text} :
    Ends tab column indent last ↔ last = widthFrom tab column indent := by
  constructor
  · intro h
    induction h with
    | nil column => rfl
    | tab hstop _ ih => rw [ih, widthFrom, hstop.unique (isLeast_stop htab _)]
    | other hc _ ih =>
      rw [ih, widthFrom]
      exact hc
  · rintro rfl
    fun_induction widthFrom tab column indent with
    | case1 column => exact .nil column
    | case2 column cs ih => exact .tab (isLeast_stop htab column) ih
    | case3 column c cs hc ih => exact .other hc ih

theorem widthFrom_append (tab column : Nat) (a b : Text) :
    widthFrom tab column (a ++ b) = widthFrom tab (widthFrom tab column a) b := by
  fun_induction widthFrom tab column a with
  | case1 column => rfl
  | case2 column cs ih => rw [List.cons_append, widthFrom, ih]
  | case3 column c cs hc ih =>
    rw [List.cons_append, widthFrom, ih]
    exact hc

theorem widthFrom_spaces (tab column n : Nat) :
    widthFrom tab column (List.replicate n ' ') = column + n := by
  induction n generalizing column with
  | zero => rfl
  | succ n ih =>
    rw [List.replicate_succ, widthFrom, ih]
    · omega
    · decide

/-- From one tab stop, each tab goes on to the next. -/
theorem widthFrom_tabs {tab : Nat} (htab : 0 < tab) (stop n : Nat) :
    widthFrom tab (stop * tab) (List.replicate n '\t') = (stop + n) * tab := by
  induction n generalizing stop with
  | zero => rfl
  | succ n ih =>
    rw [List.replicate_succ, widthFrom, Nat.mul_div_cancel stop htab, ih, Nat.add_assoc,
      Nat.add_comm 1 n]

variable (s : Settings)

/-- **Indentation of a given width has that width.** -/
theorem width_ofWidth (w : Nat) : width s.tabWidth (ofWidth s w) = w := by
  rw [width, ofWidth]
  split
  · rw [widthFrom_spaces, Nat.zero_add]
  · have htabs := widthFrom_tabs s.tabWidth_pos 0 (w / s.tabWidth)
    rw [Nat.zero_mul, Nat.zero_add] at htabs
    rw [widthFrom_append, htabs, widthFrom_spaces, Nat.div_add_mod']

theorem width_restyle (indent : Text) :
    width s.tabWidth (restyle s indent) = width s.tabWidth indent :=
  width_ofWidth s _

theorem restyle_restyle (indent : Text) : restyle s (restyle s indent) = restyle s indent := by
  rw [restyle, width_restyle, restyle]

/-- Indentation as the settings want it: spaces, or else tabs and after them fewer spaces than the
next tab stop is away. -/
def Styled (indent : Text) : Prop :=
  if s.insertSpaces then ∀ c ∈ indent, c = ' '
  else ∃ tabs spaces, indent = List.replicate tabs '\t' ++ List.replicate spaces ' ' ∧
    spaces < s.tabWidth

theorem styled_iff_exists_width {indent : Text} :
    Styled s indent ↔ ∃ w, indent = ofWidth s w := by
  rw [Styled]
  split
  · rename_i hspaces
    simp only [ofWidth, if_pos hspaces]
    constructor
    · intro h
      exact ⟨indent.length, List.eq_replicate_of_mem h⟩
    · rintro ⟨w, rfl⟩ c hc
      exact List.eq_of_mem_replicate hc
  · rename_i htabs
    simp only [ofWidth, if_neg htabs]
    constructor
    · rintro ⟨tabs, spaces, rfl, hlt⟩
      refine ⟨s.tabWidth * tabs + spaces, ?_⟩
      have hdiv : (s.tabWidth * tabs + spaces) / s.tabWidth = tabs := by
        rw [Nat.mul_add_div s.tabWidth_pos, Nat.div_eq_of_lt hlt, Nat.add_zero]
      rw [hdiv, Nat.mul_add_mod, Nat.mod_eq_of_lt hlt]
    · rintro ⟨w, rfl⟩
      exact ⟨_, _, rfl, Nat.mod_lt w s.tabWidth_pos⟩

/-- **Indentation stays as it is** exactly if it is as the settings want it. -/
theorem restyle_eq_self_iff {indent : Text} : restyle s indent = indent ↔ Styled s indent := by
  rw [styled_iff_exists_width]
  constructor
  · intro h
    exact ⟨width s.tabWidth indent, h.symm⟩
  · rintro ⟨w, rfl⟩
    rw [restyle, width_ofWidth]

end Indent

/-! ### The two parts of a line -/

/-- The line is indentation, of blanks only, and a rest that does not begin with a blank. -/
structure Indented (b indent rest : Text) : Prop where
  eq : b = indent ++ rest
  blank : ∀ c ∈ indent, Indent.isBlank c = true
  solid : ∀ c ∈ rest.head?, Indent.isBlank c = false

theorem indented (b : Text) : Indented b (Indent.ofLine b) (b.dropWhile Indent.isBlank) := by
  refine ⟨?_, fun c hc => List.mem_takeWhile_imp hc, ?_⟩
  · rw [Indent.ofLine, List.takeWhile_append_dropWhile]
  · intro c hc
    have hhead := List.head?_dropWhile_not Indent.isBlank b
    rw [Option.mem_def.mp hc] at hhead
    simpa using hhead

namespace Indented

variable {b indent rest : Text}

/-- There is only one way to cut a line in these two parts. -/
theorem ofLine_eq (h : Indented b indent rest) : Indent.ofLine b = indent := by
  obtain ⟨rfl, hblank, hsolid⟩ := h
  rw [Indent.ofLine, List.takeWhile_append_of_pos hblank]
  cases rest with
  | nil => simp
  | cons c cs => rw [List.takeWhile_cons_of_neg (by simp [hsolid c rfl]), List.append_nil]

theorem dropWhile_eq (h : Indented b indent rest) : b.dropWhile Indent.isBlank = rest := by
  obtain ⟨rfl, hblank, hsolid⟩ := h
  rw [List.dropWhile_append_of_pos hblank]
  cases rest with
  | nil => rfl
  | cons c cs => rw [List.dropWhile_cons_of_neg (by simp [hsolid c rfl])]

theorem blank_iff (h : Indented b indent rest) :
    (∀ c ∈ b, Indent.isBlank c = true) ↔ rest = [] := by
  rw [← h.dropWhile_eq, List.dropWhile_eq_nil_iff]

theorem rdropWhile_rest_ne_nil (h : Indented b indent rest) (hne : rest ≠ []) :
    rest.rdropWhile Indent.isBlank ≠ [] := by
  obtain ⟨c, cs, rfl⟩ := List.exists_cons_of_ne_nil hne
  intro hnil
  have hc := List.rdropWhile_eq_nil_iff.mp hnil c (by simp)
  rw [h.solid c rfl] at hc
  exact absurd hc (by simp)

/-- Trimming goes back into the rest and no further, if there is a rest. -/
theorem rdropWhile (h : Indented b indent rest) (hne : rest ≠ []) :
    Indented (b.rdropWhile Indent.isBlank) indent (rest.rdropWhile Indent.isBlank) := by
  have hleft := h.rdropWhile_rest_ne_nil hne
  obtain ⟨rfl, hblank, hsolid⟩ := h
  refine ⟨?_, hblank, ?_⟩
  · have hdrop : rest.reverse.dropWhile Indent.isBlank ≠ [] := by
      intro hnil
      exact hleft (by rw [List.rdropWhile, hnil, List.reverse_nil])
    rw [List.rdropWhile, List.reverse_append, List.dropWhile_append,
      if_neg (by simpa using hdrop), List.reverse_append, List.reverse_reverse, List.rdropWhile]
  · -- What is left of the rest begins as the rest does.
    intro c hc
    obtain ⟨cs, hcs⟩ := List.head?_eq_some_iff.mp hc
    obtain ⟨tail, htail⟩ := List.rdropWhile_prefix Indent.isBlank rest
    refine hsolid c ?_
    rw [← htail, hcs]
    rfl

end Indented

/-! ### One line -/

namespace Settings

variable (s : Settings)

/-- What is kept of a line, or of its rest: all but the blanks at the end, if they are trimmed. -/
def kept (b : Text) : Text :=
  if s.trimTrailingWhitespace then b.rdropWhile Indent.isBlank else b

theorem formatLine_eq (b : Text) :
    s.formatLine b
      = Indent.restyle s (Indent.ofLine (s.kept b)) ++ (s.kept b).dropWhile Indent.isBlank :=
  rfl

theorem kept_subset (b : Text) : s.kept b ⊆ b := by
  rw [kept]
  split
  · exact (List.rdropWhile_prefix Indent.isBlank b).subset
  · exact List.Subset.refl b

theorem kept_kept (b : Text) : s.kept (s.kept b) = s.kept b := by
  by_cases htrim : s.trimTrailingWhitespace = true
  · simp only [kept, if_pos htrim]
    exact List.rdropWhile_idempotent Indent.isBlank b
  · simp only [kept, if_neg htrim]

theorem kept_eq_self_iff (b : Text) :
    s.kept b = b
      ↔ (s.trimTrailingWhitespace = true → ∀ c ∈ b.getLast?, Indent.isBlank c = false) := by
  by_cases htrim : s.trimTrailingWhitespace = true
  · rw [kept, if_pos htrim, List.rdropWhile_eq_self_iff]
    constructor
    · intro h _ c hc
      obtain ⟨hne, rfl⟩ := List.mem_getLast?_eq_getLast hc
      simpa using h hne
    · intro h hne
      simp [h htrim _ (List.getLast?_eq_some_getLast hne)]
  · rw [kept, if_neg htrim]
    simp [htrim]

theorem indented_formatLine (b : Text) :
    Indented (s.formatLine b) (Indent.restyle s (Indent.ofLine (s.kept b)))
      ((s.kept b).dropWhile Indent.isBlank) :=
  ⟨s.formatLine_eq b, fun _ hc => Indent.isBlank_of_mem_ofWidth hc, (indented (s.kept b)).solid⟩

end Settings

namespace Indented

variable {b indent rest : Text} (s : Settings)

theorem kept (h : Indented b indent rest) (hne : rest ≠ []) :
    Indented (s.kept b) indent (s.kept rest) := by
  rw [Settings.kept, Settings.kept]
  split
  · exact h.rdropWhile hne
  · exact h

/-- **The two parts after formatting**: the indentation is written anew, and of the rest stays what
is kept. -/
theorem formatLine (h : Indented b indent rest) (hne : rest ≠ []) :
    Indented (s.formatLine b) (Indent.restyle s indent) (s.kept rest) := by
  have hkept := h.kept s hne
  have hformat := s.indented_formatLine b
  rwa [hkept.ofLine_eq, hkept.dropWhile_eq] at hformat

end Indented

namespace Settings

variable (s : Settings)

theorem kept_rest_ne_nil (b : Text) (hne : b.dropWhile Indent.isBlank ≠ []) :
    s.kept (b.dropWhile Indent.isBlank) ≠ [] := by
  rw [kept]
  split
  · exact (indented b).rdropWhile_rest_ne_nil hne
  · exact hne

/-- A formatted line has nothing at its end to trim. -/
theorem kept_formatLine (b : Text) : s.kept (s.formatLine b) = s.formatLine b := by
  by_cases hrest : b.dropWhile Indent.isBlank = []
  · by_cases htrim : s.trimTrailingWhitespace = true
    · -- Of a blank line nothing is left at all.
      have hblank := (indented b).blank_iff.mpr hrest
      rw [(s.formatLine_eq_nil_iff b).mpr (Or.inr ⟨htrim, hblank⟩), kept, if_pos htrim]
      rfl
    · rw [kept, if_neg htrim]
  · have hformat := (indented b).formatLine s hrest
    have hkept := hformat.kept s (s.kept_rest_ne_nil b hrest)
    rw [hkept.eq, kept_kept, ← hformat.eq]

/-- **A formatted line stays as it is.** -/
theorem formatLine_formatLine (b : Text) : s.formatLine (s.formatLine b) = s.formatLine b := by
  have hformat := s.indented_formatLine b
  rw [formatLine_eq s (s.formatLine b), kept_formatLine, hformat.ofLine_eq, hformat.dropWhile_eq,
    Indent.restyle_restyle, ← formatLine_eq]

/-- A line as the settings want it: no blanks at the end, if they are trimmed, and indentation of
the style they ask for. -/
structure Neat (b : Text) : Prop where
  trimmed : s.trimTrailingWhitespace = true → ∀ c ∈ b.getLast?, Indent.isBlank c = false
  styled : Indent.Styled s (Indent.ofLine b)

/-- **The lines that formatting leaves alone.** -/
theorem formatLine_eq_self_iff (b : Text) : s.formatLine b = b ↔ s.Neat b := by
  constructor
  · intro h
    have hkept : s.kept b = b := by
      rw [← h, kept_formatLine]
    refine ⟨(s.kept_eq_self_iff b).mp hkept, ?_⟩
    have hstyle := (s.indented_formatLine b).ofLine_eq
    rw [h, hkept] at hstyle
    exact (Indent.restyle_eq_self_iff s).mp hstyle.symm
  · rintro ⟨htrimmed, hstyled⟩
    rw [formatLine_eq, (s.kept_eq_self_iff b).mpr htrimmed,
      (Indent.restyle_eq_self_iff s).mpr hstyled, ← (indented b).eq]

theorem neat_formatLine (b : Text) : s.Neat (s.formatLine b) :=
  (s.formatLine_eq_self_iff _).mp (s.formatLine_formatLine b)

end Settings

end Newline
