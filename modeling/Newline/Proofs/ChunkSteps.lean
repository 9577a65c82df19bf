/-
One chunk, by bytes and by characters.

A chunk can be taken byte by byte, with the carriage return kept back until the next byte decides;
by a loop that looks at the byte behind a carriage return; or by slices, where all that is before
the next carriage return is written at once. All of them write the same and leave the same behind.

* `Chunk.enter` — what is carried into a chunk, settled before any of the scans;
* `Chunk.scanBytes`, `Chunk.scanBytes_eq` — the loop that looks ahead;
* `Chunk.sliceText`, `Chunk.sliceText_eq` — the loop by slices;
* `Chunk.crByte_not_mem_normalizeBytes`, `Chunk.ordinary_normalizeBytes` — no carriage return is
  written, and no other byte is lost, added or moved;
* `Chunk.chunk_steps_agree` — the step over one chunk, in all its forms.
-/
import Mathlib.Data.List.TakeWhile
import Newline.Proofs.Stream

namespace Newline.Chunk

section Front

variable {α : Type} [DecidableEq α] (lf : α)

/-- What follows a line feed at the front; all of it if there is none. -/
def dropLf : List α → List α
  | [] => []
  | c :: cs => if c = lf then cs else c :: cs

theorem length_dropLf_le (cs : List α) : (dropLf lf cs).length ≤ cs.length := by
  rcases cs with _ | ⟨c, cs⟩
  · rfl
  · rw [dropLf]
    split <;> simp

/-- A chunk with what is carried into it, by a scan for chunks with nothing carried. -/
def enter (scan : List α → List α × State) (s : State) (cs : List α) : List α × State :=
  if cs = [] then ([], s)
  else if s.carry then
    let (out, next) := scan (dropLf lf cs)
    (lf :: out, next)
  else scan cs

end Front

theorem normalizeText_eq_enter (s : State) (t : Text) :
    normalizeText s t = enter '\n' scanText s t := by
  cases t <;> rfl

/-! ### Looking ahead -/

/-- The LF form of a chunk of bytes with nothing carried into it. A carriage return looks at the
byte behind it, and a line feed there is taken along. -/
def scanBytes : List UInt8 → List UInt8 × State
  | [] => ([], {})
  | b :: bs =>
    if b = crByte then
      if bs = [] then ([], { carry := true })
      else
        let (out, next) := scanBytes (dropLf lfByte bs)
        (lfByte :: out, next)
    else
      let (out, next) := scanBytes bs
      (b :: out, next)
termination_by bs => bs.length
decreasing_by
  · exact Nat.lt_succ_of_le (length_dropLf_le lfByte bs)
  · exact Nat.lt_succ_self bs.length

/-- A carried carriage return is one terminator with a line feed at the front of the bytes. -/
theorem normalizeBytes_carry_dropLf {bs : List UInt8} (h : bs ≠ []) :
    normalizeBytes { carry := true } bs
      = (lfByte :: (normalizeBytes {} (dropLf lfByte bs)).1,
        (normalizeBytes {} (dropLf lfByte bs)).2) := by
  obtain ⟨b, bs, rfl⟩ := List.exists_cons_of_ne_nil h
  rw [dropLf]
  by_cases hb : b = lfByte
  · rw [if_pos hb, hb, normalizeBytes_carry_lf]
  · rw [if_neg hb, normalizeBytes_carry hb]

/-- **The loop that looks ahead** goes together with the machine that takes one byte at a time. -/
theorem scanBytes_eq (bs : List UInt8) : scanBytes bs = normalizeBytes {} bs := by
  have hcr : ∀ ds, normalizeBytes {} (crByte :: ds) = normalizeBytes { carry := true } ds := by
    intro ds
    simp [normalizeBytes_cons, stepByte]
  fun_induction scanBytes bs with
  | case1 => rfl
  | case2 => rfl
  | case3 bs hne out next hscan ih =>
    rw [hcr, normalizeBytes_carry_dropLf hne, ← ih, hscan]
  | case4 b bs hb out next hscan ih =>
    have hordinary : ∀ d ∈ [b], d ≠ crByte := by simpa using hb
    have hrest := normalizeBytes_ordinary hordinary bs
    rw [List.singleton_append, List.singleton_append, ← ih, hscan] at hrest
    exact hrest.symm

theorem enter_scanBytes (s : State) (bs : List UInt8) :
    enter lfByte scanBytes s bs = normalizeBytes s bs := by
  rw [enter]
  by_cases hbs : bs = []
  · rw [if_pos hbs, hbs, normalizeBytes_nil]
  · rw [if_neg hbs]
    rcases s with ⟨_ | _⟩
    · exact scanBytes_eq bs
    · rw [normalizeBytes_carry_dropLf hbs, ← scanBytes_eq, if_pos rfl]

/-! ### Slices -/

/-- The LF form of a chunk of text with nothing carried into it. What is before the next carriage
return is written as it is, and the scan goes on behind it, or behind the pair. -/
def sliceText (t : Text) : Text × State :=
  if t.dropWhile (· ≠ '\r') = [] then (t, {})
  else if (t.dropWhile (· ≠ '\r')).tail = [] then (t.takeWhile (· ≠ '\r'), { carry := true })
  else
    let (out, next) := sliceText (dropLf '\n' (t.dropWhile (· ≠ '\r')).tail)
    (t.takeWhile (· ≠ '\r') ++ '\n' :: out, next)
termination_by t.length
decreasing_by
  rename_i hne _
  have hrest := (List.dropWhile_suffix (l := t) (· ≠ '\r')).length_le
  have hpos := List.length_pos_iff.mpr hne
  have hlf := length_dropLf_le '\n' (t.dropWhile (· ≠ '\r')).tail
  rw [List.length_tail] at hlf
  omega

/-- Characters other than carriage returns are written as they are. -/
theorem scanText_append {a : Text} (ha : ∀ c ∈ a, c ≠ '\r') (t : Text) :
    scanText (a ++ t) = (a ++ (scanText t).1, (scanText t).2) := by
  induction a with
  | nil => rfl
  | cons c cs ih =>
    have hc : c ≠ '\r' := ha c (by simp)
    rw [List.cons_append, scanText, ih fun d hd => ha d (by simp [hd])]
    · simp
    · exact fun h => absurd h hc
    · exact fun ds h => absurd h hc
    · exact hc

/-- A carriage return with anything behind it is one terminator with a line feed there. -/
theorem scanText_cr {cs : Text} (h : cs ≠ []) :
    scanText ('\r' :: cs)
      = ('\n' :: (scanText (dropLf '\n' cs)).1, (scanText (dropLf '\n' cs)).2) := by
  obtain ⟨c, cs, rfl⟩ := List.exists_cons_of_ne_nil h
  rw [dropLf]
  by_cases hc : c = '\n'
  · rw [if_pos hc, hc, scanText]
  · rw [if_neg hc, scanText]
    · simp
    · rintro ds ⟨⟩
      exact hc rfl

/-- What is before the next carriage return is written as it is. -/
theorem scanText_cut (t : Text) :
    scanText t = (t.takeWhile (· ≠ '\r') ++ (scanText (t.dropWhile (· ≠ '\r'))).1,
      (scanText (t.dropWhile (· ≠ '\r'))).2) := by
  conv_lhs => rw [← List.takeWhile_append_dropWhile (p := (· ≠ '\r')) (l := t)]
  refine scanText_append (fun c hc => ?_) _
  simpa using List.mem_takeWhile_imp hc

/-- The rest begins with a carriage return, if there is one. -/
theorem dropWhile_ne_cr {t : Text} (h : t.dropWhile (· ≠ '\r') ≠ []) :
    t.dropWhile (· ≠ '\r') = '\r' :: (t.dropWhile (· ≠ '\r')).tail := by
  have hhead := List.head_dropWhile_not (fun c : Char => c ≠ '\r') h
  rw [decide_eq_false_iff_not, not_not] at hhead
  have hcons := List.cons_head_tail h
  rw [hhead] at hcons
  exact hcons.symm

/-- **The loop by slices** goes together with the one that takes one character at a time. -/
theorem sliceText_eq (t : Text) : sliceText t = scanText t := by
  fun_induction sliceText t with
  | case1 t hnil =>
    have hall := List.takeWhile_append_dropWhile (p := (· ≠ '\r')) (l := t)
    rw [hnil, List.append_nil] at hall
    rw [scanText_cut, hnil, hall, scanText, List.append_nil]
  | case2 t hne hlast =>
    rw [scanText_cut, dropWhile_ne_cr hne, hlast, scanText, List.append_nil]
  | case3 t hne hmore out next hslice ih =>
    rw [scanText_cut t, dropWhile_ne_cr hne, scanText_cr hmore, ← ih, hslice]

/-! ### What is written -/

/-- The bytes that belong to no terminator. -/
def ordinary (bs : List UInt8) : List UInt8 := bs.filter fun b => b ≠ crByte ∧ b ≠ lfByte

theorem ordinary_append (bs cs : List UInt8) : ordinary (bs ++ cs) = ordinary bs ++ ordinary cs :=
  List.filter_append bs cs

/-- One byte writes no carriage return, and itself if it belongs to no terminator. -/
theorem stepByte_writes (s : State) (b : UInt8) :
    crByte ∉ (stepByte s b).1 ∧ ordinary (stepByte s b).1 = ordinary [b] := by
  have hlf : crByte ≠ lfByte := by decide
  rw [stepByte]
  by_cases hb : b = crByte
  · rw [if_pos hb, hb]
    cases s.carry <;> simp [ordinary, hlf]
  · rw [if_neg hb]
    cases s.carry with
    | false => simp [ordinary, Ne.symm hb]
    | true =>
      by_cases hbl : b = lfByte
      · simp [ordinary, hbl, hlf]
      · simp [ordinary, hbl, hb, hlf, Ne.symm hb]

theorem crByte_not_mem_normalizeBytes (s : State) (bs : List UInt8) :
    crByte ∉ (normalizeBytes s bs).1 := by
  induction bs generalizing s with
  | nil => simp
  | cons b bs ih =>
    rw [normalizeBytes_cons, List.mem_append, not_or]
    exact ⟨(stepByte_writes s b).1, ih _⟩

/-- **No byte of a text is lost, added or moved**, those of terminators apart. -/
theorem ordinary_normalizeBytes (s : State) (bs : List UInt8) :
    ordinary (normalizeBytes s bs).1 = ordinary bs := by
  induction bs generalizing s with
  | nil => rfl
  | cons b bs ih =>
    rw [normalizeBytes_cons, ordinary_append, (stepByte_writes s b).2, ih, ← ordinary_append,
      List.singleton_append]

/-- **All ways to take a chunk agree**, whatever is carried into it. The bytes of a text give the
bytes of what its characters give, and leave the same. For bytes that need not be those of a text, a
chunk can be cut anywhere, no carriage return is written, and the bytes that belong to no terminator
stay as they are. Looking ahead and writing slices at once change nothing. -/
theorem chunk_steps_agree (s : State) :
    (∀ t : Text, normalizeBytes s t.toBytes
        = ((normalizeText s t).1.toBytes, (normalizeText s t).2)) ∧
      (∀ x y : List UInt8, normalizeBytes s (x ++ y)
        = ((normalizeBytes s x).1 ++ (normalizeBytes (normalizeBytes s x).2 y).1,
          (normalizeBytes (normalizeBytes s x).2 y).2)) ∧
      (∀ x : List UInt8, crByte ∉ (normalizeBytes s x).1 ∧
        ordinary (normalizeBytes s x).1 = ordinary x) ∧
      (∀ x : List UInt8, enter lfByte scanBytes s x = normalizeBytes s x) ∧
      ∀ t : Text, enter '\n' sliceText s t = normalizeText s t := by
  refine ⟨normalizeBytes_toBytes s, normalizeBytes_append s, ?_, enter_scanBytes s, ?_⟩
  · intro x
    exact ⟨crByte_not_mem_normalizeBytes s x, ordinary_normalizeBytes s x⟩
  · intro t
    rw [funext sliceText_eq, normalizeText_eq_enter]

end Newline.Chunk
