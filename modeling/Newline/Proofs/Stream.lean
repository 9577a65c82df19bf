/-
Streams in pieces.

However a text is cut into pieces, as characters or as bytes, between the two characters of a
pair or inside a character, a stream writes its normal form.

* `Text.mem_utf8EncodeChar` — the bytes of a character are its own code or no ASCII at all, so
  that no byte of another character is taken for a terminator;
* `Chunk.normalizeBytes_append` — the step of the byte machine over two chunks in a row;
* `Chunk.normalizeBytes_toBytes` — the machine that looks ahead at characters and the one that
  takes one byte at a time go together;
* `Chunk.Normalizer.feedAll_eq` — the run over pieces is the run over their bytes;
* `Chunk.Normalizer.run_pieces_eq_normalize` — the result, after every piece and at the end.
-/
import Newline.Chunk
import Newline.Proofs.Normalize

namespace Newline

/-! ### Bytes of characters -/

namespace Text

@[simp] theorem toBytes_nil : toBytes [] = [] := rfl

theorem toBytes_cons (c : Char) (cs : Text) :
    toBytes (c :: cs) = String.utf8EncodeChar c ++ toBytes cs := rfl

@[simp] theorem toBytes_append (s t : Text) : toBytes (s ++ t) = toBytes s ++ toBytes t := by
  simp [toBytes]

@[simp] theorem toBytes_cons_cr (cs : Text) : toBytes ('\r' :: cs) = Chunk.crByte :: toBytes cs :=
  rfl

@[simp] theorem toBytes_cons_lf (cs : Text) : toBytes ('\n' :: cs) = Chunk.lfByte :: toBytes cs :=
  rfl

theorem length_toBytes (t : Text) : t.toBytes.length = t.byteLen := by
  induction t with
  | nil => rfl
  | cons c cs ih =>
    rw [toBytes_cons, List.length_append, String.length_utf8EncodeChar, ih, byteLen_cons]

/-- A byte of a character is the character itself, or no ASCII character. -/
theorem mem_utf8EncodeChar {c : Char} {b : UInt8} (h : b ∈ String.utf8EncodeChar c) :
    b.toNat = c.toNat ∨ 128 ≤ b.toNat := by
  have hv : c.toNat = c.val.toNat := rfl
  rw [String.utf8EncodeChar] at h
  split at h
  · simp only [List.mem_singleton] at h
    subst h
    simp only [UInt8.toNat_ofNat']
    omega
  · refine Or.inr ?_
    split at h
    · simp only [List.mem_cons, List.not_mem_nil, or_false] at h
      rcases h with rfl | rfl <;> simp only [UInt8.toNat_ofNat'] <;> omega
    · split at h
      · simp only [List.mem_cons, List.not_mem_nil, or_false] at h
        rcases h with rfl | rfl | rfl <;> simp only [UInt8.toNat_ofNat'] <;> omega
      · simp only [List.mem_cons, List.not_mem_nil, or_false] at h
        rcases h with rfl | rfl | rfl | rfl <;> simp only [UInt8.toNat_ofNat'] <;> omega

/-- An ASCII character is found only in its own bytes. -/
theorem ne_of_mem_utf8EncodeChar {c d : Char} {b : UInt8} (hd : d.toNat < 128) (hc : c ≠ d)
    (h : b ∈ String.utf8EncodeChar c) : b ≠ UInt8.ofNat d.toNat := by
  rintro rfl
  have hbyte : (UInt8.ofNat d.toNat).toNat = d.toNat := by
    rw [UInt8.toNat_ofNat']
    omega
  rcases mem_utf8EncodeChar h with heq | hge
  · exact hc (Char.toNat_inj.mp (heq.symm.trans hbyte))
  · omega

theorem ne_crByte_of_mem {c : Char} (hc : c ≠ '\r') :
    ∀ b ∈ String.utf8EncodeChar c, b ≠ Chunk.crByte :=
  fun _ => ne_of_mem_utf8EncodeChar (by decide) hc

theorem ne_lfByte_of_mem {c : Char} (hc : c ≠ '\n') :
    ∀ b ∈ String.utf8EncodeChar c, b ≠ Chunk.lfByte :=
  fun _ => ne_of_mem_utf8EncodeChar (by decide) hc

theorem utf8EncodeChar_eq_cons (c : Char) : ∃ b bs, String.utf8EncodeChar c = b :: bs := by
  have hlen : 0 < (String.utf8EncodeChar c).length := by
    rw [String.length_utf8EncodeChar]
    exact c.utf8Size_pos
  exact List.exists_cons_of_length_pos hlen

end Text

namespace Chunk

/-! ### The byte machine -/

@[simp] theorem normalizeBytes_nil (s : State) : normalizeBytes s [] = ([], s) := rfl

theorem normalizeBytes_cons (s : State) (b : UInt8) (bs : List UInt8) :
    normalizeBytes s (b :: bs)
      = ((stepByte s b).1 ++ (normalizeBytes (stepByte s b).2 bs).1,
        (normalizeBytes (stepByte s b).2 bs).2) := rfl

/-- **Two chunks in a row are taken like one.** -/
theorem normalizeBytes_append (s : State) (bs cs : List UInt8) :
    normalizeBytes s (bs ++ cs)
      = ((normalizeBytes s bs).1 ++ (normalizeBytes (normalizeBytes s bs).2 cs).1,
        (normalizeBytes (normalizeBytes s bs).2 cs).2) := by
  induction bs generalizing s with
  | nil => simp
  | cons b bs ih => simp [normalizeBytes_cons, ih]

/-- A byte leaves a carriage return behind exactly if it is one. -/
theorem carry_stepByte (s : State) (b : UInt8) :
    (stepByte s b).2.carry = true ↔ b = crByte := by
  rw [stepByte]
  split
  · simpa
  · split <;> simpa

/-- **What is carried is a carriage return at the end of the bytes so far.** -/
theorem carry_normalizeBytes (s : State) (bs : List UInt8) :
    (normalizeBytes s bs).2.carry = true
      ↔ bs.getLast? = some crByte ∨ bs = [] ∧ s.carry = true := by
  induction bs generalizing s with
  | nil => simp
  | cons b bs ih =>
    rw [normalizeBytes_cons, ih, carry_stepByte]
    rcases bs with _ | ⟨c, cs⟩
    · simp
    · simp [List.getLast?_cons_cons]

/-- Bytes other than carriage returns are written as they are: line feeds stay line feeds. -/
theorem normalizeBytes_ordinary {bs : List UInt8} (hbs : ∀ b ∈ bs, b ≠ crByte)
    (cs : List UInt8) :
    normalizeBytes {} (bs ++ cs)
      = (bs ++ (normalizeBytes {} cs).1, (normalizeBytes {} cs).2) := by
  induction bs with
  | nil => rfl
  | cons b bs ih =>
    have hb : b ≠ crByte := hbs b (by simp)
    have hstep : stepByte {} b = ([b], {}) := by simp [stepByte, hb]
    rw [List.cons_append, normalizeBytes_cons, hstep, ih fun c hc => hbs c (by simp [hc])]
    simp

/-- A carried carriage return is written before any byte but a line feed. -/
theorem normalizeBytes_carry {b : UInt8} (hb : b ≠ lfByte) (bs : List UInt8) :
    normalizeBytes { carry := true } (b :: bs)
      = (lfByte :: (normalizeBytes {} (b :: bs)).1, (normalizeBytes {} (b :: bs)).2) := by
  by_cases hcr : b = crByte
  · simp [normalizeBytes_cons, stepByte, hcr]
  · simp [normalizeBytes_cons, stepByte, hcr, hb]

theorem normalizeBytes_carry_text {c : Char} (hc : c ≠ '\n') (cs : Text) :
    normalizeBytes { carry := true } (Text.toBytes (c :: cs))
      = (lfByte :: (normalizeBytes {} (Text.toBytes (c :: cs))).1,
        (normalizeBytes {} (Text.toBytes (c :: cs))).2) := by
  -- Only the first byte of the character meets the carried carriage return.
  obtain ⟨b, bs, hb⟩ := Text.utf8EncodeChar_eq_cons c
  have hne : b ≠ lfByte := Text.ne_lfByte_of_mem hc b (by simp [hb])
  rw [Text.toBytes_cons, hb, List.cons_append]
  exact normalizeBytes_carry hne _

/-- A line feed after a carried carriage return is one terminator with it. -/
theorem normalizeBytes_carry_lf (bs : List UInt8) :
    normalizeBytes { carry := true } (lfByte :: bs)
      = (lfByte :: (normalizeBytes {} bs).1, (normalizeBytes {} bs).2) := by
  have hne : lfByte ≠ crByte := by decide
  simp [normalizeBytes_cons, stepByte, hne]

/-! ### Characters and bytes -/

/-- With nothing carried, the two machines go together. -/
theorem normalizeBytes_scanText (t : Text) :
    normalizeBytes {} t.toBytes = ((scanText t).1.toBytes, (scanText t).2) := by
  induction t using Text.scanInduction with
  | nil => rfl
  | crlf cs ih =>
    have hstep : stepByte {} crByte = ([], { carry := true }) := by simp [stepByte]
    rw [Text.toBytes_cons_cr, Text.toBytes_cons_lf, normalizeBytes_cons, hstep,
      normalizeBytes_carry_lf, ih]
    simp [scanText]
  | cr cs h ih =>
    -- The byte machine writes the line feed only with the next byte, the other one at once; at
    -- the end of the chunk both carry.
    have hstep : stepByte {} crByte = ([], { carry := true }) := by simp [stepByte]
    rw [Text.toBytes_cons_cr, normalizeBytes_cons, hstep]
    rcases cs with _ | ⟨c, cs⟩
    · simp [scanText]
    · have hc : c ≠ '\n' := by
        rintro rfl
        exact h cs rfl
      have hscan : scanText ('\r' :: c :: cs)
          = ('\n' :: (scanText (c :: cs)).1, (scanText (c :: cs)).2) := by
        rw [scanText]
        · simp
        · rintro ds ⟨⟩
          exact hc rfl
      rw [normalizeBytes_carry_text hc, ih, hscan]
      simp
  | lf cs ih =>
    have hstep : stepByte {} lfByte = ([lfByte], {}) := by decide
    rw [Text.toBytes_cons_lf, normalizeBytes_cons, hstep, ih]
    simp [scanText]
  | char c cs hcr hlf ih =>
    rw [Text.toBytes_cons, normalizeBytes_ordinary (Text.ne_crByte_of_mem hcr), ih]
    rw [scanText]
    · simp [Text.toBytes_cons]
    · exact fun h => absurd h hcr
    · exact fun ds h => absurd h hcr
    · exact hcr

/-- **A chunk of characters and its bytes are taken alike**, whatever is carried into them. -/
theorem normalizeBytes_toBytes (s : State) (t : Text) :
    normalizeBytes s t.toBytes = ((normalizeText s t).1.toBytes, (normalizeText s t).2) := by
  rcases t with _ | ⟨c, cs⟩
  · rfl
  · -- What is carried is settled by the first character; from there on the scan is the same.
    rcases s with ⟨_ | _⟩
    · rw [normalizeText, if_neg (by simp)]
      exact normalizeBytes_scanText (c :: cs)
    · rw [normalizeText, if_pos rfl]
      by_cases hc : c = '\n'
      · subst hc
        rw [Text.toBytes_cons_lf, normalizeBytes_carry_lf, normalizeBytes_scanText]
        simp
      · rw [normalizeBytes_carry_text hc, normalizeBytes_scanText]
        simp [hc]

/-- What a chunk writes, with what it leaves owed, is the LF form. -/
theorem scanText_flush (t : Text) :
    (scanText t).1 ++ (scanText t).2.flush = t.normalize (.fixed .lf) := by
  rw [Text.normalize_fixed, ← Text.replaceTerminators_eq]
  induction t using Text.scanInduction with
  | nil => rfl
  | crlf cs ih => simp [scanText, Text.replaceTerminators, Ending.text, ih]
  | cr cs h ih =>
    rcases cs with _ | ⟨c, cs⟩
    · rfl
    · rw [scanText, Text.replaceTerminators]
      · simp [Ending.text, ih]
      · exact h
      · exact fun hnil => absurd hnil (by simp)
      · exact h
  | lf cs ih => simp [scanText, Text.replaceTerminators, Ending.text, ih]
  | char c cs hcr hlf ih =>
    rw [scanText, Text.replaceTerminators]
    · simp [ih]
    · exact fun ds h => absurd h hcr
    · exact hcr
    · exact hlf
    · exact fun h => absurd h hcr
    · exact fun ds h => absurd h hcr
    · exact hcr

/-! ### Streams -/

@[simp] theorem expandBytes_append (e : Ending) (bs cs : List UInt8) :
    expandBytes e (bs ++ cs) = expandBytes e bs ++ expandBytes e cs := by
  cases e <;> simp [expandBytes]

theorem expandBytes_ordinary (e : Ending) {bs : List UInt8} (h : ∀ b ∈ bs, b ≠ lfByte) :
    expandBytes e bs = bs := by
  cases e with
  | lf => rfl
  | crlf =>
    rw [expandBytes]
    induction bs with
    | nil => rfl
    | cons b bs ih =>
      have hrest : ∀ c ∈ bs, c ≠ lfByte := fun c hc => h c (List.mem_cons_of_mem b hc)
      rw [List.flatMap_cons, if_neg (h b List.mem_cons_self), ih hrest, List.singleton_append]

/-- Line feeds are expanded alike in characters and in bytes. -/
theorem expandBytes_toBytes (e : Ending) (t : Text) :
    expandBytes e t.toBytes = (e.expandLf t).toBytes := by
  induction t with
  | nil => cases e <;> rfl
  | cons c cs ih =>
    have hcons : e.expandLf (c :: cs) = e.expandLf [c] ++ e.expandLf cs :=
      e.expandLf_append [c] cs
    have hchar : expandBytes e (String.utf8EncodeChar c) = (e.expandLf [c]).toBytes := by
      by_cases hlf : c = '\n'
      · subst hlf
        cases e <;> rfl
      · rw [expandBytes_ordinary e (Text.ne_lfByte_of_mem hlf)]
        cases e <;> simp [Ending.expandLf, hlf, Text.toBytes]
    rw [Text.toBytes_cons, expandBytes_append, hchar, ih, hcons, Text.toBytes_append]

namespace Normalizer

/-- What is written for pieces, and the stream after them. -/
def feedAll (n : Normalizer) : List Piece → List UInt8 × Normalizer
  | [] => ([], n)
  | p :: ps => ((n.feed p).1 ++ (feedAll (n.feed p).2 ps).1, (feedAll (n.feed p).2 ps).2)

/-- A stream to its end is what its pieces write and what is then owed. -/
theorem run_eq_feedAll (n : Normalizer) (ps : List Piece) :
    n.run ps = (n.feedAll ps).1 ++ (n.feedAll ps).2.finish.toBytes := by
  induction ps generalizing n with
  | nil => simp [run, feedAll]
  | cons p ps ih => simp [run, feedAll, ih]

/-- **One piece**, in either form, is one chunk of its bytes. -/
theorem feed_eq (n : Normalizer) (p : Piece) :
    n.feed p = (expandBytes n.target (normalizeBytes n.state p.toBytes).1,
      { n with state := (normalizeBytes n.state p.toBytes).2 }) := by
  cases p with
  | text t => simp [feed, push, Piece.toBytes, normalizeBytes_toBytes, expandBytes_toBytes]
  | bytes bs => rfl

/-- **All pieces** are one chunk of all their bytes. -/
theorem feedAll_eq (n : Normalizer) (ps : List Piece) :
    n.feedAll ps
      = (expandBytes n.target (normalizeBytes n.state (ps.flatMap Piece.toBytes)).1,
        { n with state := (normalizeBytes n.state (ps.flatMap Piece.toBytes)).2 }) := by
  induction ps generalizing n with
  | nil => cases n with | mk target state => cases target <;> rfl
  | cons p ps ih => simp [feedAll, feed_eq, ih, normalizeBytes_append]

theorem finish_toBytes (n : Normalizer) :
    n.finish.toBytes = expandBytes n.target n.state.flush.toBytes := by
  rw [finish, expandBytes_toBytes]

/-- Pieces that make up a text write its normal form, with what is owed after them. -/
theorem feedAll_finish (e : Ending) {u : Text} {ps : List Piece}
    (h : u.toBytes = ps.flatMap Piece.toBytes) :
    (feedAll { target := e } ps).1 ++ (feedAll { target := e } ps).2.finish.toBytes
      = (u.normalize (.fixed e)).toBytes := by
  rw [finish_toBytes, feedAll_eq, ← h, normalizeBytes_scanText]
  calc expandBytes e (scanText u).1.toBytes ++ expandBytes e (scanText u).2.flush.toBytes
      = expandBytes e ((scanText u).1 ++ (scanText u).2.flush).toBytes := by simp
    _ = (e.expandLf (u.normalize (.fixed .lf))).toBytes := by
      rw [scanText_flush, expandBytes_toBytes]
    _ = (u.normalize (.fixed e)).toBytes := by rw [Ending.expandLf_normalize]

/-- **A stream in pieces writes the normal form of the whole text**, however the text is cut and
in whichever form each piece comes. After any of the pieces a carriage return is carried exactly
if the bytes so far end with one, and what is written so far, with what is owed, is the normal
form of what has come, if that is a text. Hence nothing depends on the cuts. -/
theorem run_pieces_eq_normalize (e : Ending) (t : Text) (ps : List Piece)
    (h : ps.flatMap Piece.toBytes = t.toBytes) :
    run { target := e } ps = (t.normalize (.fixed e)).toBytes ∧
      (∀ before, before <+: ps →
        ((feedAll { target := e } before).2.state.carry = true
            ↔ (before.flatMap Piece.toBytes).getLast? = some crByte) ∧
          ∀ u : Text, u.toBytes = before.flatMap Piece.toBytes →
            (feedAll { target := e } before).1 ++ (feedAll { target := e } before).2.finish.toBytes
              = (u.normalize (.fixed e)).toBytes) ∧
      ∀ qs : List Piece, qs.flatMap Piece.toBytes = t.toBytes →
        run { target := e } qs = run { target := e } ps := by
  have hrun : ∀ qs : List Piece, qs.flatMap Piece.toBytes = t.toBytes →
      run { target := e } qs = (t.normalize (.fixed e)).toBytes := by
    intro qs hqs
    rw [run_eq_feedAll, feedAll_finish e hqs.symm]
  refine ⟨hrun ps h, fun before _ => ⟨?_, fun u hu => feedAll_finish e hu⟩, fun qs hqs => ?_⟩
  · -- This holds of any bytes: the state knows nothing of characters.
    rw [feedAll_eq, carry_normalizeBytes]
    simp
  · rw [hrun qs hqs, hrun ps h]

/-- A pair and a character of two bytes, each cut in the middle, with a carriage return at the
very end. -/
theorem run_pieces_cut_inside :
    let ps : List Piece := [.text ['a', '\r'], .bytes [10, 0xC3], .text [], .bytes [0xA9, 13]]
    ps.flatMap Piece.toBytes = Text.toBytes ['a', '\r', '\n', 'é', '\r'] ∧
      run { target := .crlf } ps = Text.toBytes ['a', '\r', '\n', 'é', '\r', '\n'] ∧
      (feedAll { target := .crlf } (ps.take 1)).2.state.carry = true := by
  intro ps
  have hbytes : ps.flatMap Piece.toBytes = Text.toBytes ['a', '\r', '\n', 'é', '\r'] := by decide
  obtain ⟨hrun, hafter, -⟩ := run_pieces_eq_normalize .crlf ['a', '\r', '\n', 'é', '\r'] ps hbytes
  exact ⟨hbytes, hrun.trans (by decide), (hafter _ (List.take_prefix 1 ps)).1.mpr (by decide)⟩

end Normalizer

end Chunk

end Newline
