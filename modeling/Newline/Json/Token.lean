/-
JSON tokens.

* `Token` — punctuation, keywords, numbers and strings; a string is kept as written, since
  escapes can name halves of characters that do not make one;
* `Piece.decode?` — the characters of a string;
* `Token.scan?` — the tokens of a text.
-/
import Newline.Json.Number

namespace Newline.Json

/-- A part of a string literal. -/
inductive Piece
  /-- A character, written as itself or by a short escape. -/
  | char (c : Char)
  /-- A UTF-16 unit, written by its four hexadecimal digits. -/
  | unit (u : Nat)
  deriving DecidableEq, Repr, Inhabited

namespace Piece

/-- The value of a hexadecimal digit. -/
def hexDigit? (c : Char) : Option Nat :=
  if c.isDigit then some (c.toNat - '0'.toNat)
  else if 'a' ≤ c && c ≤ 'f' then some (c.toNat - 'a'.toNat + 10)
  else if 'A' ≤ c && c ≤ 'F' then some (c.toNat - 'A'.toNat + 10)
  else none

/-- The unit written by four hexadecimal digits. -/
def unitOfHex? (a b c d : Char) : Option Nat := do
  let a ← hexDigit? a
  let b ← hexDigit? b
  let c ← hexDigit? c
  let d ← hexDigit? d
  return ((a * 16 + b) * 16 + c) * 16 + d

/-- The character of a short escape. -/
def ofEscape? : Char → Option Char
  | '"' => some '"'
  | '\\' => some '\\'
  | '/' => some '/'
  | 'b' => some '\x08'
  | 'f' => some '\x0c'
  | 'n' => some '\n'
  | 'r' => some '\r'
  | 't' => some '\t'
  | _ => none

/-- The pieces up to the closing quote, and what follows it. Characters below the space have to
be escaped. -/
def read? : Text → Option (List Piece × Text)
  | [] => none
  | '"' :: cs => some ([], cs)
  | '\\' :: 'u' :: a :: b :: c :: d :: cs => do
    let u ← unitOfHex? a b c d
    let (ps, rest) ← read? cs
    return (unit u :: ps, rest)
  | '\\' :: e :: cs => do
    let c ← ofEscape? e
    let (ps, rest) ← read? cs
    return (char c :: ps, rest)
  | c :: cs =>
    if c = '\\' || c.toNat < 0x20 then none
    else (read? cs).map fun (ps, rest) => (char c :: ps, rest)

theorem read?_length {t rest : Text} {ps : List Piece} (h : read? t = some (ps, rest)) :
    rest.length < t.length := by
  fun_induction read? t generalizing ps rest with
  | case1 => simp at h
  | case2 cs =>
    obtain ⟨-, rfl⟩ := Prod.mk.inj (Option.some.inj h)
    simp
  | case3 a b c d cs ih =>
    simp only [Option.bind_eq_bind, Option.bind_eq_some_iff, Prod.exists] at h
    obtain ⟨u, -, qs, r, hr, h⟩ := h
    obtain ⟨-, rfl⟩ := Prod.mk.inj (Option.some.inj h)
    have := ih hr
    simp only [List.length_cons]
    omega
  | case4 e cs _ ih =>
    simp only [Option.bind_eq_bind, Option.bind_eq_some_iff, Prod.exists] at h
    obtain ⟨u, -, qs, r, hr, h⟩ := h
    obtain ⟨-, rfl⟩ := Prod.mk.inj (Option.some.inj h)
    have := ih hr
    simp only [List.length_cons]
    omega
  | case5 => simp at h
  | case6 c cs _ _ _ _ ih =>
    simp only [Option.map_eq_some_iff, Prod.mk.injEq, Prod.exists] at h
    obtain ⟨qs, r, hr, -, rfl⟩ := h
    have := ih hr
    simp only [List.length_cons]
    omega

/-- Whether a unit is the first half of a pair. -/
def isHighSurrogate (u : Nat) : Bool := 0xD800 ≤ u && u < 0xDC00

/-- Whether a unit is the second half of a pair. -/
def isLowSurrogate (u : Nat) : Bool := 0xDC00 ≤ u && u < 0xE000

/-- The characters of a string. A unit that is half of a pair has to stand in one. -/
def decode? : List Piece → Option Text
  | [] => some []
  | char c :: ps => (decode? ps).map (c :: ·)
  | unit u :: ps =>
    if isHighSurrogate u then
      match ps with
      | unit v :: rest =>
        if isLowSurrogate v then
          (decode? rest).map (Char.ofNat (0x10000 + (u - 0xD800) * 0x400 + (v - 0xDC00)) :: ·)
        else none
      | _ => none
    else if isLowSurrogate u then none
    else (decode? ps).map (Char.ofNat u :: ·)

end Piece

/-- The smallest parts of a document. -/
inductive Token
  | openBrace
  | closeBrace
  | openBracket
  | closeBracket
  | colon
  | comma
  | null
  | bool (b : Bool)
  | number (n : Number)
  | string (ps : List Piece)
  deriving DecidableEq, Repr, Inhabited

namespace Token

/-- The blanks between tokens. -/
def isBlank (c : Char) : Bool := c = ' ' || c = '\t' || c = '\n' || c = '\r'

/-- The token of a punctuation character. -/
def ofPunctuation? : Char → Option Token
  | '{' => some openBrace
  | '}' => some closeBrace
  | '[' => some openBracket
  | ']' => some closeBracket
  | ':' => some colon
  | ',' => some comma
  | _ => none

/-- The token at the front of a text without blanks there, and what follows it. -/
def read? : Text → Option (Token × Text)
  | 'n' :: 'u' :: 'l' :: 'l' :: cs => some (null, cs)
  | 't' :: 'r' :: 'u' :: 'e' :: cs => some (bool true, cs)
  | 'f' :: 'a' :: 'l' :: 's' :: 'e' :: cs => some (bool false, cs)
  | '"' :: cs => (Piece.read? cs).map fun (ps, rest) => (string ps, rest)
  | c :: cs =>
    match ofPunctuation? c with
    | some token => some (token, cs)
    | none => (Number.read? (c :: cs)).map fun (n, rest) => (number n, rest)
  | [] => none

theorem read?_length {t rest : Text} {token : Token} (h : read? t = some (token, rest)) :
    rest.length < t.length := by
  unfold read? at h
  split at h
  · obtain ⟨-, rfl⟩ := Prod.mk.inj (Option.some.inj h)
    simp only [List.length_cons]
    omega
  · obtain ⟨-, rfl⟩ := Prod.mk.inj (Option.some.inj h)
    simp only [List.length_cons]
    omega
  · obtain ⟨-, rfl⟩ := Prod.mk.inj (Option.some.inj h)
    simp only [List.length_cons]
    omega
  · simp only [Option.map_eq_some_iff, Prod.mk.injEq, Prod.exists] at h
    obtain ⟨ps, r, hr, -, rfl⟩ := h
    exact Nat.lt_succ_of_lt (Piece.read?_length hr)
  · split at h
    · obtain ⟨-, rfl⟩ := Prod.mk.inj (Option.some.inj h)
      simp
    · simp only [Option.map_eq_some_iff, Prod.mk.injEq, Prod.exists] at h
      obtain ⟨n, r, hr, -, rfl⟩ := h
      exact Number.read?_length hr
  · simp at h

/-- The tokens of a text. -/
def scan? (t : Text) : Option (List Token) :=
  match t with
  | [] => some []
  | c :: cs =>
    if isBlank c then scan? cs
    else
      match _h : read? (c :: cs) with
      | none => none
      | some (token, rest) => (scan? rest).map (token :: ·)
termination_by t.length
decreasing_by
  · simp
  · exact read?_length _h

end Token

end Newline.Json
