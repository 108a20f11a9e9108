import PowerAsm.Text.Glyph

/-! Integers in text. Writing: decimal, signed hexadecimal, and the zero-padded
hexadecimal of addresses, words and bytes. Reading: integer literals with an
optional base mark, and the plain decimal number of a register. -/
namespace PowerAsm.Numeral

/-! ### Writing -/

def digits (base n : Nat) : Text := (Nat.toDigits base n).map Glyph.char

/-- The number, with a minus sign in front of a negative one. -/
def decimal (v : Int) : Text :=
  if v < 0 then .char '-' :: digits 10 v.natAbs else digits 10 v.natAbs

/-- The number as `0x…`, with the minus sign of a negative one in front of the mark. -/
def hexadecimal (v : Int) : Text :=
  let marked := "0x" ++ digits 16 v.natAbs
  if v < 0 then .char '-' :: marked else marked

def zeroPadded (width : Nat) (t : Text) : Text := t.leftpad width (.char '0')

/-- An address in at least eight places. The sign of a negative one takes one of them. -/
def address (v : Int) : Text :=
  if v < 0 then .char '-' :: zeroPadded 7 (digits 16 v.natAbs)
  else zeroPadded 8 (digits 16 v.natAbs)

def hexByte (b : UInt8) : Text := zeroPadded 2 (digits 16 b.toNat)

/-! ### Reading -/

/-- Why a literal was refused. -/
inductive Problem where
  /-- It is not an integer literal. -/
  | malformed
  /-- It is an integer literal outside the 64-bit range. -/
  | outOfRange
deriving DecidableEq, Repr

/-- The value of a digit in the largest base, letters in either case standing for
ten and above. -/
def digit? : Glyph → Option Nat
  | .stray _ => none
  | .char c =>
    if '0' ≤ c ∧ c ≤ '9' then some (c.toNat - '0'.toNat)
    else if 'a' ≤ c ∧ c ≤ 'z' then some (c.toNat - 'a'.toNat + 10)
    else if 'A' ≤ c ∧ c ≤ 'Z' then some (c.toNat - 'A'.toNat + 10)
    else none

/-- The sign of a literal, true for minus, and what follows it. -/
def splitSign : Text → Bool × Text
  | .char '-' :: rest => (true, rest)
  | .char '+' :: rest => (false, rest)
  | t => (false, t)

/-- How the digits of a literal are to be read. -/
structure Radix where
  base : Nat
  /-- Whether a base mark precedes the digits; an underscore may follow the mark. -/
  marked : Bool

/-- The radix a literal announces, and its digits. A mark of two characters needs
something after it, and a zero alone in front makes the literal octal. -/
def splitRadix : Text → Radix × Text
  | .char '0' :: .char mark :: g :: rest =>
    if mark = 'b' ∨ mark = 'B' then (⟨2, true⟩, g :: rest)
    else if mark = 'o' ∨ mark = 'O' then (⟨8, true⟩, g :: rest)
    else if mark = 'x' ∨ mark = 'X' then (⟨16, true⟩, g :: rest)
    else (⟨8, true⟩, .char mark :: g :: rest)
  | .char '0' :: rest => (⟨8, true⟩, rest)
  | t => (⟨10, false⟩, t)

/-- The value of the digits after `n`, underscores passed over. The first fault from
the left is the one reported, and a value past 64 unsigned bits is a fault. -/
def accumulate (base : Nat) : Nat → Text → Except Problem Nat
  | n, [] => .ok n
  | n, g :: rest =>
    if g = .char '_' then accumulate base n rest
    else
      match digit? g with
      | none => .error .malformed
      | some d =>
        if base ≤ d then .error .malformed
        else if 0xFFFFFFFFFFFFFFFF < n * base + d then .error .outOfRange
        else accumulate base (n * base + d) rest

/-- Every underscore stands between two digits. `afterDigit` says whether a digit
or a base mark comes before the text. -/
def underscoresSeparate (afterDigit : Bool) : Text → Bool
  | [] => true
  | g :: rest =>
    if g = .char '_' then
      afterDigit && (match rest with
        | [] => false
        | next :: _ => next != .char '_') && underscoresSeparate false rest
    else underscoresSeparate true rest

/-- The magnitude of a literal without its sign. -/
def readMagnitude (t : Text) : Except Problem Nat :=
  if t.isEmpty then .error .malformed
  else do
    let (radix, body) := splitRadix t
    let n ← accumulate radix.base 0 body
    if underscoresSeparate radix.marked body then .ok n else .error .malformed

/-- Reads an integer literal: an optional sign, then digits in the base that the
mark `0x`, `0o`, `0b` or a leading `0` announces, ten without one. -/
def read (t : Text) : Except Problem Int64 := do
  let (negative, body) := splitSign t
  let n ← readMagnitude body
  if negative then
    if 0x8000000000000000 < n then .error .outOfRange else .ok (Int64.ofInt (-n))
  else if 0x8000000000000000 ≤ n then .error .outOfRange
  else .ok (Int64.ofInt n)

/-- The value of a text of decimal digits. -/
def decimalValue? (t : Text) : Option Nat :=
  if t.isEmpty then none
  else t.foldlM (fun n g => (digit? g).bind fun d => if d < 10 then some (n * 10 + d) else none) 0

/-- Reads a decimal number: an optional sign and digits only. -/
def readDecimal? (t : Text) : Option Int :=
  let (negative, body) := splitSign t
  (decimalValue? body).map fun n => if negative then -n else n

end PowerAsm.Numeral
