/-! Instruction words: 32 bits, read and written by fields. A field is given by the
position of its lowest bit and its width; `fitsUnsigned` and `fitsSigned` say which
values a field can hold. -/
namespace PowerAsm

abbrev Word := BitVec 32

/-- The number of bytes in an instruction word. -/
def wordBytes : Int64 := 4

namespace Word

/-- The field as an unsigned number. -/
def unsigned (w : Word) (low width : Nat) : Int64 :=
  Int64.ofNat (w.extractLsb' low width).toNat

/-- The field as a signed number. -/
def signed (w : Word) (low width : Nat) : Int64 :=
  Int64.ofInt (w.extractLsb' low width).toInt

def bit (w : Word) (position : Nat) : Bool := w.getLsbD position

/-- The word whose field holds the low `width` bits of `v`, all other bits being zero. -/
def ofField (v : Int64) (low width : Nat) : Word :=
  ((BitVec.ofInt width v.toInt).setWidth 32) <<< low

/-- The word whose single bit at `position` is `b`. -/
def ofBit (b : Bool) (position : Nat) : Word :=
  if b then (1 : Word) <<< position else 0

/-- The primary opcode: the six most significant bits. -/
def primary (w : Word) : Nat := (w.extractLsb' 26 6).toNat

end Word

/-- Whether a field of `bits` bits holds `v` as an unsigned number. -/
def fitsUnsigned (v : Int64) (bits : Nat) : Bool :=
  decide (0 ≤ v.toInt) && decide (v.toInt < (Nat.pow 2 bits : Nat))

/-- Whether a field of `bits` bits holds `v` as a signed number. A field as wide as
`v` holds everything, and a width of zero sets no limit. -/
def fitsSigned (v : Int64) (bits : Nat) : Bool :=
  bits == 0 || decide (64 ≤ bits) ||
    (decide (-(Nat.pow 2 (bits - 1) : Nat) ≤ v.toInt) && decide (v.toInt < (Nat.pow 2 (bits - 1) : Nat)))

/-- The order in which the four bytes of a word are stored. -/
inductive ByteOrder where
  | big
  | little
deriving DecidableEq, Repr, Inhabited

namespace ByteOrder

/-- The bytes of a word as they lie in memory. -/
def bytes (order : ByteOrder) (w : Word) : List UInt8 :=
  let byte (low : Nat) : UInt8 := UInt8.ofNat (w.extractLsb' low 8).toNat
  match order with
  | .big => [byte 24, byte 16, byte 8, byte 0]
  | .little => [byte 0, byte 8, byte 16, byte 24]

/-- The word that four bytes in memory hold. -/
def word (order : ByteOrder) (b0 b1 b2 b3 : UInt8) : Word :=
  match order with
  | .big => b0.toBitVec ++ b1.toBitVec ++ b2.toBitVec ++ b3.toBitVec
  | .little => b3.toBitVec ++ b2.toBitVec ++ b1.toBitVec ++ b0.toBitVec

end ByteOrder
end PowerAsm
