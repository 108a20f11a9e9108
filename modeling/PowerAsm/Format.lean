import PowerAsm.Fault

/-! Packing of instruction words. Every form is a list of slots, each with a name, a
value and the range of values it takes. A word is packed when every value fits its
slot; otherwise the first slot that does not fit, in the order of the list, is
reported and nothing is packed. -/
namespace PowerAsm

/-- The ranges a slot of some width can take. -/
inductive SlotRange where
  | unsigned
  | signed
  /-- Signed, or the unsigned pattern of the same width. -/
  | either
deriving DecidableEq, Repr

/-- One operand of an instruction word. -/
structure Slot where
  name : String
  value : Int64
  bits : Nat
  range : SlotRange
  /-- The bits that the value sets, where they stand in the word. -/
  word : Word
deriving Repr

namespace Slot

def unsigned (name : String) (value : Int64) (bits low : Nat) : Slot :=
  ⟨name, value, bits, .unsigned, Word.ofField value low bits⟩

def signed (name : String) (value : Int64) (bits low : Nat) : Slot :=
  ⟨name, value, bits, .signed, Word.ofField value low bits⟩

def either (name : String) (value : Int64) (bits low : Nat) : Slot :=
  ⟨name, value, bits, .either, Word.ofField value low bits⟩

/-- A single bit, which always fits. -/
def flag (name : String) (b : Bool) (position : Nat) : Slot :=
  unsigned name (if b then 1 else 0) 1 position

/-- The primary opcode, in the six most significant bits. -/
def primary (opcode : Int64) : Slot := unsigned "opcode" opcode 6 26

/-- A six-bit shift amount, whose highest bit stands apart from the other five. -/
def splitShift (amount : Int64) : Slot :=
  ⟨"SH", amount, 6, .unsigned, Word.ofField amount 11 5 ||| Word.ofField (amount >>> 5) 1 1⟩

/-- A six-bit mask bound, whose highest bit stands below the other five. -/
def splitMask (bound : Int64) : Slot :=
  ⟨"M", bound, 6, .unsigned, Word.ofField bound 6 5 ||| Word.ofField (bound >>> 5) 5 1⟩

def fits (s : Slot) : Bool :=
  match s.range with
  | .unsigned => fitsUnsigned s.value s.bits
  | .signed => fitsSigned s.value s.bits
  | .either => fitsUnsigned s.value s.bits || fitsSigned s.value s.bits

/-- What is reported of a slot that does not fit. -/
def violation (op : String) (s : Slot) : EncodingError :=
  ⟨op, .width s.name s.value s.bits (s.range != .unsigned)⟩

end Slot

/-- The word made of all slots, or the first slot that does not fit. -/
def pack (op : String) (slots : List Slot) : Except EncodingError Word :=
  match slots.find? (fun s => !s.fits) with
  | some s => .error (s.violation op)
  | none => .ok (slots.foldl (fun w s => w ||| s.word) 0)

namespace Format

/-- The name of an instruction that is known by its primary opcode only. -/
def opcodeName (opcode : Int64) : String :=
  "opcode " ++ (Numeral.decimal opcode.toInt).toString

/-- The I form: a branch by `li` words. -/
def i (op : String) (opcode li : Int64) (aa lk : Bool) : Except EncodingError Word :=
  pack op [.primary opcode, .signed "LI" li 24 2, .flag "AA" aa 1, .flag "LK" lk 0]

/-- The B form: a conditional branch by `bd` words. -/
def b (op : String) (opcode bo bi bd : Int64) (aa lk : Bool) : Except EncodingError Word :=
  pack op [.primary opcode, .unsigned "BO" bo 5 21, .unsigned "BI" bi 5 16,
    .signed "BD" bd 14 2, .flag "AA" aa 1, .flag "LK" lk 0]

/-- The D form: two registers and a 16-bit immediate. A signed immediate may also be
given as its unsigned pattern. -/
def d (op : String) (opcode a b imm : Int64) (signed : Bool) : Except EncodingError Word :=
  pack op [.primary opcode, .unsigned "A" a 5 21, .unsigned "B" b 5 16,
    if signed then .either "IMM" imm 16 0 else .unsigned "IMM" imm 16 0]

/-- The DS form: two registers and a displacement in bytes, a multiple of four. A
displacement that is no multiple of four is reported before anything else. -/
def ds (op : String) (opcode a b disp xo : Int64) : Except EncodingError Word :=
  if disp.toInt % 4 ≠ 0 then .error ⟨op, .misalignedDisplacement disp⟩
  else
    pack op [.primary opcode, .unsigned "A" a 5 21, .unsigned "B" b 5 16,
      .either "DS" (disp >>> 2) 14 2, .unsigned "XO" xo 2 0]

/-- The X form: three registers and an extended opcode. -/
def x (op : String) (opcode a b c xo : Int64) (rc : Bool) : Except EncodingError Word :=
  pack op [.primary opcode, .unsigned "A" a 5 21, .unsigned "B" b 5 16,
    .unsigned "C" c 5 11, .unsigned "XO" xo 10 1, .flag "Rc" rc 0]

/-- The M form: a 32-bit rotate and the bounds of its mask. -/
def m (op : String) (opcode rs ra sh mb me : Int64) (rc : Bool) : Except EncodingError Word :=
  pack op [.primary opcode, .unsigned "RS" rs 5 21, .unsigned "RA" ra 5 16,
    .unsigned "SH" sh 5 11, .unsigned "MB" mb 5 6, .unsigned "ME" me 5 1, .flag "Rc" rc 0]

/-- The MD form: a 64-bit rotate and one bound of its mask. -/
def md (op : String) (opcode rs ra sh bound xo : Int64) (rc : Bool) :
    Except EncodingError Word :=
  pack op [.primary opcode, .unsigned "RS" rs 5 21, .unsigned "RA" ra 5 16,
    .splitShift sh, .splitMask bound, .unsigned "XO" xo 3 2, .flag "Rc" rc 0]

/-- A rotate of either width, told apart by the primary opcode: 21 for 32 bits, where
`e` ends the mask, and 30 for 64 bits, where `e` is the extended opcode. -/
def rotate (op : String) (opcode rs ra sh bound e : Int64) (rc : Bool) :
    Except EncodingError Word :=
  if opcode = 21 then m op opcode rs ra sh bound e rc
  else if opcode = 30 then md op opcode rs ra sh bound e rc
  else .error ⟨op, .notRotate opcode⟩

end Format

/-- The operands of a 64-bit rotate, as they stand in a word. -/
structure RotateFields where
  rs : Int64
  ra : Int64
  shift : Int64
  bound : Int64
  extended : Int64
  record : Bool
deriving DecidableEq, Repr

/-- Reads an MD form word, putting its two split operands together again. -/
def RotateFields.ofWord (w : Word) : RotateFields where
  rs := w.unsigned 21 5
  ra := w.unsigned 16 5
  shift := w.unsigned 11 5 + 32 * w.unsigned 1 1
  bound := w.unsigned 6 5 + 32 * w.unsigned 5 1
  extended := w.unsigned 2 3
  record := w.bit 0

end PowerAsm
