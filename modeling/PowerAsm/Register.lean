import PowerAsm.Text.Numeral

/-! The register files. A register value may be out of range: it is then printed
as no register at all, and refused by the field it is packed into. -/
namespace PowerAsm
open Numeral

/-- A general purpose register, r0 to r31. -/
structure Gpr where
  number : Int8
deriving DecidableEq, Repr

namespace Gpr

def r0 : Gpr := ⟨0⟩
def r2 : Gpr := ⟨2⟩
def r12 : Gpr := ⟨12⟩

/-- The stack pointer. -/
def sp : Gpr := ⟨1⟩

def isValid (r : Gpr) : Bool := 0 ≤ r.number && r.number ≤ 31

/-- The number as it goes into a field. -/
def code (r : Gpr) : Int64 := r.number.toInt64

/-- The register whose number is the low eight bits of `n`. -/
def ofCode (n : Int64) : Gpr := ⟨n.toInt8⟩

def name (r : Gpr) : Text :=
  if r.isValid then "r" ++ decimal r.number.toInt else "noreg"

end Gpr

/-- A floating point register, f0 to f31. -/
structure Fpr where
  number : Int8
deriving DecidableEq, Repr

namespace Fpr

def isValid (f : Fpr) : Bool := 0 ≤ f.number && f.number ≤ 31

/-- The number as it goes into a field. -/
def code (f : Fpr) : Int64 := f.number.toInt64

/-- The register whose number is the low eight bits of `n`. -/
def ofCode (n : Int64) : Fpr := ⟨n.toInt8⟩

def name (f : Fpr) : Text :=
  if f.isValid then "f" ++ decimal f.number.toInt else "nofreg"

end Fpr

/-- One of the four bits of a condition field. -/
inductive ConditionBit where
  | lt
  | gt
  | eq
  | so
deriving DecidableEq, Repr

/-- The place of the bit in its field, from the most significant one. -/
def ConditionBit.index : ConditionBit → Int64
  | .lt => 0
  | .gt => 1
  | .eq => 2
  | .so => 3

/-- One of the eight fields cr0 to cr7 of the condition register. -/
structure CrField where
  number : Int8
deriving DecidableEq, Repr

namespace CrField

def cr0 : CrField := ⟨0⟩

def isValid (c : CrField) : Bool := 0 ≤ c.number && c.number ≤ 7

/-- The number as it goes into a field. -/
def code (c : CrField) : Int64 := c.number.toInt64

/-- The field whose number is the low eight bits of `n`. -/
def ofCode (n : Int64) : CrField := ⟨n.toInt8⟩

def name (c : CrField) : Text :=
  if c.isValid then "cr" ++ decimal c.number.toInt else "nocr"

/-- The number of a bit of this field within the whole condition register. -/
def bit (c : CrField) (b : ConditionBit) : Int64 := c.code * 4 + b.index

end CrField

/-- A special purpose register, spr0 to spr1023. -/
structure Spr where
  number : Int16
deriving DecidableEq, Repr

namespace Spr

/-- The fixed point exception register. -/
def xer : Spr := ⟨1⟩

/-- The link register, which holds the return address. -/
def lr : Spr := ⟨8⟩

/-- The count register, through which computed branches go. -/
def ctr : Spr := ⟨9⟩

def isValid (s : Spr) : Bool := 0 ≤ s.number && s.number < 1024

/-- The number as it goes into a field. -/
def code (s : Spr) : Int64 := s.number.toInt64

/-- The register whose number is the low sixteen bits of `n`. -/
def ofCode (n : Int64) : Spr := ⟨n.toInt16⟩

def name (s : Spr) : Text :=
  if s = xer then "xer"
  else if s = lr then "lr"
  else if s = ctr then "ctr"
  else "spr" ++ decimal s.number.toInt

end Spr
end PowerAsm
