import PowerAsm.Register

/-! The two targets and the constants of their calling conventions: System V for 32
bits, ELF version 1 for 64 bits. -/
namespace PowerAsm

inductive Target where
  | ppc32
  | ppc64
deriving DecidableEq, Repr, Inhabited

namespace Target

def name : Target → String
  | .ppc32 => "ppc32"
  | .ppc64 => "ppc64"

def ofName? (name : String) : Option Target :=
  [Target.ppc32, .ppc64].find? (·.name == name)

def is64 : Target → Bool
  | .ppc32 => false
  | .ppc64 => true

/-- The size of a general purpose register in bytes. -/
def wordSize : Target → Nat
  | .ppc32 => 4
  | .ppc64 => 8

/-- The number of words in the link area at the bottom of every frame. -/
def linkAreaWords : Target → Nat
  | .ppc32 => 2
  | .ppc64 => 6

def linkAreaSize (t : Target) : Nat := t.linkAreaWords * t.wordSize

/-- The word of the caller's link area that holds the saved condition register, if it
is not saved in the frame itself. -/
def crSaveWord? : Target → Option Nat
  | .ppc32 => none
  | .ppc64 => some 1

/-- The least size of the parameter area, in words. -/
def minParamWords : Target → Nat
  | .ppc32 => 0
  | .ppc64 => 8

/-- Where, in the caller's frame, the return address is saved. -/
def lrSaveOffset : Target → Nat
  | .ppc32 => 4
  | .ppc64 => 16

/-- Frame sizes are multiples of this many bytes. -/
def stackAlignment (_ : Target) : Nat := 16

/-- The number of floating point argument registers, from f1 on. -/
def floatArgs : Target → Nat
  | .ppc32 => 8
  | .ppc64 => 13

/-- Whether a 64-bit integer takes an aligned pair of registers or slots. -/
def pairsWideValues : Target → Bool
  | .ppc32 => true
  | .ppc64 => false

/-- The register through which functions at a known address are called. -/
def callRegister : Target → Gpr
  | .ppc32 => .r0
  | .ppc64 => .r12

/-- Where the table of contents pointer is kept during a call. Only where functions
are called through descriptors does a call change it. -/
def tocSaveOffset? : Target → Option Int64
  | .ppc32 => none
  | .ppc64 => some 40

/-- The first choice for 32 bits, the second for 64 bits. -/
def choose {α : Type} (t : Target) (narrow wide : α) : α :=
  match t with
  | .ppc32 => narrow
  | .ppc64 => wide

end Target
end PowerAsm
