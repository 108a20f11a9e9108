import PowerAsm.Signature.Argument
import PowerAsm.Target

/-! How arguments are passed: each one in the next free register of its class, and on
the stack once there is none. -/
namespace PowerAsm
open Numeral

/-- Where an argument is passed. Stack slots are four bytes each. -/
inductive Location where
  /-- Nowhere: a placeholder. -/
  | nowhere
  | register (r : Gpr)
  /-- A wide value in `r` and the register behind it, high word first. -/
  | pair (r : Gpr)
  | floatRegister (f : Fpr)
  | stack (slot slots : Nat)
deriving DecidableEq, Repr

def Location.text : Location → Text
  | .nowhere => "-"
  | .register r => r.name
  | .pair r => r.name ++ ":" ++ Gpr.name ⟨r.number + 1⟩
  | .floatRegister f => f.name
  | .stack slot slots => "stack[" ++ decimal slot ++ ":" ++ decimal (slot + slots : Nat) ++ "]"

/-- Why a list of argument types is no signature. -/
inductive SignatureError where
  /-- A second half at `index` follows no wide value. -/
  | strayHalf (index : Nat) (previous : Option ArgType)
  | unknownType (code : UInt8)
deriving DecidableEq, Repr

def SignatureError.message : SignatureError → Text
  | .strayHalf index previous =>
    "argument " ++ decimal index ++ ": half of a wide value follows "
      ++ (match previous with
        | some t => t.name
        | none => "nothing")
  | .unknownType code => "BUG: unknown argument type " ++ decimal code.toNat

namespace Signature

/-- How many registers and stack slots are in use. -/
structure Usage where
  ints : Nat
  floats : Nat
  stack : Nat
deriving DecidableEq, Repr

/-- The number of general argument registers, from r3 on. -/
def intRegisters : Nat := 8

/-- The stack slots of a register. -/
def slotsPerWord (t : Target) : Nat := t.wordSize / 4

def intRegister (index : Nat) : Gpr := ⟨Int8.ofNat (3 + index)⟩

def floatRegister (index : Nat) : Fpr := ⟨Int8.ofNat (1 + index)⟩

/-- The least even number that is not below `n`. -/
def roundUpToEven (n : Nat) : Nat := n + n % 2

/-- Passes a value on the stack. -/
def onStack (slots : Nat) (u : Usage) : Location × Usage :=
  (.stack u.stack slots, { u with stack := u.stack + slots })

/-- Passes a value on the stack, from an even slot on. -/
def onStackEven (slots : Nat) (u : Usage) : Location × Usage :=
  onStack slots { u with stack := roundUpToEven u.stack }

/-- Passes a value in the next general register, or else as `spilled` says. -/
def inRegister (spilled : Usage → Location × Usage) (u : Usage) : Location × Usage :=
  if u.ints < intRegisters then (.register (intRegister u.ints), { u with ints := u.ints + 1 })
  else spilled u

/-- Passes a wide value in a pair of registers that starts at an even place, or else on
the stack. -/
def inPair (u : Usage) : Location × Usage :=
  let first := roundUpToEven u.ints
  if first + 1 < intRegisters then (.pair (intRegister first), { u with ints := first + 2 })
  else onStackEven 2 { u with ints := first }

/-- Passes a value in the next floating point register, or else as `spilled` says. -/
def inFloatRegister (t : Target) (spilled : Usage → Location × Usage) (u : Usage) :
    Location × Usage :=
  if u.floats < t.floatArgs then
    (.floatRegister (floatRegister u.floats), { u with floats := u.floats + 1 })
  else spilled u

/-- Passes the argument at `index`, which comes after an argument of type `previous`. -/
def assignOne (t : Target) (index : Nat) (previous : Option ArgType) (arg : ArgType) (u : Usage) :
    Except SignatureError (Location × Usage) :=
  match arg with
  | .int | .pointer => .ok (inRegister (onStack (slotsPerWord t)) u)
  | .long => .ok (if t.pairsWideValues then inPair u else inRegister (onStack 2) u)
  | .float =>
    let spilled := if t.pairsWideValues then onStackEven 2 else onStack (slotsPerWord t)
    .ok (inFloatRegister t spilled u)
  | .double => .ok (inFloatRegister t (onStackEven 2) u)
  | .half =>
    if previous.any ArgType.isWide then .ok (.nowhere, u)
    else .error (.strayHalf index previous)
  | .unknown code => .error (.unknownType code)

/-- Passes the arguments from `index` on. -/
def assignFrom (t : Target) : Nat → Option ArgType → List ArgType → Usage →
    Except SignatureError (List Location × Usage)
  | _, _, [], u => .ok ([], u)
  | index, previous, arg :: rest, u => do
    let (location, u) ← assignOne t index previous arg u
    let (locations, u) ← assignFrom t (index + 1) (some arg) rest u
    return (location :: locations, u)

/-- The places of all arguments, and the number of stack slots they take. -/
def assign (t : Target) (args : List ArgType) : Except SignatureError (List Location × Nat) := do
  let (locations, u) ← assignFrom t 0 none args ⟨0, 0, 0⟩
  return (locations, u.stack)

end Signature
end PowerAsm
