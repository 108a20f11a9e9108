import PowerAsm.Target
import PowerAsm.Word

/-! How an assembler is set up. -/
namespace PowerAsm

structure Config where
  target : Target
  order : ByteOrder
  /-- Whether someone is told of every word that is written. -/
  listened : Bool
deriving DecidableEq, Repr

/-- A change of the set-up. A change that names no value changes nothing. -/
inductive Setting where
  | target (t : Option Target)
  | order (o : Option ByteOrder)
  | listener
deriving DecidableEq, Repr

/-- Whether the setting names a value. -/
def Setting.isGiven : Setting → Bool
  | .target t => t.isSome
  | .order o => o.isSome
  | .listener => true

namespace Config

/-- The 64-bit target, big-endian, with nobody listening. -/
def default : Config := ⟨.ppc64, .big, false⟩

def apply (c : Config) : Setting → Config
  | .target t => { c with target := t.getD c.target }
  | .order o => { c with order := o.getD c.order }
  | .listener => { c with listened := true }

end Config
end PowerAsm
