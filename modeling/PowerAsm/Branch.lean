import PowerAsm.Format

/-! Branch displacements, counted in words from the branch itself. -/
namespace PowerAsm

/-- The displacement that leads from `source` to `dest`. There is none when the way is
no whole number of words, or too far for a signed field of `bits` bits. Addresses wrap
around. -/
def branchDisplacement (source dest : Int64) (bits : Nat) : Except BranchRangeError Int64 :=
  let way := dest - source
  if way.toInt % 4 = 0 ∧ fitsSigned (way / 4) bits then .ok (way / 4)
  else .error ⟨source, dest, bits⟩

/-- A branch without its displacement. -/
inductive Branch where
  | always
  /-- Saves the return address. -/
  | call
  | conditional (bo bi : Int64)
deriving DecidableEq, Repr

namespace Branch

def form : Branch → Form
  | .always | .call => .i
  | .conditional _ _ => .b

/-- The width of the displacement field of a branch form. -/
def displacementBits : Form → Nat
  | .i => 24
  | _ => 14

def bits (branch : Branch) : Nat := displacementBits branch.form

/-- The word of a branch by a number of words. -/
def encode (branch : Branch) (displacement : Int64) : Except EncodingError Word :=
  match branch with
  | .always => Format.i "b" 18 displacement false false
  | .call => Format.i "bl" 18 displacement false true
  | .conditional bo bi => Format.b "bc" 16 bo bi displacement false false

/-- The word of a branch that stands at `source` and leads to `dest`. -/
def encodeFromTo (branch : Branch) (source dest : Int64) : Except Fault Word := do
  let displacement ← (branchDisplacement source dest branch.bits).mapError .branchRange
  (branch.encode displacement).mapError .encoding

end Branch
end PowerAsm
