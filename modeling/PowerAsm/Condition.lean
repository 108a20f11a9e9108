import PowerAsm.Register

/-! Branch conditions: each one tests a bit of a condition field, for being set or
for being clear. -/
namespace PowerAsm
open Numeral

inductive Condition where
  | eq
  | ne
  | lt
  | ge
  | gt
  | le
deriving DecidableEq, Repr

namespace Condition

def all : List Condition := [.eq, .ne, .lt, .ge, .gt, .le]

/-- The number by which the condition is known to callers. -/
def code : Condition → UInt8
  | .eq => 0
  | .ne => 1
  | .lt => 2
  | .ge => 3
  | .gt => 4
  | .le => 5

def ofCode? (n : UInt8) : Option Condition := all.find? (·.code == n)

def name : Condition → String
  | .eq => "eq"
  | .ne => "ne"
  | .lt => "lt"
  | .ge => "ge"
  | .gt => "gt"
  | .le => "le"

/-- The condition that holds exactly when this one does not. -/
def negate : Condition → Condition
  | .eq => .ne
  | .ne => .eq
  | .lt => .ge
  | .ge => .lt
  | .gt => .le
  | .le => .gt

/-- The bit that is tested. -/
def bit : Condition → ConditionBit
  | .eq | .ne => .eq
  | .lt | .ge => .lt
  | .gt | .le => .gt

/-- Whether the branch is taken on a set bit. -/
def onSet : Condition → Bool
  | .eq | .lt | .gt => true
  | .ne | .ge | .le => false

/-- The condition that tests `bit` for being set, or for being clear. No condition
tests the summary overflow bit. -/
def testing? : ConditionBit → Bool → Option Condition
  | .lt, true => some .lt
  | .lt, false => some .ge
  | .gt, true => some .gt
  | .gt, false => some .le
  | .eq, true => some .eq
  | .eq, false => some .ne
  | .so, _ => none

/-- The name of a condition number, also of one that stands for no condition. -/
def codeName (n : UInt8) : Text :=
  match ofCode? n with
  | some c => c.name
  | none => "cond(" ++ decimal n.toNat ++ ")"

/-- The numbers of a condition and of its negation differ in the lowest bit. -/
def negateCode (n : UInt8) : UInt8 := n ^^^ 1

end Condition

/-- The branch options of the BO field: which value of the tested bit is taken. -/
def branchOption (onSet : Bool) : Int64 := if onSet then 12 else 4

/-- The branch option that tests nothing. -/
def branchAlways : Int64 := 20

/-- The trap option that makes a trap unconditional. -/
def trapAlways : Int64 := 31

end PowerAsm
