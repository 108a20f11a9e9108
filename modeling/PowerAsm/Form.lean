import PowerAsm.Text.Numeral

/-! The instruction forms: the fixed ways in which the bits of a word are divided
into fields. -/
namespace PowerAsm
open Numeral

inductive Form where
  | i
  | b
  | d
  | ds
  | x
  | m
  | md
deriving DecidableEq, Repr

namespace Form

def all : List Form := [.i, .b, .d, .ds, .x, .m, .md]

/-- The number by which the form is known to callers. -/
def code : Form → UInt8
  | .i => 0
  | .b => 1
  | .d => 2
  | .ds => 3
  | .x => 4
  | .m => 5
  | .md => 6

def ofCode? (n : UInt8) : Option Form := all.find? (·.code == n)

def name : Form → String
  | .i => "I"
  | .b => "B"
  | .d => "D"
  | .ds => "DS"
  | .x => "X"
  | .m => "M"
  | .md => "MD"

/-- The name of a form number, also of one that stands for no form. -/
def codeName (n : UInt8) : Text :=
  match ofCode? n with
  | some f => f.name
  | none => "form(" ++ decimal n.toNat ++ ")"

end Form
end PowerAsm
