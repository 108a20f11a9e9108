import PowerAsm.Instruction.Parser
import PowerAsm.Text.Upper

/-! Instructions in the syntax of the Go assembler: operands in source, destination
order, and the opcode and register names of that assembler. -/
namespace PowerAsm.GoSyntax
open Numeral

/-! ### Registers

All register files share one numbering, in which a register number that its own file
does not have names a register of a neighbouring one. -/

def generalBase : Int64 := 4096
def floatBase : Int64 := 4128
def vectorBase : Int64 := 4160
def vectorScalarBase : Int64 := 4192
def conditionBase : Int64 := 4256
def specialBase : Int64 := 5120
def deviceBase : Int64 := 6144

/-- The register that holds the current goroutine. -/
def goroutine : Int64 := generalBase + 30

/-- The name of the register with this number of the common numbering. -/
def registerName (n : Int64) : Text :=
  if n = 0 then "NONE"
  else if n < generalBase ∨ deviceBase + 1024 ≤ n then "R???" ++ decimal n.toInt
  else if n = goroutine then "g"
  else if n < floatBase then "R" ++ decimal (n - generalBase).toInt
  else if n < vectorBase then "F" ++ decimal (n - floatBase).toInt
  else if n < vectorScalarBase then "V" ++ decimal (n - vectorBase).toInt
  else if n < conditionBase then "VS" ++ decimal (n - vectorScalarBase).toInt
  else if n < conditionBase + 8 then "CR" ++ decimal (n - conditionBase).toInt
  else if n = conditionBase + 8 then "MSR"
  else if n = conditionBase + 9 then "FPSCR"
  else if n = conditionBase + 10 then "CR"
  else if n < specialBase then "Rgok(" ++ decimal (n - generalBase).toInt ++ ")"
  else if n = specialBase + 1 then "XER"
  else if n = specialBase + 8 then "LR"
  else if n = specialBase + 9 then "CTR"
  else if n < deviceBase then "SPR(" ++ decimal (n - specialBase).toInt ++ ")"
  else "DCR(" ++ decimal (n - deviceBase).toInt ++ ")"

def linkRegister : Text := registerName (specialBase + 8)

def countRegister : Text := registerName (specialBase + 9)

def operand : Operand → Text
  | .register n => registerName (generalBase + n)
  | .floatRegister n => registerName (floatBase + n)
  | .conditionField n => registerName (conditionBase + n)
  | .immediate v => "$" ++ decimal v.toInt
  | .memory disp base => decimal disp.toInt ++ "(" ++ registerName (generalBase + base) ++ ")"
  | o => o.text

/-! ### Opcodes -/

/-- The opcodes whose name is not the mnemonic in upper case. -/
def opcodeName? : Mnemonic → Option String
  | .base .addi => some "ADD"
  | .base .andc => some "ANDN"
  | .base .andi => some "ANDCC"
  | .base .b => some "JMP"
  | .base .bl => some "CALL"
  | .base .cmpd | .base .cmpdi => some "CMP"
  | .base .cmpld | .base .cmpldi => some "CMPU"
  | .base .cmplw | .base .cmplwi => some "CMPWU"
  | .base .cmpw | .base .cmpwi => some "CMPW"
  | .base .fmr | .base .lfd | .base .stfd => some "FMOVD"
  | .base .lfs | .base .stfs => some "FMOVS"
  | .base .lbz => some "MOVBZ"
  | .base .stb => some "MOVB"
  | .base .lhz => some "MOVHZ"
  | .base .lha | .base .sth => some "MOVH"
  | .base .lwz => some "MOVWZ"
  | .base .lwa | .base .stw => some "MOVW"
  | .base .ld | .base .std => some "MOVD"
  | .base .ldarx => some "LDAR"
  | .base .lwarx => some "LWAR"
  | .base .ori => some "OR"
  | .base .xori => some "XOR"
  | .base .stwcx => some "STWCCC"
  | .base .stdcx => some "STDCCC"
  | .short .li | .short .mr | .short .mflr | .short .mfctr | .short .mtlr | .short .mtctr =>
    some "MOVD"
  | _ => none

def opcodeName (op : Text) : Text :=
  match (Mnemonic.ofName? op).bind opcodeName? with
  | some name => name
  | none => op.upper

/-! ### Operand order -/

/-- The stores, which name their source first in either syntax. -/
def isStore : Mnemonic → Bool
  | .base op =>
    [Opcode.stb, .sth, .stw, .stwu, .std, .stdu, .stfs, .stfd, .stbx, .stwx, .stdx, .stwux,
      .stdux, .stfdx, .stwcx, .stdcx].contains op
  | _ => false

/-- Operands in source, destination order. Stores and branches are written in it
already, and what sets a condition field names the field last. -/
def ordered (op : Text) (operands : List Operand) : List Operand :=
  if Instruction.isBranch op ∨ (Mnemonic.ofName? op).any isStore then operands
  else
    match operands with
    | .conditionField n :: rest => rest ++ [.conditionField n]
    | _ => operands.reverse

/-- The operands of an instruction, in order. A move from or to a special register
names it; there is no text when the other operand is missing. -/
def operands? (i : Instruction) : Option (List Text) :=
  match Mnemonic.ofName? i.op with
  | some (.short .mflr) => i.operands.head?.map fun o => [linkRegister, operand o]
  | some (.short .mfctr) => i.operands.head?.map fun o => [countRegister, operand o]
  | some (.short .mtlr) => i.operands.head?.map fun o => [operand o, linkRegister]
  | some (.short .mtctr) => i.operands.head?.map fun o => [operand o, countRegister]
  | _ => some ((ordered i.op i.operands).map operand)

/-- The instruction in this syntax. An instruction that is not known is its word. -/
def text? (i : Instruction) : Option Text :=
  if i.isKnown then (operands? i).map (Instruction.line (opcodeName i.op))
  else some ("WORD $" ++ Instruction.wordText i.word)

end PowerAsm.GoSyntax
