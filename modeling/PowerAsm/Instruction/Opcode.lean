import PowerAsm.Instruction.Layout

/-! The instruction set: every instruction by its name, its layout and the constant
bits of its word. The same table drives the assembler and the disassembler. -/
namespace PowerAsm

inductive Opcode where
  | sync | isync | mulli | subfic | cmplwi | cmpldi | cmpwi | cmpdi | addi | addis | bc
  | bcl | b | bl | bclr | bcctr | bcctrl | rlwinm | ori | oris | xori | xoris | andi
  | rldicl | rldicr | rldic | cmpw | cmpd | cmplw | cmpld | tw | mfcr | lwarx | ldx | lwzx
  | slw | cntlzw | sld | and | subf | cntlzd | andc | ldarx | lbzx | neg | nor | mtcrf
  | stdx | stwcx | stwx | stdux | stwux | stdcx | stbx | mulld | mullw | add | lhzx | xor
  | mfspr | lwax | or | divdu | divwu | mtspr | divd | divw | srw | srd | lfdx | stfdx
  | sraw | srad | srawi | sradi | extsh | extsb | extsw | lwz | lbz | stw | stwu | stb
  | lhz | lha | sth | lfs | lfd | stfs | stfd | ld | lwa | std | stdu | fcmpu | fdiv | fsub
  | fadd | fmul | fneg | fmr
deriving DecidableEq, Repr

/-- What is known of one instruction. -/
structure Opcode.Entry where
  name : String
  layout : Layout
  constants : Constants

namespace Opcode

/-- An instruction told apart by its primary opcode alone. -/
def plain (name : String) (layout : Layout) (primary : Nat) : Entry :=
  ⟨name, layout, ⟨primary, 0, false, false⟩⟩

/-- An instruction with an extended opcode. -/
def extended (name : String) (layout : Layout) (primary extended : Nat) : Entry :=
  ⟨name, layout, ⟨primary, extended, false, false⟩⟩

/-- An entry whose lowest bit is set: it records, or links. -/
def Entry.setLow (e : Entry) : Entry := { e with constants.low := true }

/-- An entry that compares doublewords. -/
def Entry.doubleword (e : Entry) : Entry := { e with constants.doubleword := true }

def entry : Opcode → Entry
  | .sync => extended "sync" .nothing 31 598
  | .isync => extended "isync" .nothing 19 150
  | .mulli => plain "mulli" .rtRaSi 7
  | .subfic => plain "subfic" .rtRaSi 8
  | .cmplwi => plain "cmplwi" .crRaUi 10
  | .cmpldi => (plain "cmpldi" .crRaUi 10).doubleword
  | .cmpwi => plain "cmpwi" .crRaSi 11
  | .cmpdi => (plain "cmpdi" .crRaSi 11).doubleword
  | .addi => plain "addi" .rtRaSi 14
  | .addis => plain "addis" .rtRaSi 15
  | .bc => plain "bc" .boBiTarget 16
  | .bcl => (plain "bcl" .boBiTargetWide 16).setLow
  | .b => plain "b" .target 18
  | .bl => (plain "bl" .target 18).setLow
  | .bclr => extended "bclr" .boBi 19 16
  | .bcctr => extended "bcctr" .boBi 19 528
  | .bcctrl => (extended "bcctrl" .boBi 19 528).setLow
  | .rlwinm => plain "rlwinm" .raRsShMbMe 21
  | .ori => plain "ori" .raRsUi 24
  | .oris => plain "oris" .raRsUi 25
  | .xori => plain "xori" .raRsUi 26
  | .xoris => plain "xoris" .raRsUi 27
  | .andi => plain "andi." .raRsUi 28
  | .rldicl => extended "rldicl" .raRsShBound 30 0
  | .rldicr => extended "rldicr" .raRsShBound 30 1
  | .rldic => extended "rldic" .raRsShBound 30 2
  | .cmpw => extended "cmpw" .crRaRb 31 0
  | .cmpd => (extended "cmpd" .crRaRb 31 0).doubleword
  | .cmplw => extended "cmplw" .crRaRb 31 32
  | .cmpld => (extended "cmpld" .crRaRb 31 32).doubleword
  | .tw => extended "tw" .toRaRb 31 4
  | .mfcr => extended "mfcr" .rtOnly 31 19
  | .lwarx => extended "lwarx" .rtRaRb 31 20
  | .ldx => extended "ldx" .rtRaRb 31 21
  | .lwzx => extended "lwzx" .rtRaRb 31 23
  | .slw => extended "slw" .raRsRb 31 24
  | .cntlzw => extended "cntlzw" .raRs 31 26
  | .sld => extended "sld" .raRsRb 31 27
  | .and => extended "and" .raRsRb 31 28
  | .subf => extended "subf" .rtRaRb 31 40
  | .cntlzd => extended "cntlzd" .raRs 31 58
  | .andc => extended "andc" .raRsRb 31 60
  | .ldarx => extended "ldarx" .rtRaRb 31 84
  | .lbzx => extended "lbzx" .rtRaRb 31 87
  | .neg => extended "neg" .rtRa 31 104
  | .nor => extended "nor" .raRsRb 31 124
  | .mtcrf => extended "mtcrf" .maskRs 31 144
  | .stdx => extended "stdx" .rtRaRb 31 149
  | .stwcx => (extended "stwcx." .rtRaRb 31 150).setLow
  | .stwx => extended "stwx" .rtRaRb 31 151
  | .stdux => extended "stdux" .rtRaRbWide 31 181
  | .stwux => extended "stwux" .rtRaRbWide 31 183
  | .stdcx => (extended "stdcx." .rtRaRb 31 214).setLow
  | .stbx => extended "stbx" .rtRaRb 31 215
  | .mulld => extended "mulld" .rtRaRb 31 233
  | .mullw => extended "mullw" .rtRaRb 31 235
  | .add => extended "add" .rtRaRb 31 266
  | .lhzx => extended "lhzx" .rtRaRb 31 279
  | .xor => extended "xor" .raRsRb 31 316
  | .mfspr => extended "mfspr" .rtSpr 31 339
  | .lwax => extended "lwax" .rtRaRb 31 341
  | .or => extended "or" .raRsRb 31 444
  | .divdu => extended "divdu" .rtRaRb 31 457
  | .divwu => extended "divwu" .rtRaRb 31 459
  | .mtspr => extended "mtspr" .sprRs 31 467
  | .divd => extended "divd" .rtRaRb 31 489
  | .divw => extended "divw" .rtRaRb 31 491
  | .srw => extended "srw" .raRsRb 31 536
  | .srd => extended "srd" .raRsRb 31 539
  | .lfdx => extended "lfdx" .ftRaRb 31 599
  | .stfdx => extended "stfdx" .ftRaRb 31 727
  | .sraw => extended "sraw" .raRsRb 31 792
  | .srad => extended "srad" .raRsRb 31 794
  | .srawi => extended "srawi" .raRsShift32 31 824
  | .sradi => extended "sradi" .raRsShift64 31 826
  | .extsh => extended "extsh" .raRs 31 922
  | .extsb => extended "extsb" .raRs 31 954
  | .extsw => extended "extsw" .raRs 31 986
  | .lwz => plain "lwz" .rtMem 32
  | .lbz => plain "lbz" .rtMem 34
  | .stw => plain "stw" .rtMem 36
  | .stwu => plain "stwu" .rtMem 37
  | .stb => plain "stb" .rtMem 38
  | .lhz => plain "lhz" .rtMem 40
  | .lha => plain "lha" .rtMem 42
  | .sth => plain "sth" .rtMem 44
  | .lfs => plain "lfs" .ftMem 48
  | .lfd => plain "lfd" .ftMem 50
  | .stfs => plain "stfs" .ftMem 52
  | .stfd => plain "stfd" .ftMem 54
  | .ld => extended "ld" .rtMemWords 58 0
  | .lwa => extended "lwa" .rtMemWords 58 2
  | .std => extended "std" .rtMemWords 62 0
  | .stdu => extended "stdu" .rtMemWords 62 1
  | .fcmpu => extended "fcmpu" .crFaFb 63 0
  | .fdiv => extended "fdiv" .ftFaFb 63 18
  | .fsub => extended "fsub" .ftFaFb 63 20
  | .fadd => extended "fadd" .ftFaFb 63 21
  | .fmul => extended "fmul" .ftFaFc 63 25
  | .fneg => extended "fneg" .ftFb 63 40
  | .fmr => extended "fmr" .ftFb 63 72

/-- All instructions, in the order in which words are compared with them. -/
def all : List Opcode := [
  .sync, .isync, .mulli, .subfic, .cmplwi, .cmpldi, .cmpwi, .cmpdi, .addi, .addis, .bc,
  .bcl, .b, .bl, .bclr, .bcctr, .bcctrl, .rlwinm, .ori, .oris, .xori, .xoris, .andi,
  .rldicl, .rldicr, .rldic, .cmpw, .cmpd, .cmplw, .cmpld, .tw, .mfcr, .lwarx, .ldx, .lwzx,
  .slw, .cntlzw, .sld, .and, .subf, .cntlzd, .andc, .ldarx, .lbzx, .neg, .nor, .mtcrf,
  .stdx, .stwcx, .stwx, .stdux, .stwux, .stdcx, .stbx, .mulld, .mullw, .add, .lhzx, .xor,
  .mfspr, .lwax, .or, .divdu, .divwu, .mtspr, .divd, .divw, .srw, .srd, .lfdx, .stfdx,
  .sraw, .srad, .srawi, .sradi, .extsh, .extsb, .extsw, .lwz, .lbz, .stw, .stwu, .stb,
  .lhz, .lha, .sth, .lfs, .lfd, .stfs, .stfd, .ld, .lwa, .std, .stdu, .fcmpu, .fdiv, .fsub,
  .fadd, .fmul, .fneg, .fmr]

def name (op : Opcode) : String := op.entry.name

def layout (op : Opcode) : Layout := op.entry.layout

def operands (op : Opcode) : List OperandType := op.layout.operands

/-- The bits in which every word of this instruction agrees. -/
def mask (op : Opcode) : Word := op.layout.mask

/-- What those bits are. -/
def value (op : Opcode) : Word := op.layout.value op.entry.constants

/-- Whether `w` is a word of this instruction. -/
def isWord (op : Opcode) (w : Word) : Bool := w &&& op.mask == op.value

/-- The name under which errors are reported. Where operands are packed as they are,
the instruction is known by its primary opcode only. -/
def title (op : Opcode) : String :=
  match op.layout with
  | .boBi | .rtRaRbWide | .boBiTargetWide =>
    Format.opcodeName (Int64.ofNat op.entry.constants.primary)
  | _ => op.name

/-- The word of the instruction at `pc`, with errors reported under the name `title`. -/
def encodeAs (title : String) (op : Opcode) (args : Args op.operands) (pc : Int64) :
    Except Fault Word :=
  op.layout.encode title op.entry.constants pc args

/-- The word of the instruction at `pc`. -/
def encode (op : Opcode) (args : Args op.operands) (pc : Int64) : Except Fault Word :=
  op.encodeAs op.title args pc

/-- The operands of a word of this instruction that stands at `pc`. -/
def read (op : Opcode) (w : Word) (pc : Int64) : Args op.operands := op.layout.read w pc

/-- The entries that can match a word with this primary opcode. -/
def withPrimary (table : List Opcode) (primary : Nat) : List Opcode :=
  table.filter fun op => op.value.primary == primary

/-- The first instruction of the table that `w` is a word of. -/
def ofWord? (table : List Opcode) (w : Word) : Option Opcode :=
  (withPrimary table w.primary).find? (·.isWord w)

end Opcode

/-- An instruction with its operands. -/
structure Instr where
  op : Opcode
  args : Args op.operands

namespace Instr

def operands (i : Instr) : List Operand := Args.toOperands i.op.operands i.args

def encode (i : Instr) (pc : Int64) : Except Fault Word := i.op.encode i.args pc

/-- The instruction that the word `w` at `pc` holds, if it is one of the table. -/
def ofWord? (table : List Opcode) (w : Word) (pc : Int64) : Option Instr :=
  (Opcode.ofWord? table w).map fun op => ⟨op, op.read w pc⟩

end Instr
end PowerAsm
