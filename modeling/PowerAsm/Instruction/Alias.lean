import PowerAsm.Condition
import PowerAsm.Instruction.Opcode

/-! Simplified mnemonics. Each one stands for an instruction with some operands
fixed; `Alias.expand` writes it out and `Instr.simplify` finds it again. -/
namespace PowerAsm

inductive Alias where
  | mr
  | nop
  | li
  | lis
  | sub
  | blr
  | bctr
  | bctrl
  | branch (condition : Condition)
  | slwi
  | srwi
  | sldi
  | srdi
  | clrldi
  | mflr
  | mfctr
  | mtlr
  | mtctr
  | mtcr
  | trap
deriving DecidableEq, Repr

namespace Alias

def all : List Alias :=
  [mr, nop, li, lis, sub, blr, bctr, bctrl] ++ Condition.all.map branch ++
    [slwi, srwi, sldi, srdi, clrldi, mflr, mfctr, mtlr, mtctr, mtcr, trap]

def name : Alias → String
  | .mr => "mr"
  | .nop => "nop"
  | .li => "li"
  | .lis => "lis"
  | .sub => "sub"
  | .blr => "blr"
  | .bctr => "bctr"
  | .bctrl => "bctrl"
  | .branch c => "b" ++ c.name
  | .slwi => "slwi"
  | .srwi => "srwi"
  | .sldi => "sldi"
  | .srdi => "srdi"
  | .clrldi => "clrldi"
  | .mflr => "mflr"
  | .mfctr => "mfctr"
  | .mtlr => "mtlr"
  | .mtctr => "mtctr"
  | .mtcr => "mtcr"
  | .trap => "trap"

def operands : Alias → List OperandType
  | .nop | .blr | .bctr | .bctrl | .trap => []
  | .mflr | .mfctr | .mtlr | .mtctr | .mtcr => [.gpr]
  | .mr => [.gpr, .gpr]
  | .li | .lis => [.gpr, .immediate]
  | .sub => [.gpr, .gpr, .gpr]
  | .branch _ => [.crField, .target]
  | .slwi | .srwi | .sldi | .srdi | .clrldi => [.gpr, .gpr, .immediate]

/-- The instruction that the alias stands for. -/
def expand : (a : Alias) → Args a.operands → Except EncodingError Instr
  | .mr, (ra, rs, ()) => .ok ⟨.or, (ra, rs, rs, ())⟩
  | .nop, () => .ok ⟨.ori, (.r0, .r0, 0, ())⟩
  | .li, (rt, si, ()) => .ok ⟨.addi, (rt, .r0, si, ())⟩
  | .lis, (rt, si, ()) => .ok ⟨.addis, (rt, .r0, si, ())⟩
  | .sub, (rt, ra, rb, ()) => .ok ⟨.subf, (rt, rb, ra, ())⟩
  | .blr, () => .ok ⟨.bclr, (branchAlways, 0, ())⟩
  | .bctr, () => .ok ⟨.bcctr, (branchAlways, 0, ())⟩
  | .bctrl, () => .ok ⟨.bcctrl, (branchAlways, 0, ())⟩
  | .branch c, (cr, dest, ()) => .ok ⟨.bc, (branchOption c.onSet, cr.bit c.bit, dest, ())⟩
  | .slwi, (ra, rs, n, ()) => do
    Layout.checkShift "slwi" n 31
    return ⟨.rlwinm, (ra, rs, n, 0, 31 - n, ())⟩
  | .srwi, (ra, rs, n, ()) => do
    Layout.checkShift "srwi" n 31
    return ⟨.rlwinm, (ra, rs, (32 - n) &&& 31, n, 31, ())⟩
  | .sldi, (ra, rs, n, ()) => do
    Layout.checkShift "sldi" n 63
    return ⟨.rldicr, (ra, rs, n, 63 - n, ())⟩
  | .srdi, (ra, rs, n, ()) => do
    Layout.checkShift "srdi" n 63
    return ⟨.rldicl, (ra, rs, (64 - n) &&& 63, n, ())⟩
  | .clrldi, (ra, rs, n, ()) => do
    Layout.checkShift "clrldi" n 63
    return ⟨.rldicl, (ra, rs, 0, n, ())⟩
  | .mflr, (rt, ()) => .ok ⟨.mfspr, (rt, .lr, ())⟩
  | .mfctr, (rt, ()) => .ok ⟨.mfspr, (rt, .ctr, ())⟩
  | .mtlr, (rs, ()) => .ok ⟨.mtspr, (.lr, rs, ())⟩
  | .mtctr, (rs, ()) => .ok ⟨.mtspr, (.ctr, rs, ())⟩
  | .mtcr, (rs, ()) => .ok ⟨.mtcrf, (0xFF, rs, ())⟩
  | .trap, () => .ok ⟨.tw, (trapAlways, .r0, .r0, ())⟩

/-- The name under which errors of the written-out instruction `op` are reported: the
loads of an immediate keep their own. -/
def title (a : Alias) (op : Opcode) : String :=
  match a with
  | .li | .lis => a.name
  | _ => op.title

/-- The word of the alias at `pc`. -/
def encode (a : Alias) (args : Args a.operands) (pc : Int64) : Except Fault Word := do
  let i ← (a.expand args).mapError .encoding
  i.op.encodeAs (a.title i.op) i.args pc

/-- The operand lists that are accepted. A conditional branch on cr0 need not name it. -/
def shapes (a : Alias) : List (List OperandType) :=
  match a with
  | .branch _ => [[.target], a.operands]
  | _ => [a.operands]

/-- The operands with a condition field that is not written filled in. -/
def complete : Alias → List Operand → List Operand
  | .branch _, [.target dest] => [.conditionField 0, .target dest]
  | _, os => os

/-- The operands without a condition field that need not be written. -/
def shorten : Alias → List Operand → List Operand
  | .branch _, [.conditionField n, .target dest] =>
    if n = 0 then [.target dest] else [.conditionField n, .target dest]
  | _, os => os

/-- An alias with its operands. -/
structure Use where
  head : Alias
  args : Args head.operands

/-- The operands as they are written. -/
def Use.operands (u : Use) : List Operand :=
  u.head.shorten (Args.toOperands u.head.operands u.args)

end Alias

/-- The condition field and the condition that a conditional branch tests, where it
tests a single bit for being set or clear. -/
def Condition.ofBranch? (bo bi : Int64) : Option (CrField × Condition) := do
  let onSet ←
    if bo = branchOption true then some true
    else if bo = branchOption false then some false
    else none
  let bit ← [ConditionBit.lt, .gt, .eq, .so].find? (·.index == bi % 4)
  let condition ← Condition.testing? bit onSet
  return (.ofCode (bi / 4), condition)

/-- The alias that is written for an instruction, if there is one. -/
def Instr.simplify : Instr → Option Alias.Use
  | ⟨.or, (ra, rs, rb, ())⟩ => if rs = rb then some ⟨.mr, (ra, rs, ())⟩ else none
  | ⟨.ori, (ra, rs, ui, ())⟩ =>
    if ra = .r0 ∧ rs = .r0 ∧ ui = 0 then some ⟨.nop, ()⟩ else none
  | ⟨.addi, (rt, ra, si, ())⟩ => if ra = .r0 then some ⟨.li, (rt, si, ())⟩ else none
  | ⟨.addis, (rt, ra, si, ())⟩ => if ra = .r0 then some ⟨.lis, (rt, si, ())⟩ else none
  | ⟨.subf, (rt, ra, rb, ())⟩ => some ⟨.sub, (rt, rb, ra, ())⟩
  | ⟨.bclr, (bo, bi, ())⟩ => if bo = branchAlways ∧ bi = 0 then some ⟨.blr, ()⟩ else none
  | ⟨.bcctr, (bo, bi, ())⟩ => if bo = branchAlways ∧ bi = 0 then some ⟨.bctr, ()⟩ else none
  | ⟨.bcctrl, (bo, bi, ())⟩ => if bo = branchAlways ∧ bi = 0 then some ⟨.bctrl, ()⟩ else none
  | ⟨.bc, (bo, bi, dest, ())⟩ =>
    (Condition.ofBranch? bo bi).map fun (cr, c) => ⟨.branch c, (cr, dest, ())⟩
  | ⟨.rlwinm, (ra, rs, sh, mb, me, ())⟩ =>
    if mb = 0 ∧ me = 31 - sh then some ⟨.slwi, (ra, rs, sh, ())⟩
    else if me = 31 ∧ sh = (32 - mb) &&& 31 then some ⟨.srwi, (ra, rs, mb, ())⟩
    else none
  | ⟨.rldicr, (ra, rs, sh, me, ())⟩ =>
    if me = 63 - sh then some ⟨.sldi, (ra, rs, sh, ())⟩ else none
  | ⟨.rldicl, (ra, rs, sh, mb, ())⟩ =>
    if sh = 0 then some ⟨.clrldi, (ra, rs, mb, ())⟩
    else if sh = (64 - mb) &&& 63 then some ⟨.srdi, (ra, rs, mb, ())⟩
    else none
  | ⟨.mfspr, (rt, spr, ())⟩ =>
    if spr = .lr then some ⟨.mflr, (rt, ())⟩
    else if spr = .ctr then some ⟨.mfctr, (rt, ())⟩
    else none
  | ⟨.mtspr, (spr, rs, ())⟩ =>
    if spr = .lr then some ⟨.mtlr, (rs, ())⟩
    else if spr = .ctr then some ⟨.mtctr, (rs, ())⟩
    else none
  | ⟨.mtcrf, (mask, rs, ())⟩ => if mask = 0xFF then some ⟨.mtcr, (rs, ())⟩ else none
  | ⟨.tw, (option, ra, rb, ())⟩ =>
    if option = trapAlways ∧ ra = .r0 ∧ rb = .r0 then some ⟨.trap, ()⟩ else none
  | _ => none

end PowerAsm
