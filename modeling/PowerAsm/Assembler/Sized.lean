import PowerAsm.Assembler.Label

/-! Instructions whose encoding depends on the word size of the target. -/
namespace PowerAsm.Asm

/-- The first action for 32 bits, the second for 64 bits. -/
def sized (narrow wide : Asm Unit) : Asm Unit := do
  (← target).choose narrow wide

/-- Loads a word. -/
def load (rt : Gpr) (a : Address) : Asm Unit :=
  sized (instr .lwz (rt, a, ())) (instr .ld (rt, a, ()))

/-- Stores a word. -/
def store (rs : Gpr) (a : Address) : Asm Unit :=
  sized (instr .stw (rs, a, ())) (instr .std (rs, a, ()))

/-- Stores a word and leaves its address in the base register. -/
def storeUpdate (rs : Gpr) (a : Address) : Asm Unit :=
  sized (instr .stwu (rs, a, ())) (instr .stdu (rs, a, ()))

def loadIndexed (rt ra rb : Gpr) : Asm Unit :=
  sized (instr .lwzx (rt, ra, rb, ())) (instr .ldx (rt, ra, rb, ()))

def storeIndexed (rs ra rb : Gpr) : Asm Unit :=
  sized (instr .stwx (rs, ra, rb, ())) (instr .stdx (rs, ra, rb, ()))

/-- Stores a word at an indexed address and leaves the address in `ra`. -/
def storeUpdateIndexed (rs ra rb : Gpr) : Asm Unit :=
  sized
    (emitEncoded (Opcode.stwux.encodeAs "stwux" (rs.code, ra.code, rb.code, ()) 0))
    (emitEncoded (Opcode.stdux.encodeAs "stdux" (rs.code, ra.code, rb.code, ()) 0))

/-- Loads a word and reserves it. -/
def loadReserve (rt ra rb : Gpr) : Asm Unit :=
  sized (instr .lwarx (rt, ra, rb, ())) (instr .ldarx (rt, ra, rb, ()))

/-- Stores a word if it is still reserved, which is told in cr0. -/
def storeConditional (rs ra rb : Gpr) : Asm Unit :=
  sized (instr .stwcx (rs, ra, rb, ())) (instr .stdcx (rs, ra, rb, ()))

/-- Compares two words as signed numbers. -/
def compare (cr : CrField) (ra rb : Gpr) : Asm Unit :=
  sized (instr .cmpw (cr, ra, rb, ())) (instr .cmpd (cr, ra, rb, ()))

def compareImmediate (cr : CrField) (ra : Gpr) (si : Int64) : Asm Unit :=
  sized (instr .cmpwi (cr, ra, si, ())) (instr .cmpdi (cr, ra, si, ()))

/-- Compares two words as unsigned numbers. -/
def compareLogical (cr : CrField) (ra rb : Gpr) : Asm Unit :=
  sized (instr .cmplw (cr, ra, rb, ())) (instr .cmpld (cr, ra, rb, ()))

def compareLogicalImmediate (cr : CrField) (ra : Gpr) (ui : Int64) : Asm Unit :=
  sized (instr .cmplwi (cr, ra, ui, ())) (instr .cmpldi (cr, ra, ui, ()))

def shiftLeftImmediate (ra rs : Gpr) (n : Int64) : Asm Unit :=
  sized (short .slwi (ra, rs, n, ())) (short .sldi (ra, rs, n, ()))

def shiftRightImmediate (ra rs : Gpr) (n : Int64) : Asm Unit :=
  sized (short .srwi (ra, rs, n, ())) (short .srdi (ra, rs, n, ()))

/-- Shifts to the right, filling up with the sign. -/
def shiftRightAlgebraicImmediate (ra rs : Gpr) (n : Int64) : Asm Unit :=
  sized (instr .srawi (ra, rs, n, ())) (instr .sradi (ra, rs, n, ()))

def shiftLeft (ra rs rb : Gpr) : Asm Unit :=
  sized (instr .slw (ra, rs, rb, ())) (instr .sld (ra, rs, rb, ()))

def shiftRight (ra rs rb : Gpr) : Asm Unit :=
  sized (instr .srw (ra, rs, rb, ())) (instr .srd (ra, rs, rb, ()))

/-- Shifts to the right, filling up with the sign. -/
def shiftRightAlgebraic (ra rs rb : Gpr) : Asm Unit :=
  sized (instr .sraw (ra, rs, rb, ())) (instr .srad (ra, rs, rb, ()))

end PowerAsm.Asm
