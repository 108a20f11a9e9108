import PowerAsm.Assembler.Sequence

/-! Prologs and epilogs. The prolog allocates a frame and saves what the frame
promises to keep; an epilog restores it in the opposite order and frees the frame. -/
namespace PowerAsm.Frame

/-- The registers with the places they are saved in, one behind the other. -/
def places {α : Type} (registers : List α) (start : Int64) (size : Nat) : List (α × Address) :=
  registers.zipIdx.map fun (r, i) => (r, .onStack (start + Int64.ofNat (i * size)))

/-- The size as it goes into an instruction. -/
def sizeOffset (f : Frame) : Int64 := Int64.ofNat f.size

/-- Where the return address is saved, from the stack pointer of the caller. -/
def linkSave (f : Frame) : Int64 := Int64.ofNat f.target.lrSaveOffset

/-- Allocates the frame and saves the return address. -/
def allocate (f : Frame) : Asm Unit :=
  let saves := f.saveAreas
  if f.preserveVolatiles then do
    Asm.storeUpdate .sp (.onStack (-f.sizeOffset))
    Asm.store .r0 (.onStack saves.r0)
    Asm.short .mflr (.r0, ())
    Asm.store .r0 (.onStack (f.sizeOffset + f.linkSave))
  else do
    Asm.short .mflr (.r0, ())
    Asm.store .r0 (.onStack f.linkSave)
    Asm.storeUpdate .sp (.onStack (-f.sizeOffset))

/-- Saves r3 to r12, the count register and f0 to f13. -/
def storeVolatiles (f : Frame) : Asm Unit := do
  let saves := f.saveAreas
  (places volatileGprList saves.volatileGprs f.target.wordSize).forM fun (r, a) => Asm.store r a
  Asm.short .mfctr (.r0, ())
  Asm.store .r0 (.onStack saves.ctr)
  (places volatileFprList saves.volatileFprs fprSize).forM fun (r, a) => Asm.instr .stfd (r, a, ())

/-- Saves the condition register and the non-volatile registers of the frame. -/
def storeSaved (f : Frame) : Asm Unit := do
  let saves := f.saveAreas
  if 0 < f.crFields then
    Asm.instr .mfcr (.r0, ())
    Asm.instr .stw (.r0, .onStack saves.cr, ())
  (places f.savedGprs saves.gprs f.target.wordSize).forM fun (r, a) => Asm.store r a
  (places f.savedFprs saves.fprs fprSize).forM fun (r, a) => Asm.instr .stfd (r, a, ())

/-- The instructions of the prolog. -/
def emitProlog (f : Frame) : Asm Unit := do
  f.allocate
  if f.preserveVolatiles then f.storeVolatiles
  f.storeSaved
  if f.preserveVolatiles then Asm.load .r0 (.onStack f.saveAreas.r0)

/-- Refuses a second prolog, and an assembler for another target. -/
def checkProlog (f : Frame) (target : Target) : Except Misuse Unit :=
  if f.frozen then .error .secondProlog
  else if target ≠ f.target then .error (.targetMismatch f.target.name target.name)
  else .ok ()

/-- Writes the prolog and opens the frame. Returns its number among the frames of the
assembler. -/
def enter (f : Frame) : Asm Nat := do
  let offset ← Asm.offset
  let reached := f.saveAreas.finish
  if reached ≠ f.sizeOffset then throw (.defect (.frameLayout reached f.sizeOffset))
  f.emitProlog
  let index := (← Asm.assembler).frames.size
  Asm.modifyAssembler fun a => { a with frames := a.frames.push ⟨f, offset, 0⟩ }
  return index

/-- Restores the non-volatile registers and the condition fields of the frame. -/
def loadSaved (f : Frame) : Asm Unit := do
  let saves := f.saveAreas
  (places f.savedFprs saves.fprs fprSize).reverse.forM fun (r, a) => Asm.instr .lfd (r, a, ())
  (places f.savedGprs saves.gprs f.target.wordSize).reverse.forM fun (r, a) => Asm.load r a
  if 0 < f.crFields then
    Asm.instr .lwz (.r0, .onStack saves.cr, ())
    Asm.instr .mtcrf (f.crMask, .r0, ())

/-- Restores f0 to f13, the count register and r3 to r12. -/
def loadVolatiles (f : Frame) : Asm Unit := do
  let saves := f.saveAreas
  (places volatileFprList saves.volatileFprs fprSize).reverse.forM fun (r, a) =>
    Asm.instr .lfd (r, a, ())
  Asm.load .r0 (.onStack saves.ctr)
  Asm.short .mtctr (.r0, ())
  (places volatileGprList saves.volatileGprs f.target.wordSize).reverse.forM fun (r, a) =>
    Asm.load r a

/-- Frees the frame and restores the return address. -/
def free (f : Frame) : Asm Unit :=
  if f.preserveVolatiles then do
    Asm.load .r0 (.onStack (f.sizeOffset + f.linkSave))
    Asm.short .mtlr (.r0, ())
    Asm.load .r0 (.onStack f.saveAreas.r0)
    Asm.instr .addi (.sp, .sp, f.sizeOffset, ())
  else do
    Asm.instr .addi (.sp, .sp, f.sizeOffset, ())
    Asm.load .r0 (.onStack f.linkSave)
    Asm.short .mtlr (.r0, ())

/-- The instructions of an epilog. It does not return to the caller. -/
def emitEpilog (f : Frame) : Asm Unit := do
  f.loadSaved
  if f.preserveVolatiles then f.loadVolatiles
  f.free

/-- Writes an epilog of the frame with this number. There may be one for every way out
of the code. -/
def leave (index : Nat) (o : OpenFrame) : Asm Unit := do
  o.frame.emitEpilog
  Asm.modifyAssembler fun a =>
    { a with frames := a.frames.modify index fun o => { o with epilogs := o.epilogs + 1 } }

end PowerAsm.Frame
