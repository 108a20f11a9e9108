import PowerAsm.Assembler.Basic

/-! Labels. A branch to a label that is not bound yet is written with a displacement
of zero and remembered; binding the label fills the displacements in. -/
namespace PowerAsm

/-- A label, by its number in the assembler that created it. -/
structure Label where
  number : Int64
deriving DecidableEq, Repr

namespace Label

def index (l : Label) : Nat := l.number.toInt.toNat

end Label

namespace Asm

/-- Creates a label that is not bound. -/
def newLabel : Asm Label := do
  let number := (← assembler).labels.size
  modifyAssembler fun a => { a with labels := a.labels.push ⟨none, []⟩ }
  return ⟨Int64.ofNat number⟩

/-- What is known of a label of this assembler. -/
def labelState (l : Label) : Asm LabelState := do
  let labels := (← assembler).labels
  match if l.number < 0 then none else labels[l.index]? with
  | some state => return state
  | none => throw (.misuse (.foreignLabel l.number))

def setLabelState (l : Label) (state : LabelState) : Asm Unit :=
  modifyAssembler fun a => { a with labels := a.labels.setIfInBounds l.index state }

def isBound (l : Label) : Asm Bool := do return (← labelState l).bound.isSome

/-- The offset that the label is bound to. -/
def labelOffset (l : Label) : Asm Int64 := do
  match (← labelState l).bound with
  | some offset => return offset
  | none => throw (.misuse (.unboundLabel l.number))

/-- The form of a branch word. -/
def branchForm? (w : Word) : Option Form :=
  if w.primary = 18 then some .i else if w.primary = 16 then some .b else none

/-- The bits of the displacement field of a branch. -/
def displacementMask (form : Form) : Word :=
  Word.ofField (-1) 2 (Branch.displacementBits form)

/-- The branch word `w` at `site` with the displacement to `dest` filled in. -/
def patchedWord (w : Word) (site : PatchSite) (dest : Int64) : Except Fault Word := do
  match branchForm? w with
  | none => throw (.defect (.notBranch w.primary site.offset))
  | some form =>
    if form ≠ site.form then throw (.defect (.formMismatch site.offset site.form form))
    if w.bit 1 then throw (.defect (.absoluteBranch site.offset))
    let held := w &&& displacementMask form
    if held ≠ 0 then throw (.defect (.patchCollision site.offset held))
    let bits := Branch.displacementBits form
    let displacement ← (branchDisplacement site.offset dest bits).mapError .branchRange
    return w ||| Word.ofField displacement 2 bits

/-- Fills in the displacement of a branch that waited for its label. -/
def patch (dest : Int64) (site : PatchSite) : Asm Unit := do
  let buffer := (← assembler).buffer
  let w ← MonadExcept.ofExcept (buffer.wordAt (← get).segment site.offset)
  let patched ← MonadExcept.ofExcept (patchedWord w site dest)
  onSegment (buffer.putWordAt site.offset patched)
  record (.patched site.offset patched)

/-- Binds a label to the current offset and fills in all branches that wait for it. A
label is bound once. -/
def bind (l : Label) : Asm Unit := do
  let state ← labelState l
  let here ← offset
  match state.bound with
  | some first => throw (.misuse (.reboundLabel l.number first here))
  | none =>
    setLabelState l { state with bound := some here }
    state.pending.forM (patch here)
    setLabelState l ⟨some here, []⟩

/-- Writes a branch to a label. -/
def branchTo (branch : Branch) (l : Label) : Asm Unit := do
  let state ← labelState l
  let here ← offset
  match state.bound with
  | some dest => emitEncoded (branch.encodeFromTo here dest)
  | none =>
    setLabelState l { state with pending := state.pending ++ [⟨here, branch.form⟩] }
    emitEncoded ((branch.encode 0).mapError .encoding)

/-- Writes a branch that is taken when a condition holds in a condition field. -/
def branchIf (cr : CrField) (c : Condition) (l : Label) : Asm Unit :=
  branchTo (.conditional (branchOption c.onSet) (cr.bit c.bit)) l

/-- Refuses a label that branches wait for. -/
def checkLabels : Asm Unit := do
  let waiting := (← assembler).labels.toList.zipIdx.find? fun (state, _) =>
    state.bound.isNone && !state.pending.isEmpty
  match waiting with
  | some (⟨_, site :: rest⟩, index) =>
    throw (.misuse (.danglingLabel index (rest.length + 1) site.offset))
  | _ => return

/-- Refuses a frame without an epilog. -/
def checkFrames : Asm Unit := do
  match (← assembler).frames.toList.find? (!·.isClosed) with
  | some frame => throw (.misuse (.openFrame frame.offset))
  | none => return

/-- The finished code: every label that a branch names is bound, and every frame is
closed. -/
def finalize : Asm (List UInt8) := do
  checkLabels
  checkFrames
  MonadExcept.ofExcept ((← assembler).buffer.bytes (← get).segment)

end Asm
end PowerAsm
