import PowerAsm.Frame.Prolog
import PowerAsm.Source

/-! Several assemblers at work. Assemblers and buffers may share a segment, so that
what one of them writes moves the end of the others. Everything is known by its number
in order of creation. -/
namespace PowerAsm

/-- A buffer or an assembler, with the number of its segment. -/
structure OnSegment (α : Type) where
  segment : Nat
  value : α
deriving Repr

/-- A frame that was opened, by its assembler and its number there. -/
structure OpenFrameId where
  assembler : Nat
  index : Nat
deriving DecidableEq, Repr

/-- A frame under construction. It may be planned for no target: then registers can be
requested, which are the same everywhere, but nothing that depends on the word size. -/
structure PlannedFrame where
  frame : Frame
  hasTarget : Bool
deriving Repr

/-- A frame for the target, if there is one. -/
def PlannedFrame.ofTarget : Option Target → PlannedFrame
  | some target => ⟨.empty target, true⟩
  | none => ⟨.empty .ppc64, false⟩

structure Workspace where
  segments : Array Segment
  buffers : Array (OnSegment Buffer)
  assemblers : Array (OnSegment Assembler)
  frames : Array PlannedFrame
  openFrames : Array OpenFrameId
deriving Repr

/-- An action in a workspace. A failed action keeps the changes made so far. -/
abbrev WorkspaceM := EStateM Fault Workspace

namespace Workspace

def empty : Workspace := ⟨#[], #[], #[], #[], #[]⟩

/-- An element that has to be there. -/
def require {α : Type} (found : Option α) : WorkspaceM α :=
  match found with
  | some value => return value
  | none => throw .outOfBounds

def addSegment (s : Segment) : WorkspaceM Nat := do
  let id := (← get).segments.size
  modify fun w => { w with segments := w.segments.push s }
  return id

/-- Runs an action on a segment. -/
def onSegment {α : Type} (id : Nat) (action : SegmentM α) : WorkspaceM α := do
  let segment ← require (← get).segments[id]?
  fun w =>
    match action segment with
    | .ok value s => .ok value { w with segments := w.segments.setIfInBounds id s }
    | .error fault s => .error fault { w with segments := w.segments.setIfInBounds id s }

/-- Starts a buffer at the end of a segment. -/
def addBuffer (segment : Nat) : WorkspaceM Nat := do
  let start ← onSegment segment Segment.next
  let id := (← get).buffers.size
  modify fun w => { w with buffers := w.buffers.push ⟨segment, ⟨start⟩⟩ }
  return id

/-- Runs an action on a buffer. -/
def onBuffer {α : Type} (id : Nat) (action : Buffer → SegmentM α) : WorkspaceM α := do
  let buffer ← require (← get).buffers[id]?
  onSegment buffer.segment (action buffer.value)

/-- Starts an assembler at the end of a segment. -/
def addAssembler (target : Target) (segment : Nat) : WorkspaceM Nat := do
  let assembler ← onSegment segment (Assembler.start target)
  let id := (← get).assemblers.size
  modify fun w => { w with assemblers := w.assemblers.push ⟨segment, assembler⟩ }
  return id

/-- Runs an action of an assembler, which may fail in a way of its own. -/
def onAssembler {ε α : Type} (id : Nat) (action : EStateM ε Assembly α) :
    EStateM Fault Workspace (Except ε α) := do
  let assembler ← require (← get).assemblers[id]?
  let segment ← require (← get).segments[assembler.segment]?
  let keep (w : Workspace) (a : Assembly) : Workspace :=
    { w with
      segments := w.segments.setIfInBounds assembler.segment a.segment
      assemblers := w.assemblers.setIfInBounds id ⟨assembler.segment, a.assembler⟩ }
  fun w =>
    match action ⟨segment, assembler.value⟩ with
    | .ok value a => .ok (.ok value) (keep w a)
    | .error e a => .ok (.error e) (keep w a)

/-- Runs an action of an assembler. -/
def asm {α : Type} (id : Nat) (action : Asm α) : WorkspaceM α := do
  MonadExcept.ofExcept (← onAssembler id action)

def addFrame (target : Option Target) : WorkspaceM Nat := do
  let id := (← get).frames.size
  modify fun w => { w with frames := w.frames.push (.ofTarget target) }
  return id

def setFrame (id : Nat) (f : PlannedFrame) : WorkspaceM Unit :=
  modify fun w => { w with frames := w.frames.setIfInBounds id f }

/-- Puts a request for registers to a frame, whether or not it has a target. -/
def requestRegister {α : Type} (id : Nat) (request : Frame → Except Misuse (α × Frame)) :
    WorkspaceM α := do
  let f ← require (← get).frames[id]?
  let (value, frame) ← MonadExcept.ofExcept ((request f.frame).mapError .misuse)
  setFrame id { f with frame }
  return value

/-- Puts a request to a frame that has a target. -/
def onFrame {α : Type} (id : Nat) (request : Frame → Except Misuse (α × Frame)) :
    WorkspaceM α := do
  let f ← require (← get).frames[id]?
  if !f.hasTarget then throw .outOfBounds
  requestRegister id request

/-- Writes the prolog of a frame. The frame is frozen first, and stays so if the prolog
cannot be written. A frame without a target suits no assembler. -/
def prolog (frame assembler : Nat) : WorkspaceM Nat := do
  let f ← require (← get).frames[frame]?
  let target ← asm assembler Asm.target
  if !f.hasTarget then throw (.misuse (.targetMismatch "<nil>" target.name))
  MonadExcept.ofExcept ((f.frame.checkProlog target).mapError .misuse)
  setFrame frame { f with frame := { f.frame with frozen := true } }
  let index ← asm assembler f.frame.enter
  let id := (← get).openFrames.size
  modify fun w => { w with openFrames := w.openFrames.push ⟨assembler, index⟩ }
  return id

/-- The state of a frame that was opened. -/
def openFrame? (w : Workspace) (id : Nat) : Option OpenFrame := do
  let o ← w.openFrames[id]?
  let assembler ← w.assemblers[o.assembler]?
  assembler.value.frames[o.index]?

/-- Writes an epilog of an open frame, on the assembler that has its prolog. -/
def epilog (openFrame assembler : Nat) : WorkspaceM Unit := do
  let o ← require (← get).openFrames[openFrame]?
  let state ← require ((← get).openFrame? openFrame)
  if o.assembler ≠ assembler then throw (.misuse .foreignEpilog)
  asm assembler (Frame.leave o.index state)

/-- The action, as many times as asked and at least once; the first failure ends it. -/
def times {ε σ α : Type} (action : EStateM ε σ α) : Nat → EStateM ε σ α
  | 0 => action
  | 1 => action
  | n + 2 => do
    let _ ← action
    times action (n + 1)

end Workspace
end PowerAsm
