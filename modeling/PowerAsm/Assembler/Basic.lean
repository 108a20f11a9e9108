import PowerAsm.Frame.Layout
import PowerAsm.Instruction.Alias
import PowerAsm.Segment

/-! Assemblers. An assembler writes instruction words to a buffer at the end of a code
segment, and keeps its labels, the frames opened on it and the log of every word that
was written or patched. -/
namespace PowerAsm

/-- What was done to the code, at an offset of the buffer. -/
inductive Event where
  | emitted (offset : Int64) (word : Word)
  | patched (offset : Int64) (word : Word)
deriving DecidableEq, Repr

/-- A branch that was written without a displacement. -/
structure PatchSite where
  offset : Int64
  form : Form
deriving DecidableEq, Repr

/-- What is known of a label. -/
structure LabelState where
  /-- The offset that the label was bound to. -/
  bound : Option Int64
  /-- The branches that wait for it, in the order in which they were written. -/
  pending : List PatchSite
deriving DecidableEq, Repr

structure Assembler where
  target : Target
  buffer : Buffer
  labels : Array LabelState
  frames : Array OpenFrame
  log : Array Event
deriving Repr

/-- An assembler at work on its segment. -/
structure Assembly where
  segment : Segment
  assembler : Assembler
deriving Repr

/-- An action of an assembler. A failed action keeps the changes made so far. -/
abbrev Asm := EStateM Fault Assembly

namespace Assembler

/-- An assembler that has written nothing to its buffer. -/
def initial (target : Target) (buffer : Buffer) : Assembler := ⟨target, buffer, #[], #[], #[]⟩

/-- Starts an assembler at the end of a segment. -/
def start (target : Target) : SegmentM Assembler := do
  return initial target ⟨← Segment.next⟩

/-- An empty segment needs no filling up. -/
theorem start_empty (target : Target) (order : ByteOrder) :
    (start target).run (.empty order) = .ok (initial target ⟨0⟩) (.empty order) := by
  cases order <;> rfl

end Assembler

/-- A fresh assembler with an empty segment of its own. -/
def Assembly.fresh (target : Target) (order : ByteOrder) : Assembly :=
  ⟨.empty order, .initial target ⟨0⟩⟩

namespace Asm

/-- Runs an action on the segment. -/
def onSegment {α : Type} (action : SegmentM α) : Asm α := fun a =>
  match action a.segment with
  | .ok value segment => .ok value { a with segment }
  | .error fault segment => .error fault { a with segment }

def modifyAssembler (f : Assembler → Assembler) : Asm Unit :=
  modify fun a => { a with assembler := f a.assembler }

def assembler : Asm Assembler := do return (← get).assembler

def target : Asm Target := do return (← assembler).target

/-- The offset at which the next word will be written. -/
def offset : Asm Int64 := do
  return (← assembler).buffer.length (← get).segment

def record (event : Event) : Asm Unit :=
  modifyAssembler fun a => { a with log := a.log.push event }

/-- Writes a word at the end of the code. -/
def emit (w : Word) : Asm Unit := do
  let here ← offset
  onSegment (Segment.appendWord w)
  record (.emitted here w)

/-- A word that was written has moved the end of the segment forward. -/
theorem size_lt_of_emit {w : Word} {a b : Assembly} (ran : emit w a = .ok () b) :
    a.segment.size.toInt < b.segment.size.toInt := by
  have four : (a.segment.order.bytes w).length = 4 := by cases a.segment.order <;> rfl
  obtain ⟨here, a₀, read, rest⟩ := bind_ok ran
  cases read
  obtain ⟨⟨⟩, a₁, written, recorded⟩ := bind_ok rest
  cases recorded
  simp only [onSegment] at written
  split at written
  · next appended =>
    cases written
    obtain ⟨s₀, s₁, read, appended⟩ := bind_ok appended
    cases read
    exact Segment.size_lt_of_append (by omega) (by rw [four]; decide) appended
  · cases written

/-- Writes the word, if there is one. -/
def emitEncoded (w : Except Fault Word) : Asm Unit := do
  emit (← MonadExcept.ofExcept w)

theorem size_lt_of_emitEncoded {w : Except Fault Word} {a b : Assembly}
    (ran : emitEncoded w a = .ok () b) : a.segment.size.toInt < b.segment.size.toInt := by
  cases w with
  | ok w => exact size_lt_of_emit ran
  | error e => cases ran

/-- Writes an instruction. A branch target is a distance in bytes. -/
def instr (op : Opcode) (args : Args op.operands) : Asm Unit := emitEncoded (op.encode args 0)

/-- Writes a simplified instruction. A branch target is a distance in bytes. -/
def short (a : Alias) (args : Args a.operands) : Asm Unit := emitEncoded (a.encode args 0)

end Asm
end PowerAsm
