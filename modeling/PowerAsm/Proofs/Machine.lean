import PowerAsm.Instruction.Opcode
import PowerAsm.Proofs.Memory
import PowerAsm.Target

/-! A machine that runs code in a straight line. Its registers are as wide as the words of
the target, except for the floating point registers and the condition register; memory is
addressed by bytes, in either byte order. Instructions that are not described here, or that
the target does not have, stop the machine. -/
namespace PowerAsm.Proofs
open Memory

/-- Runs instructions one after the other, each as `exec` says. -/
def execAll? {σ : Type} (exec : σ → Instr → Option σ) (is : List Instr) (s : σ) : Option σ :=
  is.foldlM exec s

section Run
variable {σ : Type} {exec : σ → Instr → Option σ} {s s' : σ}

theorem execAll_nil (s : σ) : execAll? exec [] s = some s := rfl

theorem execAll_cons {i : Instr} (done : exec s i = some s') (rest : List Instr) :
    execAll? exec (i :: rest) s = execAll? exec rest s' := by
  rw [execAll?, List.foldlM_cons, done]
  rfl

/-- Running code that starts with some instruction is running this one first. -/
theorem exists_of_execAll_cons {i : Instr} {is : List Instr}
    (done : execAll? exec (i :: is) s = some s') :
    ∃ next, exec s i = some next ∧ execAll? exec is next = some s' :=
  Option.bind_eq_some_iff.mp done

theorem execAll_append {is : List Instr} (done : execAll? exec is s = some s')
    (rest : List Instr) : execAll? exec (is ++ rest) s = execAll? exec rest s' := by
  rw [execAll?] at done
  rw [execAll?, List.foldlM_append, done]
  rfl

/-- One instruction for each item of a list. The states on the way are given by the items that
are done. -/
theorem execAll_map {α : Type} (code : α → Instr) (state : List α → σ) {l : List α}
    (step : ∀ done x rest, done ++ x :: rest = l →
      exec (state done) (code x) = some (state (done ++ [x]))) :
    execAll? exec (l.map code) (state []) = some (state l) := by
  have from_here (rest : List α) : ∀ done, done ++ rest = l →
      execAll? exec (rest.map code) (state done) = some (state l) := by
    induction rest with
    | nil =>
      intro done whole
      rw [List.append_nil] at whole
      rw [whole]
      rfl
    | cons x rest ih =>
      intro done whole
      rw [List.map_cons, execAll_cons (step done x rest whole)]
      exact ih (done ++ [x]) (by rw [List.append_assoc, List.singleton_append, whole])
  exact from_here l [] rfl

end Run

/-- The number of bits of a general register. -/
abbrev width (t : Target) : Nat := 8 * t.wordSize

structure Machine (t : Target) where
  gpr : Gpr → BitVec (width t)
  fpr : Fpr → BitVec 64
  cr : BitVec 32
  lr : BitVec (width t)
  ctr : BitVec (width t)
  memory : Memory (width t)

namespace Machine
variable {t : Target}

def setGpr (s : Machine t) (r : Gpr) (v : BitVec (width t)) : Machine t :=
  { s with gpr := fun x => if x = r then v else s.gpr x }

def setFpr (s : Machine t) (f : Fpr) (v : BitVec 64) : Machine t :=
  { s with fpr := fun x => if x = f then v else s.fpr x }

/-- A special register. Only the link and the count register are known. -/
def spr? (s : Machine t) (spr : Spr) : Option (BitVec (width t)) :=
  if spr = .lr then some s.lr else if spr = .ctr then some s.ctr else none

def setSpr? (s : Machine t) (spr : Spr) (v : BitVec (width t)) : Option (Machine t) :=
  if spr = .lr then some { s with lr := v }
  else if spr = .ctr then some { s with ctr := v }
  else none

/-- A number as a register holds it. -/
def number (v : Int64) : BitVec (width t) := BitVec.ofInt (width t) v.toInt

/-- The first summand of an address or of an addition: r0 stands for zero. -/
def base (s : Machine t) (r : Gpr) : BitVec (width t) := if r = .r0 then 0 else s.gpr r

def address (s : Machine t) (a : Address) : BitVec (width t) := s.base a.base + number a.displacement

/-- The bits of a register up to the one with this number. The first one is the most
significant. -/
def upperBits (last : Int64) : BitVec (width t) :=
  BitVec.allOnes (width t) <<< (width t - 1 - last.toInt.toNat)

/-- The bits of the condition register in the fields that a mask selects. The least
significant bit of the mask stands for the last field. -/
def fieldBits (mask : Int64) : BitVec 32 :=
  (List.range 8).foldl
    (fun bits k => if mask.toBitVec.getLsbD k then bits ||| 0xF#32 <<< (4 * k) else bits) 0

/-- The condition register with the fields that a mask selects replaced. -/
def replaceFields (cr new : BitVec 32) (mask : Int64) : BitVec 32 :=
  new &&& fieldBits mask ||| cr &&& ~~~fieldBits mask

/-- A field of the condition register. The first one is the most significant. -/
def field (s : Machine t) (c : CrField) : BitVec 4 :=
  s.cr.extractLsb' (4 * (7 - c.number.toInt.toNat)) 4

def load (order : ByteOrder) (s : Machine t) (a : Address) (n : Nat) : BitVec (8 * n) :=
  Memory.load order s.memory (s.address a) n

def store (order : ByteOrder) (s : Machine t) (a : Address) (n : Nat) (v : BitVec (8 * n)) :
    Machine t :=
  { s with memory := Memory.store order s.memory (s.address a) n v }

/-- Stores and leaves the address in its base register, which cannot be r0. -/
def storeUpdate? (order : ByteOrder) (s : Machine t) (a : Address) (n : Nat) (v : BitVec (8 * n)) :
    Option (Machine t) :=
  if a.base = .r0 then none else some ((s.store order a n v).setGpr a.base (s.address a))

/-- As `storeUpdate?`, at the sum of two registers. -/
def storeUpdateIndexed? (order : ByteOrder) (s : Machine t) (ra rb : Gpr) (n : Nat)
    (v : BitVec (8 * n)) : Option (Machine t) :=
  let a := s.gpr ra + s.gpr rb
  if ra = .r0 then none
  else some { s.setGpr ra a with memory := Memory.store order s.memory a n v }

/-- What an instruction does. -/
def exec? (order : ByteOrder) (s : Machine t) : Instr → Option (Machine t)
  | ⟨.addi, (rt, ra, si, ())⟩ => some (s.setGpr rt (s.base ra + number si))
  | ⟨.addis, (rt, ra, si, ())⟩ => some (s.setGpr rt (s.base ra + number si <<< 16))
  | ⟨.ori, (ra, rs, ui, ())⟩ => some (s.setGpr ra (s.gpr rs ||| number ui))
  | ⟨.oris, (ra, rs, ui, ())⟩ => some (s.setGpr ra (s.gpr rs ||| number ui <<< 16))
  | ⟨.rldicr, (ra, rs, sh, last, ())⟩ =>
    if t.is64 then some (s.setGpr ra ((s.gpr rs).rotateLeft sh.toInt.toNat &&& upperBits last))
    else none
  | ⟨.add, (rt, ra, rb, ())⟩ => some (s.setGpr rt (s.gpr ra + s.gpr rb))
  | ⟨.subf, (rt, ra, rb, ())⟩ => some (s.setGpr rt (s.gpr rb - s.gpr ra))
  | ⟨.neg, (rt, ra, ())⟩ => some (s.setGpr rt (-s.gpr ra))
  | ⟨.or, (ra, rs, rb, ())⟩ => some (s.setGpr ra (s.gpr rs ||| s.gpr rb))
  | ⟨.mfspr, (rt, spr, ())⟩ => (s.spr? spr).map (s.setGpr rt)
  | ⟨.mtspr, (spr, rs, ())⟩ => s.setSpr? spr (s.gpr rs)
  | ⟨.mfcr, (rt, ())⟩ => some (s.setGpr rt (s.cr.setWidth _))
  | ⟨.mtcrf, (mask, rs, ())⟩ => some { s with cr := replaceFields s.cr ((s.gpr rs).setWidth 32) mask }
  | ⟨.lwz, (rt, a, ())⟩ => some (s.setGpr rt ((s.load order a 4).setWidth _))
  | ⟨.ld, (rt, a, ())⟩ =>
    if t.is64 then some (s.setGpr rt ((s.load order a 8).setWidth _)) else none
  | ⟨.stw, (rs, a, ())⟩ => some (s.store order a 4 ((s.gpr rs).setWidth _))
  | ⟨.std, (rs, a, ())⟩ =>
    if t.is64 then some (s.store order a 8 ((s.gpr rs).setWidth _)) else none
  | ⟨.stwu, (rs, a, ())⟩ => s.storeUpdate? order a 4 ((s.gpr rs).setWidth _)
  | ⟨.stdu, (rs, a, ())⟩ =>
    if t.is64 then s.storeUpdate? order a 8 ((s.gpr rs).setWidth _) else none
  | ⟨.stwux, (rs, ra, rb, ())⟩ =>
    s.storeUpdateIndexed? order (.ofCode ra) (.ofCode rb) 4 ((s.gpr (.ofCode rs)).setWidth _)
  | ⟨.stdux, (rs, ra, rb, ())⟩ =>
    if t.is64 then
      s.storeUpdateIndexed? order (.ofCode ra) (.ofCode rb) 8 ((s.gpr (.ofCode rs)).setWidth _)
    else none
  | ⟨.lfd, (ft, a, ())⟩ => some (s.setFpr ft (s.load order a 8))
  | ⟨.stfd, (fs, a, ())⟩ => some (s.store order a 8 (s.fpr fs))
  | _ => none

/-- Runs words, each as the instruction that it holds. -/
def run? (order : ByteOrder) : List Word → Machine t → Option (Machine t)
  | [], s => some s
  | w :: rest, s => do run? order rest (← s.exec? order (← Instr.ofWord? Opcode.all w 0))

end Machine
end PowerAsm.Proofs
