import Mathlib.Order.Bounds.Basic
import PowerAsm.Proofs.FrameExecution
import PowerAsm.Proofs.Padding
import PowerAsm.Proofs.Writing

/-! Extending a frame while it is in use. Where more bytes are required than available, the stack
pointer moves down by what is missing, rounded up to the alignment of the stack, and the words at
the bottom of the frame move along with it. Two registers do all the work under different names, so
what they hold on the way is written down step by step. -/
namespace PowerAsm.Proofs.FrameExtension
open Storage Branches Emission Writing FrameCode FrameExecution Padding ConditionRegister
open Machine (compareWords)
open PowerAsm.Proofs.Core

/-- Moves the stack pointer by a register, and stores the old one there. -/
def moveStack (t : Target) (distance : Gpr) : Instr :=
  t.choose ⟨.stwux, (Gpr.sp.code, Gpr.sp.code, distance.code, ())⟩
    ⟨.stdux, (Gpr.sp.code, Gpr.sp.code, distance.code, ())⟩

/-- Copies a word from the old bottom of the stack. -/
def copyCode (t : Target) (scratch old : Gpr) (o : Nat) : List Instr :=
  [loadWord t scratch ⟨old, Int64.ofNat o⟩, storeWord t scratch (stack o)]

/-- Leaves in a register by how much the stack pointer is to move. -/
def amountCode (required available : Gpr) : List Instr :=
  ⟨.subf, (required, available, required, ())⟩ :: (maskingCode available required 15 16 ++
    [⟨.add, (required, required, available, ())⟩])

def moveCode (t : Target) (required available : Gpr) : List Instr :=
  [⟨.or, (available, .sp, .sp, ())⟩, ⟨.neg, (required, required, ())⟩, moveStack t required]

/-- The code that is skipped when enough is available. -/
def growCode (t : Target) (required available : Gpr) : List Instr :=
  amountCode required available ++ (moveCode t required available ++
    (copyCode t required available 0 ++ t.choose [] (copyCode t required available 8)))

/-- The branch over this code, without its displacement. -/
def enough : Branch := .conditional 4 1

/-- Branches by a distance in bytes unless the first condition field says greater. -/
def branchEnough (distance : Int64) : Instr := ⟨.bc, (4, 1, distance, ())⟩

/-- All of the code. The distance leads behind it. -/
def extendCode (t : Target) (required available : Gpr) : List Instr :=
  compareWords t required available :: branchEnough (t.choose 44 52) ::
    growCode t required available

/-- What is written between the branch and its label. -/
def grow (t : Target) (required available : Gpr) : Asm Unit := do
  Asm.short .sub (required, required, available, ())
  Asm.computePadding available required (Int64.ofNat t.stackAlignment)
  Asm.instr .add (required, required, available, ())
  Asm.short .mr (available, .sp, ())
  Asm.instr .neg (required, required, ())
  Asm.storeUpdateIndexed .sp .sp required
  Asm.copyStackWord required available 0
  match t.crSaveWord? with
  | some word => Asm.copyStackWord required available (Int64.ofNat (word * t.wordSize))
  | none => pure ()

theorem extendFrame_eq (required available : Gpr) :
    Asm.extendFrame required available = (do
      let t ← Asm.target
      let done ← Asm.newLabel
      Asm.compare .cr0 required available
      Asm.branchTo enough done
      grow t required available
      Asm.bind done) := by
  rw [Asm.extendFrame]
  refine bind_congr fun t => bind_congr fun done => bind_congr fun _ => bind_congr fun _ => ?_
  cases t <;> simp only [grow, Target.crSaveWord?, bind_assoc, pure_bind]

/-- The registers that the code can work with. -/
structure Distinct (required available : Gpr) : Prop where
  valid : required.isValid = true ∧ available.isValid = true
  apart : required ≠ available
  stack : required ≠ .sp ∧ available ≠ .sp
  base : available ≠ .r0

section Writes
variable {t : Target} {required available : Gpr} (distinct : Distinct required available)
include distinct

theorem writes_copy (o : Nat) :
    Writes t (Asm.copyStackWord required available (Int64.ofNat o))
      (copyCode t required available o) := by
  have checked : Asm.address available (Int64.ofNat o) = pure ⟨available, Int64.ofNat o⟩ := by
    rw [Asm.address, Address.checked, distinct.valid.2, if_neg distinct.base]
    rfl
  rw [Asm.copyStackWord, checked, pure_bind]
  exact writes_load.bind writes_store

theorem writes_grow : Writes t (grow t required available) (growCode t required available) := by
  have padding : Writes t (Asm.computePadding available required 16)
      (maskingCode available required 15 16) := writes_padding (by decide) (by decide)
  have moved : Writes t (Asm.storeUpdateIndexed .sp .sp required) [moveStack t required] := by
    refine writes_sized ?_
    cases t <;> exact writes_titled _ _ _
  have copied : Writes t (match t.crSaveWord? with
      | some word => Asm.copyStackWord required available (Int64.ofNat (word * t.wordSize))
      | none => pure ()) (t.choose [] (copyCode t required available 8)) := by
    cases t with
    | ppc32 => exact writes_pure
    | ppc64 => exact writes_copy distinct 8
  exact (writes_short rfl).bind (padding.bind ((writes_instr ..).bind ((writes_short rfl).bind
    ((writes_instr ..).bind (moved.bind ((writes_copy distinct 0).bind copied))))))

theorem fits_copy {o : Nat} (small : o < 2 ^ 15) (aligned : o % 4 = 0) :
    ∀ i ∈ copyCode t required available o, OperandsFit i := by
  obtain ⟨-, fits, whole⟩ := reachable_stack small aligned
  simp only [copyCode, List.forall_mem_cons]
  exact ⟨fits_loadWord distinct.valid.1 ⟨distinct.valid.2, fits, whole⟩,
    fits_storeWord distinct.valid.1 (reachable_stack small aligned), List.forall_mem_nil _⟩

theorem fits_grow : ∀ i ∈ growCode t required available, OperandsFit i := by
  obtain ⟨first, second⟩ := distinct.valid
  have amount : ∀ i ∈ amountCode required available, OperandsFit i := by
    simp only [amountCode, maskingCode, List.cons_append, List.nil_append, List.forall_mem_cons]
    exact ⟨⟨first, second, first⟩, ⟨second, first, by decide⟩, ⟨second, second, by decide⟩,
      ⟨second, second, by decide⟩, ⟨first, first, second⟩, List.forall_mem_nil _⟩
  have move : ∀ i ∈ moveCode t required available, OperandsFit i := by
    have fits : OperandsFit (moveStack t required) := by
      cases t <;> exact ⟨by decide, by decide, gpr_fits first⟩
    simp only [moveCode, List.forall_mem_cons]
    exact ⟨⟨second, rfl, rfl⟩, ⟨first, first⟩, fits, List.forall_mem_nil _⟩
  have rest : ∀ i ∈ t.choose [] (copyCode t required available 8), OperandsFit i := by
    cases t with
    | ppc32 => exact List.forall_mem_nil _
    | ppc64 => exact fits_copy distinct (by decide) (by decide)
  simp only [growCode, List.forall_mem_append]
  exact ⟨amount, move, fits_copy distinct (by decide) (by decide), rest⟩

end Writes

/-- What is missing, rounded up to sixteen bytes. -/
def amount {w : Nat} (required available : BitVec w) : BitVec w :=
  required - available + missing 16#w 15#w (required - available)

theorem five_lt_width (t : Target) : 5 < width t := by cases t <;> decide

theorem amount_least {w : Nat} (wide : 5 < w) {x y : BitVec w} (positive : 0 ≤ y.toInt)
    (more : y.toInt < x.toInt) :
    IsLeast {n : Nat | 16 ∣ n ∧ x.toInt - y.toInt ≤ n} (amount x y).toNat ∧
      16 ≤ (amount x y).toNat ∧ (amount x y).toNat + 16 ≤ 2 ^ w := by
  have room : 2 ^ 5 ≤ 2 ^ (w - 1) := Nat.pow_le_pow_right (by decide) (by omega)
  have double : 2 ^ w = 2 * 2 ^ (w - 1) := by
    rw [← Nat.pow_succ', Nat.succ_eq_add_one, Nat.sub_add_cancel (by omega)]
  -- Half of the numbers are negative, which leaves room to round the difference up.
  have half : x.toInt < (2 ^ (w - 1) : Nat) := BitVec.toInt_lt
  have unsigned (z : BitVec w) (above : 0 ≤ z.toInt) : z.toInt = z.toNat :=
    BitVec.toInt_eq_toNat_of_msb (by rw [BitVec.msb_eq_toInt, decide_eq_false (by omega)])
  have left := unsigned x (by omega)
  rw [left] at half more ⊢
  rw [unsigned y positive] at more ⊢
  have difference : (x - y).toNat = x.toNat - y.toNat := BitVec.toNat_sub_of_le (by
    rw [BitVec.le_def]
    omega)
  have literal (n : Nat) (small : n ≤ 16) : (BitVec.ofNat w n).toNat = n := by
    rw [BitVec.toNat_ofNat, Nat.mod_eq_of_lt (by omega)]
  have rest : (missing 16#w 15#w (x - y)).toNat = (16 - (x.toNat - y.toNat) % 16) % 16 := by
    rw [← difference]
    exact masked_toNat (k := 4) (by omega) (literal 15 (by decide))
      (by rw [literal 16 (by decide)]; decide)
  have total : (amount x y).toNat =
      x.toNat - y.toNat + (16 - (x.toNat - y.toNat) % 16) % 16 := by
    rw [amount, BitVec.toNat_add, difference, rest, Nat.mod_eq_of_lt (by omega)]
  rw [total]
  refine ⟨⟨⟨by omega, by omega⟩, ?_⟩, by omega, by omega⟩
  rintro n ⟨multiple, sufficient⟩
  omega

section Bytes
variable {w : Nat} {order : ByteOrder} {m m' : Memory w} {bottom : BitVec w} {gap n low : Nat}

/-- From `m` to `m'` the first `n` bytes at the new bottom have become those at the old one, which
is `gap` bytes above. From `low` on nothing has changed. -/
structure Moved (bottom : BitVec w) (gap n low : Nat) (m m' : Memory w) : Prop where
  copied : ∀ i < n, m' (bottom + BitVec.ofNat w i) = m (bottom + BitVec.ofNat w (gap + i))
  elsewhere : ∀ i, low ≤ i → i < 2 ^ w →
    m' (bottom + BitVec.ofNat w i) = m (bottom + BitVec.ofNat w i)

theorem moved_store (v : BitVec (8 * n)) (room : n ≤ 2 ^ w) :
    Moved bottom gap 0 n m (Memory.store order m bottom n v) where
  copied := fun i none => absurd none (Nat.not_lt_zero i)
  elsewhere := by
    intro i behind inside
    have outside : Memory.store order m (bottom + BitVec.ofNat w 0) n v
        (bottom + BitVec.ofNat w i) = m (bottom + BitVec.ofNat w i) :=
      Memory.store_outside (.inr (by omega)) (by omega) inside
    rwa [BitVec.add_zero] at outside

/-- The next word is copied. It is read where nothing has changed yet. -/
theorem Moved.copy (moved : Moved bottom gap n low m m') (near : low ≤ gap) {size : Nat}
    (room : gap + n + size ≤ 2 ^ w) :
    Moved bottom gap (n + size) (max low (n + size)) m
      (Memory.store order m' (bottom + BitVec.ofNat w n) size
        (Memory.load order m' (bottom + BitVec.ofNat w (gap + n)) size)) where
  copied := by
    intro i below
    by_cases early : i < n
    · rw [Memory.store_outside (.inl early) (by omega) (by omega)]
      exact moved.copied i early
    · have place : bottom + BitVec.ofNat w (gap + n) + BitVec.ofNat w (i - n) =
          bottom + BitVec.ofNat w (gap + i) := by
        rw [BitVec.add_assoc, ← BitVec.ofNat_add]
        congr 2
        omega
      rw [Memory.store_load (by omega) below (by omega), place]
      exact moved.elsewhere (gap + i) (by omega) (by omega)
  elsewhere := by
    intro i behind inside
    rw [Memory.store_outside (.inr (by omega)) (by omega) inside]
    exact moved.elsewhere i (by omega) inside

theorem Moved.load (moved : Moved bottom gap n low m m') {o size : Nat} (inside : o + size ≤ n) :
    Memory.load order m' (bottom + BitVec.ofNat w o) size =
      Memory.load order m (bottom + BitVec.ofNat w gap + BitVec.ofNat w o) size := by
  rw [Memory.load, Memory.load]
  refine Memory.ofBytes_congr fun k below => ?_
  have lane := Memory.lane_lt order below
  rw [BitVec.add_assoc, ← BitVec.ofNat_add, moved.copied _ (by omega), BitVec.ofNat_add,
    BitVec.ofNat_add, BitVec.add_assoc, BitVec.add_assoc]

/-- The same for every address. -/
theorem Moved.unchanged (moved : Moved bottom gap n low m m') {a : BitVec w}
    (outside : low ≤ (a - bottom).toNat) : m' a = m a := by
  have same := moved.elsewhere _ outside (a - bottom).isLt
  rwa [BitVec.ofNat_toNat, BitVec.setWidth_eq, BitVec.add_comm, BitVec.sub_add_cancel] at same

end Bytes

/-- What the code works on. -/
structure Work (t : Target) where
  required : BitVec (width t)
  available : BitVec (width t)
  pointer : BitVec (width t)
  memory : Memory (width t)
  cr : BitVec 32
  carry : Bool

namespace Work
variable {t : Target}

/-- Moves the stack pointer down, keeps the old one, and stores it at the new place. -/
def move (order : ByteOrder) (w : Work t) : Work t :=
  { w with
    required := -w.required
    available := w.pointer
    pointer := w.pointer + -w.required
    memory := Memory.store order w.memory (w.pointer + -w.required) t.wordSize w.pointer }

/-- Copies a word from the old bottom of the stack. -/
def copy (order : ByteOrder) (n : Nat) (w : Work t) : Work t :=
  let v := Memory.load order w.memory (w.available + BitVec.ofNat _ n) t.wordSize
  { w with
    required := v
    memory := Memory.store order w.memory (w.pointer + BitVec.ofNat _ n) t.wordSize v }

end Work

/-- The stack pointer has moved down by `gap` bytes, and the first `n` bytes at its old place have
been copied to the new one. -/
structure Copied {t : Target} (s : Core t) (gap n : Nat) (w : Work t) : Prop where
  old : w.available = s.gpr .sp
  new : w.pointer + BitVec.ofNat (width t) gap = s.gpr .sp
  bytes : Moved w.pointer gap n (max t.wordSize n) s.memory w.memory
  cr : SameBehind s.cr w.cr

section Copied
variable {t : Target} {order : ByteOrder} {s : Core t} {w : Work t} {gap n : Nat}

theorem copied_move {distance : BitVec (width t)} (down : w.required = distance)
    (pointer : w.pointer = s.gpr .sp) (memory : w.memory = s.memory) (cr : SameBehind s.cr w.cr) :
    Copied s distance.toNat 0 (w.move order) where
  old := pointer
  new := by
    show w.pointer + -w.required + BitVec.ofNat _ distance.toNat = _
    rw [BitVec.ofNat_toNat, BitVec.setWidth_eq, down, BitVec.add_assoc, BitVec.add_left_neg]
    exact (BitVec.add_zero _).trans pointer
  bytes := by
    rw [Nat.max_zero, ← memory]
    exact moved_store _ (by cases t <;> decide)
  cr := cr

theorem Copied.copy (copied : Copied s gap n w) (near : max t.wordSize n ≤ gap)
    (room : gap + n + t.wordSize ≤ 2 ^ width t) :
    Copied s gap (n + t.wordSize) (w.copy order n) where
  old := copied.old
  new := copied.new
  bytes := by
    have place : w.available + BitVec.ofNat _ n = w.pointer + BitVec.ofNat _ (gap + n) := by
      rw [copied.old, ← copied.new, BitVec.ofNat_add, BitVec.add_assoc]
    have size : max (max t.wordSize n) (n + t.wordSize) = max t.wordSize (n + t.wordSize) := by
      omega
    rw [← size]
    simp only [Work.copy, place]
    exact copied.bytes.copy near room
  cr := copied.cr

end Copied

section Put
variable {t : Target} {order : ByteOrder} {s : Core t} {required available : Gpr} {w : Work t}

/-- The core with this in place of what it had. -/
def put (s : Core t) (required available : Gpr) (w : Work t) : Core t :=
  { s with
    gpr := fun r => if r = required then w.required else if r = available then w.available
      else if r = .sp then w.pointer else s.gpr r
    memory := w.memory
    cr := w.cr
    carry := w.carry }

/-- What the core has. -/
def take (s : Core t) (required available : Gpr) : Work t :=
  ⟨s.gpr required, s.gpr available, s.gpr .sp, s.memory, s.cr, s.carry⟩

theorem put_take (s : Core t) (required available : Gpr) :
    put s required available (take s required available) = s := by
  have same : (fun r => if r = required then s.gpr required
      else if r = available then s.gpr available else if r = .sp then s.gpr .sp else s.gpr r) =
      s.gpr := by
    funext r
    split_ifs with first second third
    · rw [first]
    · rw [second]
    · rw [third]
    · rfl
  simp only [put, take, same]

variable (distinct : Distinct required available)

theorem put_required : (put s required available w).gpr required = w.required := if_pos rfl

theorem told_required (v : BitVec (width t)) (cr : BitVec 32) (carry : Bool) :
    told (put s required available w) required v cr carry =
      put s required available { w with required := v, cr, carry } := by
  have same : (fun r => if r = required then v else (put s required available w).gpr r) =
      (put s required available { w with required := v, cr, carry }).gpr := by
    funext r
    by_cases first : r = required
    · simp only [put, first, if_pos]
    · simp only [put, if_neg first]
  rw [told, same]
  rfl

include distinct

theorem put_available : (put s required available w).gpr available = w.available :=
  (if_neg distinct.apart.symm).trans (if_pos rfl)

theorem put_pointer : (put s required available w).gpr .sp = w.pointer :=
  (if_neg distinct.stack.1.symm).trans ((if_neg distinct.stack.2.symm).trans (if_pos rfl))

theorem told_available (v : BitVec (width t)) (cr : BitVec 32) (carry : Bool) :
    told (put s required available w) available v cr carry =
      put s required available { w with available := v, cr, carry } := by
  have same : (fun r => if r = available then v else (put s required available w).gpr r) =
      (put s required available { w with available := v, cr, carry }).gpr := by
    funext r
    by_cases second : r = available
    · simp only [put, second, if_pos, if_neg distinct.apart.symm]
    · simp only [put, if_neg second]
  rw [told, same]
  rfl

theorem setGpr_pointer (v : BitVec (width t)) (m : Memory (width t)) :
    { put s required available w with
      gpr := ((put s required available w).setGpr .sp v).gpr, memory := m } =
      put s required available { w with pointer := v, memory := m } := by
  have same : ((put s required available w).setGpr .sp v).gpr =
      (put s required available { w with pointer := v, memory := m }).gpr := by
    funext r
    by_cases third : r = .sp
    · simp only [Machine.setGpr, put, third, if_pos, if_neg distinct.stack.1.symm,
        if_neg distinct.stack.2.symm]
    · simp only [Machine.setGpr, put, if_neg third]
  rw [same]
  rfl

end Put

section Running
variable {t : Target} {order : ByteOrder} {s : Core t} {required available : Gpr} {w : Work t}

theorem ofCode_code (r : Gpr) : Gpr.ofCode r.code = r :=
  congrArg Gpr.mk (Int8.toInt8_toInt64 r.number)

/-- The machine with its stack pointer moved by a register, and a value stored there. -/
def pushed (order : ByteOrder) (m : Machine t) (r : Gpr) (n : Nat) (v : BitVec (8 * n)) :
    Machine t :=
  { m.setGpr .sp (m.gpr .sp + m.gpr r) with
    memory := Memory.store order m.memory (m.gpr .sp + m.gpr r) n v }

theorem exec_moveStack (m : Machine t) (r : Gpr) :
    m.exec? order (moveStack t r) = some (pushed order m r t.wordSize (m.gpr .sp)) := by
  have stored (n : Nat) (v : BitVec (8 * n)) :
      m.storeUpdateIndexed? order (.ofCode Gpr.sp.code) (.ofCode r.code) n v =
        some (pushed order m r n v) := by
    rw [ofCode_code, ofCode_code, Machine.storeUpdateIndexed?, if_neg (by decide)]
    rfl
  cases t with
  | ppc32 =>
    refine (stored 4 _).trans ?_
    exact congrArg (fun v => some (pushed order m r 4 v)) (BitVec.setWidth_eq (m.gpr .sp))
  | ppc64 =>
    refine (stored 8 _).trans ?_
    exact congrArg (fun v => some (pushed order m r 8 v)) (BitVec.setWidth_eq (m.gpr .sp))

variable (distinct : Distinct required available)
include distinct

omit distinct in
theorem exec_required {i : Instr} {v : BitVec (width t)}
    (done : (put s required available w).toMachine.exec? order i =
      some ((put s required available w).setGpr required v)) :
    (put s required available w).exec? order i =
      some (put s required available { w with required := v }) :=
  (exec_machine done).trans (congrArg some (told_required v w.cr w.carry))

theorem exec_available {i : Instr} {v : BitVec (width t)}
    (done : (put s required available w).toMachine.exec? order i =
      some ((put s required available w).setGpr available v)) :
    (put s required available w).exec? order i =
      some (put s required available { w with available := v }) :=
  (exec_machine done).trans (congrArg some (told_available distinct v w.cr w.carry))

theorem exec_amount : ∃ rest cr carry, SameBehind w.cr cr ∧
    execAll? (exec? order) (amountCode required available) (put s required available w) =
      some (put s required available { w with
        required := amount w.required w.available, available := rest, cr, carry }) := by
  have sixteen : (Machine.number 16 : BitVec (width t)) = 16#_ ∧
      (Machine.number 15 : BitVec (width t)) = 15#_ := by
    cases t <;> decide
  have subtracted (w : Work t) : (put s required available w).exec? order
      ⟨.subf, (required, available, required, ())⟩ =
        some (put s required available { w with required := w.required - w.available }) := by
    refine (exec_required rfl).trans ?_
    rw [put_required, put_available distinct]
  have added (w : Work t) : (put s required available w).exec? order
      ⟨.add, (required, required, available, ())⟩ =
        some (put s required available { w with required := w.required + w.available }) := by
    refine (exec_required rfl).trans ?_
    rw [put_required, put_available distinct]
  obtain ⟨cr, carry, same, padded⟩ := exec_masking order
    (put s required available { w with required := w.required - w.available })
    available required 15 16
  rw [put_required, told_available distinct, sixteen.1, sixteen.2] at padded
  refine ⟨missing 16#_ 15#_ (w.required - w.available), cr, carry, same, ?_⟩
  rw [amountCode, execAll_cons (subtracted w), execAll_append padded]
  exact execAll_cons (added _) []

theorem exec_push : (put s required available w).exec? order (moveStack t required) =
    some (put s required available { w with
      pointer := w.pointer + w.required
      memory := Memory.store order w.memory (w.pointer + w.required) t.wordSize w.pointer }) := by
  refine (exec_machine (exec_moveStack _ required)).trans (congrArg some ?_)
  rw [pushed, put_pointer distinct, put_required]
  exact setGpr_pointer distinct _ _

theorem exec_move :
    execAll? (exec? order) (moveCode t required available) (put s required available w) =
      some (put s required available (w.move order)) := by
  have kept (w : Work t) :
      (put s required available w).exec? order ⟨.or, (available, .sp, .sp, ())⟩ =
        some (put s required available { w with available := w.pointer }) := by
    refine (exec_available distinct rfl).trans ?_
    rw [BitVec.or_self, put_pointer distinct]
  have negated (w : Work t) :
      (put s required available w).exec? order ⟨.neg, (required, required, ())⟩ =
        some (put s required available { w with required := -w.required }) := by
    refine (exec_required rfl).trans ?_
    rw [put_required]
  rw [moveCode, execAll_cons (kept w), execAll_cons (negated _)]
  exact execAll_cons (exec_push distinct) []

theorem exec_copy {n : Nat} (small : n < 2 ^ 63) :
    execAll? (exec? order) (copyCode t required available n) (put s required available w) =
      some (put s required available (w.copy order n)) := by
  have loaded : (put s required available w).exec? order
      (loadWord t required ⟨available, Int64.ofNat n⟩) =
        some (put s required available { w with
          required :=
            Memory.load order w.memory (w.available + BitVec.ofNat _ n) t.wordSize }) := by
    refine (exec_required (exec_loadWord ..)).trans ?_
    rw [Machine.load, address_base _ distinct.base small, put_available distinct]
    rfl
  have stored (w : Work t) : (put s required available w).exec? order
      (storeWord t required (stack n)) =
        some (put s required available { w with
          memory := Memory.store order w.memory (w.pointer + BitVec.ofNat _ n) t.wordSize
            w.required }) := by
    refine (exec_machine (exec_storeWord ..)).trans ?_
    rw [Machine.store, address_stack _ small, put_pointer distinct, put_required]
    rfl
  rw [copyCode, execAll_cons loaded]
  exact execAll_cons (stored _) []

/-- Where more is required, the stack moves by what is missing, and its bottom is copied. -/
theorem exec_grow (order : ByteOrder) (s : Core t) (positive : 0 ≤ (s.gpr available).toInt)
    (more : (s.gpr available).toInt < (s.gpr required).toInt) :
    ∃ w, execAll? (exec? order) (growCode t required available) s =
        some (put s required available w) ∧
      Copied s (amount (s.gpr required) (s.gpr available)).toNat (t.choose 4 16) w := by
  -- The stack moves by at least what is copied, so nothing is overwritten before it is read.
  obtain ⟨-, near, room⟩ := amount_least (five_lt_width t) positive more
  have size : t.wordSize ≤ 8 := by cases t <;> decide
  obtain ⟨w, counted, moved⟩ : ∃ w, execAll? (exec? order) (amountCode required available) s =
      some (put s required available w) ∧
        Copied s (amount (s.gpr required) (s.gpr available)).toNat 0 (w.move order) := by
    have ran := @exec_amount _ order s _ _ (take s required available) distinct
    rw [put_take] at ran
    obtain ⟨rest, cr, carry, same, ran⟩ := ran
    exact ⟨_, ran, copied_move rfl rfl rfl same⟩
  have once : Copied s (amount (s.gpr required) (s.gpr available)).toNat (0 + t.wordSize)
      ((w.move order).copy order 0) := moved.copy (by omega) (by omega)
  rw [growCode, execAll_append counted, execAll_append (exec_move distinct),
    execAll_append (exec_copy distinct (by decide))]
  cases t with
  | ppc32 => exact ⟨_, rfl, once⟩
  | ppc64 => exact ⟨_, exec_copy distinct (by decide), once.copy (by omega) (by omega)⟩

end Running

section Run
variable {t : Target} {order : ByteOrder} {start : BitVec (width t)} {required available : Gpr}
  {ws : List Word}

/-- The core where two registers have been compared. -/
def comparedCore (s : Core t) (ra rb : Gpr) : Core t :=
  { s with toMachine := s.compare s.overflow .cr0 (s.gpr ra) (s.gpr rb) }

theorem exec_compareWords (s : Core t) (ra rb : Gpr) :
    s.exec? order (compareWords t ra rb) = some (comparedCore s ra rb) := by
  have other : s.exec? order (compareWords t ra rb) =
      (s.comparison? s.overflow (compareWords t ra rb)).map fun m => { s with toMachine := m } := by
    cases t <;> rfl
  rw [other, Machine.comparison_compareWords, Option.map_some, comparedCore]

theorem exec_branchEnough (s : Processor t) (distance : Int64) :
    s.exec? order (branchEnough distance) =
      some { s with pc := s.pc + if s.cr.getMsbD 1 then 4 else Machine.number distance } := by
  have ran : s.exec? order (branchEnough distance) =
      some { s with pc := s.pc + if !s.cr.getMsbD 1 then Machine.number distance else 4 } := rfl
  rw [ran]
  cases s.cr.getMsbD 1 <;> rfl

theorem length_extendCode (t : Target) (required available : Gpr) :
    (extendCode t required available).length = t.choose 12 14 := by
  cases t <;> rfl

/-- The processor where the comparison has been made. -/
def compared (start : BitVec (width t)) (required available : Gpr) (s : Processor t) (k : Nat) :
    Processor t :=
  ⟨comparedCore s.toCore required available, Processor.place start k⟩

theorem step_branch (held : List.Forall₂ Holds ws (extendCode t required available))
    (short : 4 * ws.length ≤ 2 ^ width t) (s : Processor t) :
    Processor.step? order start ws (compared start required available s 1) =
      some (compared start required available s
        (if (s.gpr available).toInt < (s.gpr required).toInt then 2 else ws.length)) := by
  have behind : Processor.place start 1 + Machine.number (t.choose 44 52) =
      Processor.place start ws.length := by
    have sum : BitVec.ofNat (width t) 4 + Machine.number (t.choose 44 52) =
        BitVec.ofNat (width t) (4 * t.choose 12 14) := by cases t <;> decide
    rw [held.length_eq, length_extendCode, Processor.place, BitVec.add_assoc, sum, Processor.place]
  have told : (compared start required available s 1).cr.getMsbD 1 =
      (s.gpr available).slt (s.gpr required) := getMsbD_replaceField_greater ..
  rw [Processor.step_held (k := 1) held short rfl rfl, exec_branchEnough, told, BitVec.slt]
  by_cases more : (s.gpr available).toInt < (s.gpr required).toInt
  · rw [decide_eq_true more, if_pos rfl, if_pos more, compared, compared, Processor.place_succ]
  · rw [decide_eq_false more, if_neg Bool.false_ne_true, if_neg more, compared, compared, behind]

variable (held : List.Forall₂ Holds ws (extendCode t required available)) (s : Processor t)
  (here : s.pc = start)
include held here

/-- The comparison tells whether the code behind it is skipped. -/
theorem reaches_compared (order : ByteOrder) (short : 4 * ws.length ≤ 2 ^ width t) :
    Processor.Reaches order start ws s (compared start required available s
      (if (s.gpr available).toInt < (s.gpr required).toInt then 2 else ws.length)) := by
  have block : List.Forall₂ Holds ws ([] ++ ([compareWords t required available] ++
      (branchEnough (t.choose 44 52) :: growCode t required available))) := held
  have first : Processor.Reaches order start ws s (compared start required available s 1) :=
    Processor.reaches_block short block (here.trans (Processor.place_zero start).symm)
      (execAll_cons (exec_compareWords ..) [])
  exact first.trans (.step (step_branch held short s) (.refl _))

/-- Then the stack grows. -/
theorem reaches_grown (order : ByteOrder) (distinct : Distinct required available)
    (short : 4 * ws.length ≤ 2 ^ width t)
    (positive : 0 ≤ (s.gpr available).toInt)
    (more : (s.gpr available).toInt < (s.gpr required).toInt) :
    ∃ w, Processor.Reaches order start ws s
        ⟨put (comparedCore s.toCore required available) required available w,
          Processor.place start ws.length⟩ ∧
      Copied (comparedCore s.toCore required available)
        (amount (s.gpr required) (s.gpr available)).toNat (t.choose 4 16) w := by
  have block : List.Forall₂ Holds ws ([compareWords t required available,
      branchEnough (t.choose 44 52)] ++ (growCode t required available ++ [])) := by
    rw [List.append_nil]
    exact held
  have length : ws.length = 2 + (growCode t required available).length := by
    rw [held.length_eq, extendCode, List.length_cons, List.length_cons]
    omega
  obtain ⟨w, ran, copied⟩ := exec_grow distinct order
    (comparedCore s.toCore required available) positive more
  refine ⟨w, ?_, copied⟩
  have branched := reaches_compared held s here order short
  rw [if_pos more] at branched
  rw [length]
  exact branched.trans (Processor.reaches_block short block rfl ran)

end Run

section Outcome
variable {t : Target} {order : ByteOrder} {required available : Gpr} {s s' : Core t}

/-- Only the stack pointer, the two registers, the first condition field, the carry and memory may
have changed from `s` to `s'`. -/
structure Kept (required available : Gpr) (s s' : Core t) : Prop where
  gprs : ∀ r, r ≠ .sp → r ≠ required → r ≠ available → s'.gpr r = s.gpr r
  fprs : s'.fpr = s.fpr
  fields : ∀ c, c.isValid = true → c ≠ .cr0 → s'.field c = s.field c
  lr : s'.lr = s.lr
  ctr : s'.ctr = s.ctr
  overflow : s'.overflow = s.overflow

/-- The stack pointer has moved down, and the words at the bottom of the stack along with it. -/
structure Extended (order : ByteOrder) (distance : Nat) (s s' : Core t) : Prop where
  pointer : s'.gpr .sp = s.gpr .sp - BitVec.ofNat (width t) distance
  chain : Memory.load order s'.memory (s'.gpr .sp) t.wordSize =
    Memory.load order s.memory (s.gpr .sp) t.wordSize
  condition : t = .ppc64 → Memory.load order s'.memory (s'.gpr .sp + 8#_) t.wordSize =
    Memory.load order s.memory (s.gpr .sp + 8#_) t.wordSize
  elsewhere : ∀ a, t.choose 4 16 ≤ (a - s'.gpr .sp).toNat → s'.memory a = s.memory a

/-- What extending a frame leaves. -/
structure Outcome (order : ByteOrder) (required available : Gpr) (s s' : Core t) : Prop where
  kept : Kept required available s s'
  enough : (s.gpr required).toInt ≤ (s.gpr available).toInt →
    s'.gpr = s.gpr ∧ s'.memory = s.memory ∧ s'.carry = s.carry
  more : (s.gpr available).toInt < (s.gpr required).toInt →
    ∃ distance, IsLeast {n : Nat | t.stackAlignment ∣ n ∧
        (s.gpr required).toInt - (s.gpr available).toInt ≤ n} distance ∧
      Extended order distance s s'

theorem kept_compared (ra rb : Gpr) :
    Kept required available s (comparedCore s ra rb) where
  gprs := fun _ _ _ _ => rfl
  fprs := rfl
  fields := fun _ valid other => field_replaceField_cr0 rfl valid other
  lr := rfl
  ctr := rfl
  overflow := rfl

theorem Kept.put (kept : Kept required available s s') {w : Work t} (same : SameBehind s'.cr w.cr) :
    Kept required available s (put s' required available w) where
  gprs := by
    intro r first second third
    exact (if_neg second).trans ((if_neg third).trans ((if_neg first).trans
      (kept.gprs r first second third)))
  fprs := kept.fprs
  fields := fun c valid other =>
    (SameBehind.field same valid other).trans (kept.fields c valid other)
  lr := kept.lr
  ctr := kept.ctr
  overflow := kept.overflow

theorem Copied.extended {gap : Nat} {w : Work t} (copied : Copied s gap (t.choose 4 16) w)
    (distinct : Distinct required available) (order : ByteOrder) :
    Extended order gap s (put s required available w) where
  pointer := by
    rw [put_pointer distinct, ← copied.new, BitVec.add_sub_cancel]
  chain := by
    have inside : 0 + t.wordSize ≤ t.choose 4 16 := by cases t <;> decide
    have same := @Moved.load _ order _ _ _ _ _ _ copied.bytes _ _ inside
    rw [BitVec.add_zero, BitVec.add_zero, copied.new] at same
    rwa [put_pointer distinct]
  condition := by
    rintro rfl
    rw [put_pointer distinct, ← copied.new]
    exact copied.bytes.load (by decide)
  elsewhere := by
    intro a outside
    rw [put_pointer distinct] at outside
    exact copied.bytes.unchanged (by cases t <;> exact outside)

/-- Code that holds these instructions extends the frame. -/
theorem reaches_outcome {start : BitVec (width t)} {ws : List Word}
    (distinct : Distinct required available)
    (held : List.Forall₂ Holds ws (extendCode t required available)) (order : ByteOrder)
    (s : Processor t) (here : s.pc = start) (positive : 0 ≤ (s.gpr available).toInt) :
    ∃ s', Processor.Reaches order start ws s s' ∧ s'.pc = Processor.place start ws.length ∧
      Outcome order required available s.toCore s'.toCore := by
  have short : 4 * ws.length ≤ 2 ^ width t := by
    rw [held.length_eq, length_extendCode]
    cases t <;> decide
  by_cases more : (s.gpr available).toInt < (s.gpr required).toInt
  · have alignment : t.stackAlignment = 16 := by cases t <;> rfl
    obtain ⟨w, reached, copied⟩ := reaches_grown held s here order distinct short positive more
    obtain ⟨pointer, chain, condition, elsewhere⟩ := copied.extended distinct order
    refine ⟨_, reached, rfl, (kept_compared _ _).put copied.cr,
      fun enough => absurd more (Int.not_lt.mpr enough),
      fun _ => ⟨_, ?_, ⟨pointer, chain, condition, elsewhere⟩⟩⟩
    rw [alignment]
    exact (amount_least (five_lt_width t) positive more).1
  · have reached := reaches_compared held s here order short
    rw [if_neg more] at reached
    exact ⟨_, reached, rfl, kept_compared _ _, fun _ => ⟨rfl, rfl, rfl⟩,
      fun less => absurd less more⟩

end Outcome

section Writing
variable {t : Target} {required available : Gpr}

theorem fits_enough : FieldsFit enough := by decide

theorem holds_enough (t : Target) :
    Holds (wordOf enough (t.choose 11 13)) (branchEnough (t.choose 44 52)) := by
  rw [Holds, Instr.ofWord?, (Table.ofWord?_eq_some_iff _ .bc).mpr (by cases t <;> decide)]
  cases t <;> rfl

theorem writes_compare : Writes t (Asm.compare .cr0 required available)
    [compareWords t required available] := by
  refine writes_sized ?_
  cases t <;> exact writes_instr _ _

theorem fits_compare (valid : required.isValid = true ∧ available.isValid = true) :
    ∀ i ∈ [compareWords t required available], OperandsFit i := by
  rw [List.forall_mem_singleton]
  cases t <;> exact ⟨rfl, valid⟩

theorem inReach_enough (t : Target) : InReach enough (t.choose 11 13) := by
  have bits : enough.bits = 14 := rfl
  rw [InReach, bits]
  cases t <;> decide

/-- The branch is the second word, and leads to the end. -/
theorem length_words (w w' : Word) {vs : List Word}
    (rest : List.Forall₂ Encodes vs (growCode t required available)) :
    (w :: w' :: vs).length = t.choose 12 14 ∧ 4 * (w :: w' :: vs).length ≤ 2 ^ 62 ∧
      ((w :: w' :: vs).length : Int) - (1 : Nat) = t.choose 11 13 := by
  have length : (w :: w' :: vs).length = t.choose 12 14 := by
    rw [List.length_cons, List.length_cons, rest.length_eq]
    cases t <;> rfl
  rw [length]
  cases t <;> decide

variable {a : Assembly} {bytes : List UInt8} {w : Word} {vs : List Word}
  (distinct : Distinct required available)
  (first : List.Forall₂ Encodes [w] [compareWords a.assembler.target required available])
  (rest : List.Forall₂ Encodes vs (growCode a.assembler.target required available))
  (written : Written a.segment bytes) (few : a.assembler.labels.size + 0 < 2 ^ 63)
include distinct first rest written few

theorem extendFrame_code {b : Assembly} {u : Unit}
    (accepted : Asm.extendFrame required available a = .ok u b) :
    Written b.segment (bytes ++ (w :: wordOf enough (a.assembler.target.choose 11 13) :: vs).flatMap
      a.segment.order.bytes) := by
  obtain ⟨-, small, distance⟩ := length_words w (bare enough) rest
  have holding := holding_origin written
  -- One action after the other. Only the branch waits for its label.
  rw [extendFrame_eq] at accepted
  obtain ⟨t, _, ran, accepted⟩ := bind_ok accepted
  cases ran
  obtain ⟨done, _, ran, accepted⟩ := bind_ok accepted
  obtain ⟨rfl, holding⟩ := holding.newLabel ran
  obtain ⟨⟨⟩, _, ran, accepted⟩ := bind_ok accepted
  have holding := holding.writes writes_compare first ran
  obtain ⟨⟨⟩, _, ran, accepted⟩ := bind_ok accepted
  have holding := holding.branch_free few rfl fits_enough ran
  obtain ⟨⟨⟩, _, ran, accepted⟩ := bind_ok accepted
  have holding := holding.writes (writes_grow distinct) rest ran
  have holding := holding.bind_waiting few rfl rfl fits_enough small accepted
  rw [← distance]
  exact holding.written

theorem extendFrame_accepted {words : Nat} (whole : Whole a bytes words)
    (room : Room a.segment (bytes.length + 4 * (w :: bare enough :: vs).length)) :
    ∃ b, Asm.extendFrame required available a = .ok () b := by
  obtain ⟨-, small, distance⟩ := length_words w (bare enough) rest
  have near := inReach_enough a.assembler.target
  rw [← distance] at near
  have room (n : Nat) (inside : n ≤ (w :: bare enough :: vs).length) :
      Room a.segment (bytes.length + 4 * n) := room.mono (by omega)
  have holding := holding_origin written
  rw [extendFrame_eq]
  refine ok_bind ⟨a, rfl⟩ fun _ ran => ?_
  cases ran
  refine ok_bind holding.newLabel_ok fun _ ran => ?_
  obtain ⟨-, holding⟩ := holding.newLabel ran
  refine ok_bind (holding.writes_ok writes_compare first (room 1 (by simp))) fun _ ran => ?_
  have holding := holding.writes writes_compare first ran
  refine ok_bind (holding.branch_free_ok few rfl fits_enough (room 2 (by simp))) fun _ ran => ?_
  have holding := holding.branch_free few rfl fits_enough ran
  refine ok_bind (holding.writes_ok (writes_grow distinct) rest (room _ (by simp; omega)))
    fun _ ran => ?_
  have holding := holding.writes (writes_grow distinct) rest ran
  exact holding.bind_waiting_ok whole few rfl rfl fits_enough small near

end Writing

/-- Extending a frame is written as words that, wherever they run, leave the frame alone where
enough is available, and move the stack down by the least multiple of its alignment that makes up
for what is missing where it is not. -/
theorem extendFrame_extends {t : Target} {required available : Gpr}
    (distinct : Distinct required available) :
    ∃ ws, ws.length = t.choose 12 14 ∧
      (∀ a bytes, a.assembler.target = t → Written a.segment bytes →
        a.assembler.labels.size < 2 ^ 63 →
        (∀ b, Asm.extendFrame required available a = .ok () b →
          Written b.segment (bytes ++ ws.flatMap a.segment.order.bytes)) ∧
        ∀ words, Whole a bytes words → Room a.segment (bytes.length + 4 * ws.length) →
          ∃ b, Asm.extendFrame required available a = .ok () b) ∧
      ∀ order start (s : Processor t), s.pc = start → 0 ≤ (s.gpr available).toInt →
        ∃ s', Processor.Reaches order start ws s s' ∧ s'.pc = Processor.place start ws.length ∧
          Outcome order required available s.toCore s'.toCore := by
  obtain ⟨ws, first⟩ := exists_encodes (fits_compare (t := t) distinct.valid)
  obtain ⟨w, rfl⟩ : ∃ w, ws = [w] := List.length_eq_one_iff.mp first.length_eq
  obtain ⟨vs, rest⟩ := exists_encodes (fits_grow (t := t) distinct)
  refine ⟨w :: wordOf enough (t.choose 11 13) :: vs, (length_words _ _ rest).1, ?_, ?_⟩
  · rintro a bytes rfl written few
    exact ⟨fun b accepted => extendFrame_code distinct first rest written few accepted,
      fun words whole room => extendFrame_accepted distinct first rest written few whole room⟩
  · intro order start s here positive
    have held : List.Forall₂ Holds (w :: wordOf enough (t.choose 11 13) :: vs)
        (extendCode t required available) :=
      .cons (List.forall₂_cons.mp (holds_of_encodes first (fits_compare distinct.valid))).1
        (.cons (holds_enough t) (holds_of_encodes rest (fits_grow distinct)))
    exact reaches_outcome distinct held order s here positive

/-- A processor with its stack at the bottom of memory, that requires a hundred bytes and has
three. -/
def requiring : Processor .ppc64 where
  gpr := fun r => if r = .r0 then 100 else if r = .sp then 8 else 3
  fpr := fun _ => 0
  cr := 0
  lr := 0
  ctr := 0
  memory := fun a => a.setWidth 8
  carry := false
  overflow := false
  pc := 0x4000

/-- Its stack moves by 112 bytes, round the end of memory. -/
theorem extendFrame_extends_requiring : Distinct .r0 ⟨4⟩ ∧
    0 ≤ (requiring.gpr ⟨4⟩).toInt ∧ ∃ ws b,
      Asm.extendFrame .r0 ⟨4⟩ (.fresh .ppc64 .big) = .ok () b ∧
      Written b.segment (ws.flatMap ByteOrder.big.bytes) ∧
      ∀ order, ∃ s', Processor.Reaches order 0x4000 ws requiring s' ∧
        s'.pc = Processor.place 0x4000 14 ∧ s'.gpr .sp = 8 - 112 ∧
        Outcome order .r0 ⟨4⟩ requiring.toCore s'.toCore := by
  have distinct : Distinct .r0 ⟨4⟩ := ⟨by decide, by decide, by decide, by decide⟩
  have positive : 0 ≤ (requiring.gpr ⟨4⟩).toInt := by decide
  have more : (requiring.gpr ⟨4⟩).toInt < (requiring.gpr .r0).toInt := by decide
  have least : IsLeast {n : Nat | Target.ppc64.stackAlignment ∣ n ∧
      (requiring.gpr .r0).toInt - (requiring.gpr ⟨4⟩).toInt ≤ n} 112 := by
    have alignment : Target.ppc64.stackAlignment = 16 := rfl
    have missing : (requiring.gpr .r0).toInt - (requiring.gpr ⟨4⟩).toInt = 97 := by decide
    rw [alignment, missing]
    refine ⟨⟨by decide, by decide⟩, ?_⟩
    rintro n ⟨multiple, sufficient⟩
    omega
  have fresh := fresh_code .ppc64 .big
  obtain ⟨ws, length, accepts, runs⟩ := extendFrame_extends (t := .ppc64) distinct
  have small : ([] : List UInt8).length + 4 * ws.length ≤ largest := by
    rw [length]
    decide
  obtain ⟨written, accepted⟩ := accepts (.fresh .ppc64 .big) [] rfl fresh.written (by decide)
  obtain ⟨b, ran⟩ := accepted 0 ⟨by decide, by decide⟩ (fresh_room .ppc64 .big small)
  refine ⟨distinct, positive, ws, b, ran, written b ran, fun order => ?_⟩
  obtain ⟨s', reached, finish, outcome⟩ := runs order 0x4000 requiring rfl positive
  obtain ⟨distance, least', extended⟩ := outcome.more more
  rw [length] at finish
  refine ⟨s', reached, finish, ?_, outcome⟩
  rw [extended.pointer, least'.unique least]
  rfl

end PowerAsm.Proofs.FrameExtension
