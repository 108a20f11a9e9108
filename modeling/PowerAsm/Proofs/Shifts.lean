import PowerAsm.Proofs.ConstantLoads
import PowerAsm.Proofs.Processor

/-! Shifts by an amount that is known. They are written as rotations, of which a mask keeps the
bits that did not come around; where a shift fills up with the sign, the sign takes the place of
the others. What the instructions do is described bit by bit, with bits numbered from the most
significant one. -/
namespace PowerAsm.Proofs
open Storage Integers Forms Emission ConstantLoads

/-- The bits from `first` to `last`, or, where `first` comes later, those from `first` on and
those up to `last`. -/
def maskBits (w first last : Nat) : BitVec w :=
  let behind := BitVec.allOnes w >>> first
  let ahead := BitVec.allOnes w <<< (w - 1 - last)
  if first ≤ last then behind &&& ahead else behind ||| ahead

namespace Core
variable {t : Target}

/-- The low word of a register, rotated to the left, in each word of a register. -/
def rotatedWord (s : Core t) (r : Gpr) (n : Nat) : BitVec (width t) :=
  let word := ((s.gpr r).setWidth 32).rotateLeft n
  (word ++ word).setWidth (width t)

/-- The bits of a rotated value that a mask keeps, with the sign in place of the others. -/
def fillUp {w : Nat} (sign : Bool) (rotated mask : BitVec w) : BitVec w :=
  rotated &&& mask ||| (if sign then ~~~mask else 0)

/-- What a rotation does, or a shift to the right that fills up with the sign. The latter tells
in the carry whether a negative number has lost ones. -/
def rotate? (s : Core t) : Instr → Option (Core t)
  | ⟨.rlwinm, (ra, rs, sh, mb, me, ())⟩ =>
    let upper := width t - 32
    let mask := maskBits (width t) (upper + mb.toInt.toNat) (upper + me.toInt.toNat)
    some { s with toMachine := s.setGpr ra (s.rotatedWord rs sh.toInt.toNat &&& mask) }
  | ⟨.rldicl, (ra, rs, sh, mb, ())⟩ =>
    let mask := maskBits (width t) mb.toInt.toNat 63
    if t.is64 then
      some { s with toMachine := s.setGpr ra ((s.gpr rs).rotateLeft sh.toInt.toNat &&& mask) }
    else none
  | ⟨.rldicr, (ra, rs, sh, me, ())⟩ =>
    let mask := maskBits (width t) 0 me.toInt.toNat
    if t.is64 then
      some { s with toMachine := s.setGpr ra ((s.gpr rs).rotateLeft sh.toInt.toNat &&& mask) }
    else none
  | ⟨.srawi, (ra, rs, sh, ())⟩ =>
    let sign := (s.gpr rs).getLsbD 31
    let rotated := s.rotatedWord rs (64 - sh.toInt.toNat)
    let mask := maskBits (width t) (width t - 32 + sh.toInt.toNat) (width t - 1)
    some { s with
      toMachine := s.setGpr ra (fillUp sign rotated mask)
      carry := sign && (rotated &&& ~~~mask).setWidth 32 != 0 }
  | ⟨.sradi, (ra, rs, sh, ())⟩ =>
    let sign := (s.gpr rs).msb
    let rotated := (s.gpr rs).rotateLeft (64 - sh.toInt.toNat)
    let mask := maskBits (width t) sh.toInt.toNat 63
    if t.is64 then
      some { s with
        toMachine := s.setGpr ra (fillUp sign rotated mask)
        carry := sign && rotated &&& ~~~mask != 0 }
    else none
  | _ => none

/-- Runs one word, as the rotation that it holds. -/
def rotateWord? (s : Core t) (w : Word) : Option (Core t) := do
  s.rotate? (← Instr.ofWord? Opcode.all w 0)

end Core

namespace Shifts

section Bits
variable {w : Nat}

theorem maskBits_zero (last : Nat) :
    maskBits w 0 last = BitVec.allOnes w <<< (w - 1 - last) := by
  rw [maskBits, if_pos (Nat.zero_le _), BitVec.ushiftRight_zero, BitVec.allOnes_and]

theorem maskBits_upper {n : Nat} (inside : n < w) :
    maskBits w 0 (w - 1 - n) = BitVec.allOnes w <<< n := by
  have distance : w - 1 - (w - 1 - n) = n := by omega
  rw [maskBits_zero, distance]

theorem maskBits_lower {n : Nat} (inside : n < w) :
    maskBits w n (w - 1) = BitVec.allOnes w >>> n := by
  rw [maskBits, if_pos (by omega), Nat.sub_self, BitVec.shiftLeft_zero, BitVec.and_allOnes]

theorem rotateLeft_congr (x : BitVec w) {m n : Nat} (same : m % w = n % w) :
    x.rotateLeft m = x.rotateLeft n := by
  rw [← BitVec.rotateLeft_mod_eq_rotateLeft, same, BitVec.rotateLeft_mod_eq_rotateLeft]

/-- A bit that a rotation almost all the way around has moved to the right. -/
theorem getLsbD_rotateLeft_sub (x : BitVec w) {n i : Nat} (moved : n + i < w) :
    (x.rotateLeft (w - n)).getLsbD i = x.getLsbD (n + i) := by
  rw [BitVec.getLsbD_rotateLeft]
  by_cases zero : n = 0
  · subst zero
    have inside : i < w := by omega
    simp [inside]
  · have around : w - (w - n) + i = n + i := by omega
    have early : i < w - n := by omega
    rw [Nat.mod_eq_of_lt (by omega), around, decide_eq_true early, cond_true]

/-- Rotating around and keeping the bits that have moved to the right is shifting. -/
theorem rotateLeft_and_lower (x : BitVec w) (n : Nat) :
    x.rotateLeft (w - n) &&& BitVec.allOnes w >>> n = x >>> n := by
  apply BitVec.eq_of_getLsbD_eq
  intro i inside
  rw [BitVec.getLsbD_and, BitVec.getLsbD_ushiftRight, BitVec.getLsbD_ushiftRight,
    BitVec.getLsbD_allOnes]
  by_cases moved : n + i < w
  · rw [getLsbD_rotateLeft_sub x moved, decide_eq_true moved, Bool.and_true]
  · rw [decide_eq_false moved, Bool.and_false, BitVec.getLsbD_of_ge x _ (by omega)]

/-- With the sign in place of the bits that came around it is the shift that keeps signs. -/
theorem fillUp_lower (x : BitVec w) (n : Nat) :
    Core.fillUp x.msb (x.rotateLeft (w - n)) (BitVec.allOnes w >>> n) = x.sshiftRight n := by
  rw [Core.fillUp, rotateLeft_and_lower x n]
  apply BitVec.eq_of_getLsbD_eq
  intro i inside
  rw [BitVec.getLsbD_or, BitVec.getLsbD_ushiftRight, BitVec.getLsbD_sshiftRight]
  by_cases moved : n + i < w
  · cases x.msb <;> simp [inside, moved]
  · have none : x.getLsbD (n + i) = false := BitVec.getLsbD_of_ge x _ (by omega)
    cases x.msb <;> simp [inside, moved, none]

end Bits

/-- The ways to shift by an amount that is known. -/
inductive Shift where
  | left
  | right
  | rightAlgebraic

namespace Shift

/-- Writes the shift of `rs` by `n` bits into `ra`. -/
def write : Shift → Gpr → Gpr → Int64 → Asm Unit
  | .left => Asm.shiftLeftImmediate
  | .right => Asm.shiftRightImmediate
  | .rightAlgebraic => Asm.shiftRightAlgebraicImmediate

/-- The number shifted by `n` bits. -/
def apply {w : Nat} : Shift → BitVec w → Nat → BitVec w
  | .left, x, n => x <<< n
  | .right, x, n => x >>> n
  | .rightAlgebraic, x, n => x.sshiftRight n

/-- The name under which an amount is refused. -/
def title (t : Target) : Shift → String
  | .left => t.choose "slwi" "sldi"
  | .right => t.choose "srwi" "srdi"
  | .rightAlgebraic => t.choose "srawi" "sradi"

/-- The instruction that is written. -/
def instr (t : Target) (ra rs : Gpr) (n : Int64) : Shift → Instr
  | .left => t.choose ⟨.rlwinm, (ra, rs, n, 0, 31 - n, ())⟩ ⟨.rldicr, (ra, rs, n, 63 - n, ())⟩
  | .right =>
    t.choose ⟨.rlwinm, (ra, rs, (32 - n) &&& 31, n, 31, ())⟩
      ⟨.rldicl, (ra, rs, (64 - n) &&& 63, n, ())⟩
  | .rightAlgebraic => t.choose ⟨.srawi, (ra, rs, n, ())⟩ ⟨.sradi, (ra, rs, n, ())⟩

end Shift

/-- The largest amount. -/
def lastAmount (t : Target) : Int64 := t.choose 31 63

/-- An amount that is smaller than the width of a register. -/
def InWidth (t : Target) (n : Int64) : Prop := 0 ≤ n.toInt ∧ n.toInt < width t

theorem checkShift_inWidth {t : Target} {n : Int64} (inside : InWidth t n) (op : String) :
    Layout.checkShift op n (lastAmount t) = .ok () := by
  obtain ⟨above, below⟩ := inside
  rw [OperandFields.checkShift_eq_ok_iff]
  cases t with
  | ppc32 => exact ⟨above, Int.le_of_lt_add_one below⟩
  | ppc64 => exact ⟨above, Int.le_of_lt_add_one below⟩

theorem checkShift_outside {t : Target} {n : Int64} (outside : ¬InWidth t n) (op : String) :
    Layout.checkShift op n (lastAmount t) = .error ⟨op, .shiftAmount n (lastAmount t)⟩ := by
  refine if_neg fun fits => outside ?_
  rw [Int64.le_iff_toInt_le, Int64.le_iff_toInt_le] at fits
  cases t with
  | ppc32 => exact ⟨fits.1, Int.lt_add_one_of_le fits.2⟩
  | ppc64 => exact ⟨fits.1, Int.lt_add_one_of_le fits.2⟩

section Writing
variable {t : Target} {ra rs : Gpr} {n : Int64}

theorem sized_apply {a : Assembly} (target : a.assembler.target = t) (narrow wide : Asm Unit) :
    Asm.sized narrow wide a = t.choose narrow wide a := by
  simp only [Asm.sized, Asm.target, bind_apply, assembler_apply, pure_apply, target]

theorem emitEncoded_refused {e : Except Fault Word} {fault : Fault} (refused : e = .error fault)
    (a : Assembly) : Asm.emitEncoded e a = .error fault a := by
  simp only [Asm.emitEncoded, refused, bind_apply, ofExcept_error]

section Aliases
variable {s : Alias} {args : Args s.operands} {op : String} {limit : Int64} {i : Instr}
  (checked : s.expand args = Layout.checkShift op n limit >>= fun _ => .ok i)
include checked

theorem short_refused {e : EncodingError} (refused : Layout.checkShift op n limit = .error e)
    (a : Assembly) : Asm.short s args a = .error (.encoding e) a := by
  refine emitEncoded_refused ?_ a
  rw [Alias.encode, checked, refused]
  rfl

theorem writes_checked (accepted : Layout.checkShift op n limit = .ok ()) :
    Writes t (Asm.short s args) [i] := by
  refine writes_short ?_
  rw [checked, accepted]
  rfl

end Aliases

theorem instr_refused {op : Opcode} {args : Args op.operands} {name : String} {limit : Int64}
    {f : Unit → Except EncodingError Word} {e : EncodingError}
    (checked : op.encode args 0 = (Layout.checkShift name n limit >>= f).mapError .encoding)
    (refused : Layout.checkShift name n limit = .error e) (a : Assembly) :
    Asm.instr op args a = .error (.encoding e) a := by
  refine emitEncoded_refused ?_ a
  rw [checked, refused]
  rfl

/-- Another amount is refused, and nothing is written. -/
theorem write_refused (k : Shift) (outside : ¬InWidth t n) {a : Assembly}
    (target : a.assembler.target = t) :
    k.write ra rs n a = .error (.encoding ⟨k.title t, .shiftAmount n (lastAmount t)⟩) a := by
  have refused := checkShift_outside outside
  cases k with
  | left =>
    refine (sized_apply target _ _).trans ?_
    cases t with
    | ppc32 => exact short_refused rfl (refused "slwi") a
    | ppc64 => exact short_refused rfl (refused "sldi") a
  | right =>
    refine (sized_apply target _ _).trans ?_
    cases t with
    | ppc32 => exact short_refused rfl (refused "srwi") a
    | ppc64 => exact short_refused rfl (refused "srdi") a
  | rightAlgebraic =>
    refine (sized_apply target _ _).trans ?_
    cases t with
    | ppc32 => exact instr_refused rfl (refused "srawi") a
    | ppc64 => exact instr_refused rfl (refused "sradi") a

/-- An amount in the width of a register is written as one instruction. -/
theorem writes_shift (k : Shift) (inside : InWidth t n) :
    Writes t (k.write ra rs n) [k.instr t ra rs n] := by
  have accepted := checkShift_inWidth inside
  cases k with
  | left =>
    refine writes_sized ?_
    cases t with
    | ppc32 => exact writes_checked rfl (accepted "slwi")
    | ppc64 => exact writes_checked rfl (accepted "sldi")
  | right =>
    refine writes_sized ?_
    cases t with
    | ppc32 => exact writes_checked rfl (accepted "srwi")
    | ppc64 => exact writes_checked rfl (accepted "srdi")
  | rightAlgebraic =>
    refine writes_sized ?_
    cases t with
    | ppc32 => exact writes_instr .srawi _
    | ppc64 => exact writes_instr .sradi _

end Writing

section Running
variable {t : Target} {ra rs : Gpr} {n : Int64}

theorem InWidth.amount (inside : InWidth t n) : (n.toInt.toNat : Int) = n.toInt ∧
    n.toInt.toNat < width t := by
  obtain ⟨above, below⟩ := inside
  omega

theorem toInt_lastAmount (t : Target) : (lastAmount t).toInt = width t - 1 := by
  cases t <;> rfl

theorem width_le (t : Target) : width t ≤ 64 := by
  cases t <;> decide

theorem toInt_and_last (v : Int64) : (v &&& lastAmount t).toInt = v.toInt % width t := by
  cases t with
  | ppc32 => exact toInt_and_mask v 5 (by decide)
  | ppc64 => exact toInt_and_mask v 6 (by decide)

/-- How many bits a shift to the left leaves, less one. -/
theorem left_toInt (inside : InWidth t n) :
    (lastAmount t - n).toInt = width t - 1 - n.toInt := by
  obtain ⟨above, below⟩ := inside
  have last := toInt_lastAmount t
  have width := width_le t
  rw [toInt_sub_of_range] <;> omega

/-- The rotation to the left that a shift to the right is. -/
theorem right_toInt (inside : InWidth t n) :
    (lastAmount t + 1 - n &&& lastAmount t).toInt = (width t - n.toInt) % width t := by
  obtain ⟨above, below⟩ := inside
  have width := width_le t
  have whole : (lastAmount t + 1).toInt = Proofs.width t := by cases t <;> rfl
  rw [toInt_and_last, toInt_sub_of_range, whole] <;> omega

theorem setWidth_append_self {w : Nat} (x : BitVec w) : (x ++ x).setWidth w = x := by
  apply BitVec.eq_of_getLsbD_eq
  intro i inside
  rw [BitVec.getLsbD_setWidth, BitVec.getLsbD_append, if_pos inside, decide_eq_true inside,
    Bool.true_and]

theorem rotatedWord_narrow (s : Core .ppc32) (r : Gpr) (n : Nat) :
    s.rotatedWord r n = (s.gpr r).rotateLeft n := by
  have word : (s.gpr r).setWidth 32 = s.gpr r := BitVec.setWidth_eq _
  rw [Core.rotatedWord, word]
  exact setWidth_append_self _

theorem rotate_rlwinm (s : Core .ppc32) (sh mb me : Int64) :
    s.rotate? ⟨.rlwinm, (ra, rs, sh, mb, me, ())⟩ =
      some { s with toMachine := s.setGpr ra ((s.gpr rs).rotateLeft sh.toInt.toNat &&&
        maskBits (width .ppc32) mb.toInt.toNat me.toInt.toNat) } := by
  rw [← rotatedWord_narrow, ← Nat.zero_add mb.toInt.toNat, ← Nat.zero_add me.toInt.toNat]
  rfl

theorem rotate_srawi (s : Core .ppc32) (sh : Int64) :
    ∃ carry, s.rotate? ⟨.srawi, (ra, rs, sh, ())⟩ =
      some { s with
        toMachine := s.setGpr ra (Core.fillUp (s.gpr rs).msb
          ((s.gpr rs).rotateLeft (64 - sh.toInt.toNat))
          (maskBits (width .ppc32) sh.toInt.toNat (width .ppc32 - 1)))
        carry } := by
  have sign : (s.gpr rs).getLsbD 31 = (s.gpr rs).msb := (BitVec.msb_eq_getLsbD_last _).symm
  have mask : maskBits (width .ppc32) (0 + sh.toInt.toNat) (width .ppc32 - 1) =
      maskBits (width .ppc32) sh.toInt.toNat (width .ppc32 - 1) := by
    rw [Nat.zero_add]
  rw [← rotatedWord_narrow, ← sign, ← mask]
  exact ⟨_, rfl⟩

theorem rotate_left (inside : InWidth t n) (s : Core t) :
    s.rotate? (Shift.left.instr t ra rs n) =
      some { s with toMachine := s.setGpr ra (s.gpr rs <<< n.toInt.toNat) } := by
  obtain ⟨amount, short⟩ := inside.amount
  have kept : (lastAmount t - n).toInt.toNat = width t - 1 - n.toInt.toNat := by
    have left := left_toInt inside
    omega
  rw [← rotateLeft_and_upper _ short, ← maskBits_upper short, ← kept]
  cases t with
  | ppc32 => exact rotate_rlwinm s n 0 (31 - n)
  | ppc64 => rfl

theorem rotate_right (inside : InWidth t n) (s : Core t) :
    s.rotate? (Shift.right.instr t ra rs n) =
      some { s with toMachine := s.setGpr ra (s.gpr rs >>> n.toInt.toNat) } := by
  obtain ⟨amount, short⟩ := inside.amount
  have around : (lastAmount t + 1 - n &&& lastAmount t).toInt.toNat % width t =
      (width t - n.toInt.toNat) % width t := by
    have whole : ((width t - n.toInt.toNat : Nat) : Int) = width t - n.toInt := by omega
    rw [right_toInt inside, ← whole, ← Int.natCast_emod, Int.toNat_natCast, Nat.mod_mod]
  rw [← rotateLeft_and_lower, ← maskBits_lower short, ← rotateLeft_congr _ around]
  cases t with
  | ppc32 => exact rotate_rlwinm s (32 - n &&& 31) n 31
  | ppc64 => rfl

theorem rotate_rightAlgebraic (inside : InWidth t n) (s : Core t) :
    ∃ carry, s.rotate? (Shift.rightAlgebraic.instr t ra rs n) =
      some { s with
        toMachine := s.setGpr ra ((s.gpr rs).sshiftRight n.toInt.toNat)
        carry } := by
  have short := inside.amount.2
  rw [← fillUp_lower, ← maskBits_lower short]
  cases t with
  | ppc32 =>
    have around : (64 - n.toInt.toNat) % width .ppc32 =
        (width .ppc32 - n.toInt.toNat) % width .ppc32 := by
      have word : width .ppc32 = 32 := rfl
      rw [word] at short ⊢
      omega
    rw [← rotateLeft_congr _ around]
    exact rotate_srawi s n
  | ppc64 => exact ⟨_, rfl⟩

/-- The instruction does the shift. Only one that keeps signs tells more, in the carry. -/
theorem rotate_shift (k : Shift) (ra rs : Gpr) (inside : InWidth t n) (s : Core t) :
    ∃ carry, s.rotate? (k.instr t ra rs n) =
      some { s with
        toMachine := s.setGpr ra (k.apply (s.gpr rs) n.toInt.toNat)
        carry } := by
  cases k with
  | left => exact ⟨s.carry, rotate_left inside s⟩
  | right => exact ⟨s.carry, rotate_right inside s⟩
  | rightAlgebraic => exact rotate_rightAlgebraic inside s

end Running

section Operands
variable {t : Target} {ra rs : Gpr} {n : Int64}

theorem fits_amount (inside : InWidth t n) : fitsUnsigned n (t.choose 5 6) = true := by
  rw [fitsUnsigned_iff]
  cases t <;> exact inside

theorem fits_left (inside : InWidth t n) :
    fitsUnsigned (lastAmount t - n) (t.choose 5 6) = true := by
  have left := left_toInt inside
  obtain ⟨above, below⟩ := inside
  have size : 2 ^ t.choose 5 6 = width t := by cases t <;> rfl
  rw [fitsUnsigned_iff, size]
  omega

theorem fits_right (v : Int64) : fitsUnsigned (v &&& lastAmount t) (t.choose 5 6) = true := by
  have size : 2 ^ t.choose 5 6 = width t := by cases t <;> rfl
  have some : (0 : Int) < width t := by cases t <;> decide
  rw [fitsUnsigned_iff, size, toInt_and_last]
  exact ⟨Int.emod_nonneg _ (Int.ne_of_gt some), Int.emod_lt_of_pos _ some⟩

theorem fits_shift (k : Shift) (inside : InWidth t n) (target : ra.isValid = true)
    (source : rs.isValid = true) : OperandsFit (k.instr t ra rs n) := by
  have amount := fits_amount inside
  cases k with
  | left =>
    have kept := fits_left inside
    cases t with
    | ppc32 => exact ⟨target, source, amount, rfl, kept⟩
    | ppc64 => exact ⟨target, source, amount, kept⟩
  | right =>
    have around := fits_right (t := t) (lastAmount t + 1 - n)
    cases t with
    | ppc32 => exact ⟨target, source, around, amount, rfl⟩
    | ppc64 => exact ⟨target, source, around, amount⟩
  | rightAlgebraic => cases t <;> exact ⟨target, source, amount⟩

end Operands

/-- A shift by an amount outside the width of a register is refused, and writes nothing. Any
other one is written as a single word, which shifts the number in `rs` into `ra`. -/
theorem shift_immediate_shifts (t : Target) (k : Shift) (ra rs : Gpr) (n : Int64) :
    (¬InWidth t n → ∀ a : Assembly, a.assembler.target = t →
      k.write ra rs n a = .error (.encoding ⟨k.title t, .shiftAmount n (lastAmount t)⟩) a) ∧
    (InWidth t n → ra.isValid = true → rs.isValid = true → ∃ w : Word,
      (∀ a bytes, Written a.segment bytes → a.assembler.target = t →
        Room a.segment (bytes.length + 4) →
        ∃ b, k.write ra rs n a = .ok () b ∧ Wrote a b bytes [w]) ∧
      ∀ s : Core t, ∃ carry, s.rotateWord? w = some { s with
        toMachine := s.setGpr ra (k.apply (s.gpr rs) n.toInt.toNat)
        carry }) := by
  refine ⟨fun outside a target => write_refused k outside target, fun inside target source => ?_⟩
  have fits := fits_shift k inside target source
  obtain ⟨ws, words, written⟩ := (writes_shift k inside).emits (List.forall_mem_singleton.mpr fits)
  obtain ⟨w, rest, held, none, rfl⟩ := List.forall₂_cons_right_iff.mp words
  obtain rfl := List.forall₂_nil_right_iff.mp none
  refine ⟨w, written, fun s => ?_⟩
  obtain ⟨carry, shifted⟩ := rotate_shift k ra rs inside s
  exact ⟨carry, by rw [Core.rotateWord?, held, Option.bind_eq_bind, Option.bind_some, shifted]⟩

/-- An amount of which the sixth bit is set, which only the wider registers take. -/
theorem shift_immediate_shifts_wide :
    (¬InWidth .ppc32 33 ∧ Shift.rightAlgebraic.write ⟨3⟩ ⟨0⟩ 33 (.fresh .ppc32 .big) =
      .error (.encoding ⟨"srawi", .shiftAmount 33 31⟩) (.fresh .ppc32 .big)) ∧
    InWidth .ppc64 33 ∧ Gpr.isValid ⟨3⟩ = true ∧ Gpr.isValid ⟨0⟩ = true ∧ ∃ w b,
      Shift.rightAlgebraic.write ⟨3⟩ ⟨0⟩ 33 (.fresh .ppc64 .big) = .ok () b ∧
      Wrote (.fresh .ppc64 .big) b [] [w] ∧
      ∀ s : Core .ppc64, ∃ carry, s.rotateWord? w =
        some { s with toMachine := s.setGpr ⟨3⟩ ((s.gpr ⟨0⟩).sshiftRight 33), carry } := by
  have outside : ¬InWidth .ppc32 33 := fun inside => absurd inside.2 (by decide)
  have inside : InWidth .ppc64 33 := ⟨by decide, by decide⟩
  have room : Room (Assembly.fresh .ppc64 .big).segment 4 := fresh_room .ppc64 .big (by decide)
  obtain ⟨w, written, shifts⟩ :=
    (shift_immediate_shifts .ppc64 .rightAlgebraic ⟨3⟩ ⟨0⟩ 33).2 inside rfl rfl
  obtain ⟨b, ran, wrote⟩ := written _ [] (fresh_code .ppc64 .big).written rfl room
  exact ⟨⟨outside, (shift_immediate_shifts .ppc32 .rightAlgebraic ⟨3⟩ ⟨0⟩ 33).1 outside _ rfl⟩,
    inside, rfl, rfl, w, b, ran, wrote, shifts⟩

end Shifts
end PowerAsm.Proofs
