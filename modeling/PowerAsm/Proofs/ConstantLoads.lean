import PowerAsm.Proofs.Emission

/-! Loading constants. Each part of the code that loads a constant computes a function of what
the register held before, and leaves everything else as it is. The whole code computes the
constant from anything: shifting moves the upper halves past whatever a signed load has put
above them, and the halves that are added go where there are only zeros. -/
namespace PowerAsm.Proofs.ConstantLoads
open Storage Integers Forms Emission Machine

section Arithmetic
variable {w : Nat}

theorem ofInt_congr {x y : Int} (same : x % 2 ^ w = y % 2 ^ w) :
    BitVec.ofInt w x = BitVec.ofInt w y := by
  apply BitVec.eq_of_toNat_eq
  rw [BitVec.toNat_ofInt, BitVec.toNat_ofInt]
  push_cast
  rw [same]

theorem ofInt_congr_wide {x y : Int} (same : x % 2 ^ 64 = y % 2 ^ 64) :
    BitVec.ofInt (width .ppc64) x = BitVec.ofInt (width .ppc64) y :=
  ofInt_congr same

theorem ofInt_shiftLeft (x : Int) (n : Nat) :
    BitVec.ofInt w x <<< n = BitVec.ofInt w (x * 2 ^ n) := by
  have power : BitVec.ofInt w (2 ^ n) = BitVec.twoPow w n := by
    apply BitVec.eq_of_toNat_eq
    rw [BitVec.toNat_ofInt, BitVec.toNat_twoPow]
    norm_cast
  rw [BitVec.shiftLeft_eq_mul_twoPow, BitVec.ofInt_mul, power]

/-- Where the lower bits are zero, putting a short number into them adds it. -/
theorem ofInt_or {x y : Int} (k : Nat) (zeros : x % 2 ^ k = 0) (above : 0 ≤ y)
    (short : y < 2 ^ k) : BitVec.ofInt w x ||| BitVec.ofInt w y = BitVec.ofInt w (x + y) := by
  obtain ⟨n, rfl⟩ := Int.eq_ofNat_of_zero_le above
  obtain ⟨z, rfl⟩ := Int.dvd_of_emod_eq_zero zeros
  have apart : BitVec.ofInt w (2 ^ k * z) &&& BitVec.ofInt w (n : Int) = 0#w := by
    apply BitVec.eq_of_getLsbD_eq
    intro i inside
    rw [mul_comm, ← ofInt_shiftLeft, BitVec.ofInt_natCast, BitVec.getLsbD_and,
      BitVec.getLsbD_shiftLeft, BitVec.getLsbD_ofNat, BitVec.getLsbD_zero]
    by_cases low : i < k
    · simp [low]
    · have bound : n < 2 ^ k := by exact_mod_cast short
      have clear : n.testBit i = false :=
        Nat.testBit_lt_two_pow (lt_of_lt_of_le bound (Nat.pow_le_pow_right (by decide) (by omega)))
      simp [clear]
  rw [BitVec.ofInt_add, BitVec.add_eq_or_of_and_eq_zero _ _ apart]

/-- Rotating and keeping the bits that did not come around is shifting. -/
theorem rotateLeft_and_upper (x : BitVec w) {n : Nat} (short : n < w) :
    x.rotateLeft n &&& BitVec.allOnes w <<< n = x <<< n := by
  apply BitVec.eq_of_getLsbD_eq
  intro i inside
  rw [BitVec.getLsbD_and, BitVec.getLsbD_rotateLeft, BitVec.getLsbD_shiftLeft,
    BitVec.getLsbD_shiftLeft, BitVec.getLsbD_allOnes, Nat.mod_eq_of_lt short]
  by_cases low : i < n
  · simp [low]
  · have shifted : i - n < w := by omega
    simp [low, shifted, inside]

end Arithmetic

/-- For a target, the action writes at most `n` instructions, which together replace what the
register holds by a function of it and change nothing else. -/
def Computes (t : Target) (rt : Gpr) (action : Asm Unit) (n : Nat)
    (f : BitVec (width t) → BitVec (width t)) : Prop :=
  ∃ is, Writes t action is ∧ (∀ i ∈ is, OperandsFit i) ∧ is.length ≤ n ∧
    ∀ order (s : Machine t), execAll? (exec? order) is s = some (s.setGpr rt (f (s.gpr rt)))

variable {t : Target} {rt : Gpr}

theorem setGpr_self (s : Machine t) (r : Gpr) : s.setGpr r (s.gpr r) = s := by
  have same : (fun x => if x = r then s.gpr r else s.gpr x) = s.gpr := by
    funext x
    split
    · next equal => rw [equal]
    · rfl
  rw [setGpr, same]

theorem setGpr_setGpr (s : Machine t) (r : Gpr) (v u : BitVec (width t)) :
    (s.setGpr r v).setGpr r u = s.setGpr r u := by
  simp only [setGpr]
  congr 1
  funext x
  split <;> rfl

theorem gpr_setGpr (s : Machine t) (r : Gpr) (v : BitVec (width t)) : (s.setGpr r v).gpr r = v :=
  if_pos rfl

theorem computes_pure : Computes t rt (pure ()) 0 id :=
  ⟨[], writes_pure, fun _ none => absurd none List.not_mem_nil, Nat.le_refl 0, fun _ s => by
    rw [id, setGpr_self]
    rfl⟩

theorem Computes.bind {x y : Asm Unit} {n m : Nat} {f g : BitVec (width t) → BitVec (width t)}
    (first : Computes t rt x n f) (second : Computes t rt y m g) :
    Computes t rt (x >>= fun _ => y) (n + m) (g ∘ f) := by
  obtain ⟨is, writes, fits, short, runs⟩ := first
  obtain ⟨js, writes', fits', short', runs'⟩ := second
  refine ⟨is ++ js, writes.bind writes', ?_, ?_, ?_⟩
  · intro i member
    rcases List.mem_append.mp member with early | late
    · exact fits i early
    · exact fits' i late
  · rw [List.length_append]
    omega
  · intro order s
    rw [execAll_append (runs order s), runs' order, gpr_setGpr, setGpr_setGpr]
    rfl

/-- One instruction. -/
theorem computes_one {action : Asm Unit} {i : Instr} {f : BitVec (width t) → BitVec (width t)}
    (writes : Writes t action [i]) (fits : OperandsFit i)
    (runs : ∀ order (s : Machine t), s.exec? order i = some (s.setGpr rt (f (s.gpr rt)))) :
    Computes t rt action 1 f := by
  refine ⟨[i], writes, ?_, le_rfl, fun order s => execAll_cons (runs order s) []⟩
  intro j member
  rw [List.mem_singleton.mp member]
  exact fits

theorem Computes.mono {action : Asm Unit} {n m : Nat} {f : BitVec (width t) → BitVec (width t)}
    (computes : Computes t rt action n f) (fewer : n ≤ m) : Computes t rt action m f := by
  obtain ⟨is, writes, fits, short, runs⟩ := computes
  exact ⟨is, writes, fits, Nat.le_trans short fewer, runs⟩

theorem Computes.congr {action : Asm Unit} {n : Nat} {f g : BitVec (width t) → BitVec (width t)}
    (computes : Computes t rt action n f) (same : ∀ x, f x = g x) : Computes t rt action n g := by
  rwa [← funext same]

theorem Computes.ite {c : Prop} [Decidable c] {x y : Asm Unit} {n : Nat}
    {f : BitVec (width t) → BitVec (width t)} (yes : c → Computes t rt x n f)
    (no : ¬c → Computes t rt y n f) : Computes t rt (if c then x else y) n f := by
  split
  · next holds => exact yes holds
  · next fails => exact no fails

theorem computes_target {action : Target → Asm Unit} {n : Nat}
    {f : BitVec (width t) → BitVec (width t)} (chosen : Computes t rt (action t) n f) :
    Computes t rt (Asm.target >>= action) n f := by
  obtain ⟨is, writes, others⟩ := chosen
  exact ⟨is, writes_target writes, others⟩

/-- Where there is nothing to add no instruction is needed. -/
theorem computes_orUnlessZero {op : Opcode} {args : Gpr → Int64 → Args op.operands} {v : Int64}
    {f : BitVec (width t) → BitVec (width t)} (nothing : v = 0 → ∀ x, f x = x)
    (one : Computes t rt (Asm.instr op (args rt v)) 1 f) :
    Computes t rt (Asm.orUnlessZero op args rt v) 1 f :=
  .ite (fun zero => (computes_pure.mono (Nat.zero_le 1)).congr fun x => (nothing zero x).symm)
    fun _ => one

section Instructions
variable (valid : rt.isValid = true)
include valid

theorem computes_li {v : Int64} (fits : fitsSigned v 16 = true) :
    Computes t rt (Asm.short .li (rt, v, ())) 1 fun _ => number v := by
  refine computes_one (writes_short rfl) ⟨valid, rfl, fits⟩ fun order s => ?_
  have zero : s.base .r0 = 0#_ := if_pos rfl
  rw [exec?, zero, BitVec.zero_add]

theorem computes_lis {v : Int64} (fits : fitsSigned v 16 = true) :
    Computes t rt (Asm.short .lis (rt, v, ())) 1 fun _ => number v <<< 16 := by
  refine computes_one (writes_short rfl) ⟨valid, rfl, fits⟩ fun order s => ?_
  have zero : s.base .r0 = 0#_ := if_pos rfl
  rw [exec?, zero, BitVec.zero_add]

theorem computes_ori {v : Int64} (fits : fitsUnsigned v 16 = true) :
    Computes t rt (Asm.instr .ori (rt, rt, v, ())) 1 (· ||| number v) :=
  computes_one (writes_instr ..) ⟨valid, valid, fits⟩ fun _ _ => rfl

theorem computes_oris {v : Int64} (fits : fitsUnsigned v 16 = true) :
    Computes t rt (Asm.instr .oris (rt, rt, v, ())) 1 (· ||| number v <<< 16) :=
  computes_one (writes_instr ..) ⟨valid, valid, fits⟩ fun _ _ => rfl

theorem computes_sldi : Computes .ppc64 rt (Asm.short .sldi (rt, rt, 32, ())) 1 (· <<< 32) := by
  refine computes_one (writes_short (i := ⟨.rldicr, (rt, rt, 32, 31, ())⟩) rfl)
    ⟨valid, valid, rfl, rfl⟩ fun order s => ?_
  rw [← rotateLeft_and_upper (s.gpr rt) (by decide : 32 < width .ppc64)]
  rfl

theorem computes_setLow {v : Int64} (fits : fitsUnsigned v 16 = true) :
    Computes t rt (Asm.setLow rt v) 1 (· ||| number v) := by
  refine computes_orUnlessZero ?_ (computes_ori valid fits)
  rintro rfl x
  exact BitVec.or_zero

theorem computes_setNext {v : Int64} (fits : fitsUnsigned v 16 = true) :
    Computes t rt (Asm.setNext rt v) 1 (· ||| number v <<< 16) := by
  refine computes_orUnlessZero ?_ (computes_oris valid fits)
  rintro rfl x
  exact (congrArg (x ||| ·) (BitVec.zero_shiftLeft 16)).trans BitVec.or_zero

end Instructions

/-- A halfword of a doubleword. -/
theorem half_toInt (v : Int64) (n : Nat) (small : n < 64) :
    (v >>> Int64.ofNat n &&& 0xFFFF).toInt = v.toInt / 2 ^ n % 2 ^ 16 := by
  have low := toInt_and_mask (v >>> Int64.ofNat n) 16 (by decide)
  rwa [toInt_shiftRight v n small] at low

theorem half_fits {v : Int64} {x : Int} (value : v.toInt = x % 2 ^ 16) :
    fitsUnsigned v 16 = true := by
  rw [fitsUnsigned_iff]
  omega

/-- The signed reading of a halfword is the same up to the bits above it. -/
theorem signedHalf_toInt (v : Int64) :
    -2 ^ 15 ≤ (Asm.signedHalf v).toInt ∧ (Asm.signedHalf v).toInt < 2 ^ 15 ∧
      (Asm.signedHalf v).toInt % 2 ^ 16 = v.toInt % 2 ^ 16 := by
  have value : (Asm.signedHalf v).toInt = v.toInt.bmod (2 ^ 16) := by
    rw [Asm.signedHalf, Int16.toInt_toInt64, Int64.toInt_toInt16]
  have above := Int.le_bmod (x := v.toInt) (m := 2 ^ 16) (by decide)
  have below := Int.bmod_lt (x := v.toInt) (m := 2 ^ 16) (by decide)
  have same := Int.bmod_emod (x := v.toInt) (m := 2 ^ 16)
  omega

theorem signedHalf_fits (v : Int64) : fitsSigned (Asm.signedHalf v) 16 = true := by
  have facts := signedHalf_toInt v
  rw [fitsSigned_iff (by decide) (by decide)]
  omega

/-- The four halves make up the doubleword. -/
theorem halves_eq (x : Int) :
    (x / 2 ^ 48 % 2 ^ 16 * 2 ^ 48 + x / 2 ^ 32 % 2 ^ 16 * 2 ^ 32 + x / 2 ^ 16 % 2 ^ 16 * 2 ^ 16 +
      x % 2 ^ 16) % 2 ^ 64 = x % 2 ^ 64 := by
  omega

theorem upper_zeros (x y : Int) : (x * 2 ^ 48 + y * 2 ^ 32) % 2 ^ 32 = 0 := by
  omega

/-- Adding the two lower halves to a register in which they are zero. -/
theorem or_halves {x : Int} (zeros : x % 2 ^ 32 = 0) {q1 q0 : Int64}
    (next : fitsUnsigned q1 16 = true) (low : fitsUnsigned q0 16 = true) :
    BitVec.ofInt (width t) x ||| number q1 <<< 16 ||| number q0 =
      BitVec.ofInt (width t) (x + q1.toInt * 2 ^ 16 + q0.toInt) := by
  rw [fitsUnsigned_iff] at next low
  rw [number, number, ofInt_shiftLeft, ofInt_or 32 zeros (by omega) (by omega),
    ofInt_or 16 (by omega) (by omega) (by omega)]

/-- Only the low word of a constant counts on 32 bits. -/
theorem number_choose (v : Int64) :
    (number (t.choose v.toInt32.toInt64 v) : BitVec (width t)) = v.toBitVec.setWidth (width t) := by
  cases t with
  | ppc32 =>
    have same : v.toInt32.toInt64.toInt = v.toInt32.toBitVec.toInt := Int32.toInt_toInt64 v.toInt32
    show BitVec.ofInt 32 v.toInt32.toInt64.toInt = _
    rw [same, BitVec.ofInt_toInt, Int64.toBitVec_toInt32]
    exact BitVec.signExtend_eq_setWidth_of_le _ (by decide)
  | ppc64 => exact BitVec.ofInt_toInt.trans (BitVec.setWidth_eq _).symm

section Loads
variable (valid : rt.isValid = true)
include valid

/-- What the upper halves leave in the register, which once shifted is what they stand for. -/
theorem computes_loadUpper {q3 q2 : Int64} (high : fitsUnsigned q3 16 = true)
    (next : fitsUnsigned q2 16 = true) :
    ∃ y, Computes .ppc64 rt (Asm.loadUpper rt q3 q2) 2 (fun _ => y) ∧
      y <<< 32 = BitVec.ofInt (width .ppc64) (q3.toInt * 2 ^ 48 + q2.toInt * 2 ^ 32) := by
  have high' := high
  have next' := next
  rw [fitsUnsigned_iff] at high' next'
  rw [Asm.loadUpper]
  split
  · refine ⟨number (Asm.signedHalf q3) <<< 16 ||| number q2,
      (computes_lis valid (signedHalf_fits q3)).bind (computes_setLow valid next), ?_⟩
    have signed := signedHalf_toInt q3
    rw [number, number, ofInt_shiftLeft, ofInt_or 16 (by omega) (by omega) (by omega),
      ofInt_shiftLeft]
    -- what the signed load puts above the low word goes out to the left
    apply ofInt_congr_wide
    omega
  · next zero =>
    have none : q3.toInt = 0 := by rw [not_not.mp zero]; rfl
    split
    · next short =>
      have bound : q2.toInt < 2 ^ 15 := Int64.lt_iff_toInt_lt.mp short
      refine ⟨number q2, (computes_li valid ?_).mono (by decide), ?_⟩
      · rw [fitsSigned_iff (by decide) (by decide)]
        omega
      · rw [number, ofInt_shiftLeft, none]
        congr 1
        omega
    · refine ⟨number 0 ||| number q2, (computes_li valid rfl).bind (computes_ori valid next), ?_⟩
      have start : (0 : Int64).toInt = 0 := rfl
      rw [number, number, start, ofInt_or 16 (by omega) (by omega) (by omega), ofInt_shiftLeft, none]
      congr 1
      omega

theorem computes_loadWide (v : Int64) :
    Computes .ppc64 rt (Asm.loadWide rt v) 5 fun _ => number v := by
  have three : (v >>> 48 &&& 0xFFFF).toInt = v.toInt / 2 ^ 48 % 2 ^ 16 := half_toInt v 48 (by decide)
  have two : (v >>> 32 &&& 0xFFFF).toInt = v.toInt / 2 ^ 32 % 2 ^ 16 := half_toInt v 32 (by decide)
  have one : (v >>> 16 &&& 0xFFFF).toInt = v.toInt / 2 ^ 16 % 2 ^ 16 := half_toInt v 16 (by decide)
  have zero : (v &&& 0xFFFF).toInt = v.toInt % 2 ^ 16 := toInt_and_mask v 16 (by decide)
  have whole := halves_eq v.toInt
  refine .ite (fun empty => ?_) fun _ => ?_
  · refine (((computes_li valid rfl).bind ((computes_oris valid (half_fits one)).bind
      (computes_setLow valid (half_fits zero)))).mono (by decide)).congr fun _ => ?_
    refine (or_halves (x := 0) rfl (half_fits one) (half_fits zero)).trans (ofInt_congr_wide ?_)
    have none : (0 : Int64).toInt = 0 := rfl
    rw [empty.1, none] at three
    rw [empty.2, none] at two
    omega
  · obtain ⟨y, computes, shifted⟩ := computes_loadUpper valid (half_fits three) (half_fits two)
    refine (computes.bind ((computes_sldi valid).bind ((computes_setNext valid (half_fits one)).bind
      (computes_setLow valid (half_fits zero))))).congr fun _ => ?_
    show y <<< 32 ||| number _ <<< 16 ||| number _ = number v
    rw [shifted, or_halves (upper_zeros _ _) (half_fits one) (half_fits zero), three, two, one, zero]
    exact ofInt_congr_wide whole

/-- Loading a constant that is as wide as the target. -/
theorem computes_value {v : Int64} (narrow : t = .ppc32 → fitsSigned v 32 = true) :
    Computes t rt (if fitsSigned v 16 then Asm.short .li (rt, v, ())
      else if fitsSigned v 32 then do
        Asm.short .lis (rt, Asm.signedHalf (v >>> 16), ())
        Asm.setLow rt (v &&& 0xFFFF)
      else Asm.loadWide rt v) (t.choose 2 5) fun _ => number v := by
  have zero : (v &&& 0xFFFF).toInt = v.toInt % 2 ^ 16 := toInt_and_mask v 16 (by decide)
  split
  · next fits => exact (computes_li valid fits).mono (by cases t <;> decide)
  · split
    · next fits =>
      refine (((computes_lis valid (signedHalf_fits _)).bind
        (computes_setLow valid (half_fits zero))).mono (by cases t <;> decide)).congr fun _ => ?_
      have upper : (v >>> 16).toInt = v.toInt / 2 ^ 16 := toInt_shiftRight v 16 (by decide)
      have signed := signedHalf_toInt (v >>> 16)
      rw [fitsSigned_iff (by decide) (by decide)] at fits
      show number _ <<< 16 ||| number _ = number v
      rw [number, number, number, ofInt_shiftLeft, ofInt_or 16 (by omega) (by omega) (by omega),
        zero]
      congr 1
      omega
    · next wide =>
      cases t with
      | ppc32 => exact absurd (narrow rfl) wide
      | ppc64 => exact computes_loadWide valid v

theorem computes_loadConst (v : Int64) :
    Computes t rt (Asm.loadConst rt v) (t.choose 2 5) fun _ => v.toBitVec.setWidth (width t) := by
  rw [← number_choose v]
  refine computes_target (computes_value valid fun narrow => ?_)
  rw [narrow, fitsSigned_iff (by decide) (by decide)]
  have above := Int32.le_toInt v.toInt32
  have below := Int32.toInt_lt v.toInt32
  have same : v.toInt32.toInt64.toInt = v.toInt32.toInt := Int32.toInt_toInt64 v.toInt32
  show _ ≤ v.toInt32.toInt64.toInt ∧ v.toInt32.toInt64.toInt < _
  omega

end Loads

/-- Loading a constant writes words, at most two on 32 bits and five on 64 bits, which leave
the constant in the register, or as much of it as the register holds, and change nothing else. -/
theorem loadConst_loads {t : Target} {rt : Gpr} (valid : rt.isValid = true) (v : Int64) :
    ∃ ws : List Word, ws.length ≤ t.choose 2 5 ∧
      (∀ order (s : Machine t),
        run? order ws s = some (s.setGpr rt (v.toBitVec.setWidth (width t)))) ∧
      ∀ a bytes, Written a.segment bytes → a.assembler.target = t →
        Room a.segment (bytes.length + 4 * ws.length) →
        ∃ b, Asm.loadConst rt v a = .ok () b ∧ Wrote a b bytes ws := by
  obtain ⟨is, writes, fits, short, runs⟩ := computes_loadConst (t := t) valid v
  obtain ⟨ws, held, written⟩ := writes.emits fits
  refine ⟨ws, ?_, fun order s => ?_, written⟩
  · rw [held.length_eq]
    exact short
  · rw [run_eq_execAll held s, runs order s]

/-- A constant of which every half counts. The signed load of the first one fills the upper word
with ones, which the shift takes away again. -/
theorem loadConst_loads_signed : Gpr.isValid ⟨31⟩ = true ∧ ∃ ws b, ws.length ≤ 5 ∧
    Asm.loadConst ⟨31⟩ (-0x7FFFFFFE7FFEFFFF) (.fresh .ppc64 .big) = .ok () b ∧
    Wrote (.fresh .ppc64 .big) b [] ws ∧ ∀ order (s : Machine .ppc64),
      run? order ws s = some (s.setGpr ⟨31⟩ 0x8000000180010001#64) := by
  have valid : Gpr.isValid ⟨31⟩ = true := rfl
  obtain ⟨ws, short, runs, written⟩ :=
    loadConst_loads (t := .ppc64) valid (-0x7FFFFFFE7FFEFFFF)
  have small : 4 * ws.length ≤ largest := Nat.le_trans (Nat.mul_le_mul_left 4 short) (by decide)
  obtain ⟨b, ran, wrote⟩ := written (.fresh .ppc64 .big) []
    (fresh_code .ppc64 .big).written rfl
    (fresh_room .ppc64 .big (by rwa [List.length_nil, Nat.zero_add]))
  exact ⟨valid, ws, b, short, ran, wrote, runs⟩

end PowerAsm.Proofs.ConstantLoads
