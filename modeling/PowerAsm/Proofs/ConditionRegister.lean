import PowerAsm.Proofs.Machine

/-! The condition register. Each of its fields tells how two numbers compare. A comparison puts
one field in the place of another and leaves the rest of the register as it was. -/
namespace PowerAsm.Proofs
namespace ConditionRegister

/-- A condition field: less, greater, equal and overflow. -/
def flags (lt gt eq so : Bool) : BitVec 4 :=
  BitVec.ofBool lt ++ BitVec.ofBool gt ++ BitVec.ofBool eq ++ BitVec.ofBool so

/-- The condition register with one of its fields replaced. -/
def replaceField (cr : BitVec 32) (c : CrField) (v : BitVec 4) : BitVec 32 :=
  let place := 4 * (7 - c.number.toInt.toNat)
  cr &&& ~~~(15#32 <<< place) ||| v.setWidth 32 <<< place

private theorem getLsbD_fifteen (k : Nat) : (15#32).getLsbD k = decide (k < 4) := by
  have low : k < 4 → k < 32 := by omega
  have value := Nat.testBit_two_pow_sub_one 4 k
  rw [BitVec.getLsbD_ofNat]
  simp only [show (15 : Nat) = 2 ^ 4 - 1 from rfl, value]
  by_cases inside : k < 4 <;> simp [inside, low]

theorem getLsbD_replaceField (cr : BitVec 32) (c : CrField) (v : BitVec 4) {j : Nat}
    (inside : j < 32) :
    (replaceField cr c v).getLsbD j =
      if 4 * (7 - c.number.toInt.toNat) ≤ j ∧ j < 4 * (7 - c.number.toInt.toNat) + 4 then
        v.getLsbD (j - 4 * (7 - c.number.toInt.toNat))
      else cr.getLsbD j := by
  simp only [replaceField]
  generalize 4 * (7 - c.number.toInt.toNat) = place
  simp only [BitVec.getLsbD_or, BitVec.getLsbD_and, BitVec.getLsbD_not, BitVec.getLsbD_shiftLeft,
    BitVec.getLsbD_setWidth, getLsbD_fifteen, inside, decide_true, Bool.true_and]
  split
  · rename_i own
    have above : ¬ j < place := by omega
    have below : j - place < 4 := by omega
    have small : j - place < 32 := by omega
    simp [above, below, small]
  · rename_i other
    by_cases above : j < place
    · simp [above]
    · have beyond : ¬ j - place < 4 := by omega
      simp [above, beyond, BitVec.getLsbD_of_ge v (j - place) (by omega)]

/-- The first bits of the condition register are those of its first field. -/
theorem getMsbD_replaceField_first (cr : BitVec 32) (v : BitVec 4) {i : Nat} (inside : i < 4) :
    (replaceField cr .cr0 v).getMsbD i = v.getMsbD i := by
  have first : CrField.cr0.number.toInt.toNat = 0 := rfl
  rw [BitVec.getMsbD_eq_getLsbD, BitVec.getMsbD_eq_getLsbD,
    getLsbD_replaceField _ _ _ (by omega), first, if_pos (by omega), decide_eq_true (by omega),
    decide_eq_true inside]
  congr 2
  omega

/-- The bit of the first field that says equal. -/
theorem getMsbD_replaceField_cr0 (cr : BitVec 32) (lt gt eq so : Bool) :
    (replaceField cr .cr0 (flags lt gt eq so)).getMsbD 2 = eq := by
  rw [getMsbD_replaceField_first _ _ (by decide)]
  cases lt <;> cases gt <;> cases eq <;> cases so <;> rfl

/-- The bit of the first field that says greater. -/
theorem getMsbD_replaceField_greater (cr : BitVec 32) (lt gt eq so : Bool) :
    (replaceField cr .cr0 (flags lt gt eq so)).getMsbD 1 = gt := by
  rw [getMsbD_replaceField_first _ _ (by decide)]
  cases lt <;> cases gt <;> cases eq <;> cases so <;> rfl

/-- Two condition registers that differ in their first field only. -/
def SameBehind (cr cr' : BitVec 32) : Prop := ∀ j < 28, cr'.getLsbD j = cr.getLsbD j

theorem sameBehind_replaceField (cr : BitVec 32) (v : BitVec 4) :
    SameBehind cr (replaceField cr .cr0 v) := by
  intro j behind
  have first : CrField.cr0.number.toInt.toNat = 0 := rfl
  rw [getLsbD_replaceField _ _ _ (by omega), first, if_neg (by omega)]

theorem SameBehind.trans {cr cr' cr'' : BitVec 32} (same : SameBehind cr cr')
    (same' : SameBehind cr' cr'') : SameBehind cr cr'' :=
  fun j behind => (same' j behind).trans (same j behind)

theorem SameBehind.field {t : Target} {m m' : Machine t} (same : SameBehind m.cr m'.cr)
    {c : CrField} (valid : c.isValid = true) (other : c ≠ .cr0) : m'.field c = m.field c := by
  have behind : 0 < c.number.toInt := by
    simp only [CrField.isValid, Bool.and_eq_true, decide_eq_true_eq, Int8.le_iff_toInt_le] at valid
    have zero : (0 : Int8).toInt = 0 := rfl
    have nonzero : c.number.toInt ≠ 0 := fun same =>
      other (congrArg CrField.mk (Int8.toInt_inj.mp same))
    omega
  apply BitVec.eq_of_getLsbD_eq
  intro j inside
  simp only [Machine.field, BitVec.getLsbD_extractLsb', inside, decide_true, Bool.true_and]
  exact same _ (by omega)

/-- The fields behind the first one do not change with it. -/
theorem field_replaceField_cr0 {t : Target} {m m' : Machine t} {v : BitVec 4}
    (replaced : m'.cr = replaceField m.cr .cr0 v) {c : CrField} (valid : c.isValid = true)
    (other : c ≠ .cr0) : m'.field c = m.field c := by
  refine SameBehind.field ?_ valid other
  rw [replaced]
  exact sameBehind_replaceField m.cr v

end ConditionRegister

namespace Machine
open ConditionRegister
variable {t : Target}

/-- Tells in a condition field how two numbers compare. -/
def compare (s : Machine t) (overflow : Bool) (c : CrField) {w : Nat} (x y : BitVec w) :
    Machine t :=
  { s with cr := replaceField s.cr c (flags (x.slt y) (y.slt x) (x == y) overflow) }

/-- What an instruction does that compares two registers. The summary overflow bit goes into the
result. -/
def comparison? (s : Machine t) (overflow : Bool) : Instr → Option (Machine t)
  | ⟨.cmpw, (c, ra, rb, ())⟩ =>
    some (s.compare overflow c ((s.gpr ra).setWidth 32) ((s.gpr rb).setWidth 32))
  | ⟨.cmpd, (c, ra, rb, ())⟩ =>
    if t.is64 then some (s.compare overflow c (s.gpr ra) (s.gpr rb)) else none
  | _ => none

/-- Compares two registers as wide as they are. -/
def compareWords (t : Target) (ra rb : Gpr) : Instr :=
  t.choose ⟨.cmpw, (.cr0, ra, rb, ())⟩ ⟨.cmpd, (.cr0, ra, rb, ())⟩

theorem comparison_compareWords (s : Machine t) (overflow : Bool) (ra rb : Gpr) :
    s.comparison? overflow (compareWords t ra rb) =
      some (s.compare overflow .cr0 (s.gpr ra) (s.gpr rb)) := by
  cases t with
  | ppc32 =>
    have whole (x : BitVec (width .ppc32)) : x.setWidth 32 = x := BitVec.setWidth_eq x
    simp only [compareWords, Target.choose, comparison?, whole]
    rfl
  | ppc64 => rfl

end Machine
end PowerAsm.Proofs
