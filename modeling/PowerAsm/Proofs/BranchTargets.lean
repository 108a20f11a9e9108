import PowerAsm.Proofs.Disassembly

/-! Branch targets. A displacement is found exactly when some number of words fits the field and
leads to the target, where addresses wrap around, and the branch that is made with it is decoded as
a branch to that target. -/
namespace PowerAsm.Proofs.BranchTargets
open Forms Layouts Table Decoding Disassembly

/-- The displacements that a signed field of this many bits holds. -/
def Fits (bits : Nat) (d : Int) : Prop := -2 ^ (bits - 1) ≤ d ∧ d < 2 ^ (bits - 1)

/-- So many words after `source`, or before it, comes `dest`. -/
def Leads (source dest : Int64) (d : Int) : Prop :=
  (source.toInt + 4 * d) % 2 ^ 64 = dest.toInt % 2 ^ 64

section Displacements
variable {source dest : Int64} {bits : Nat}

theorem fitsSigned_iff_fits (positive : 0 < bits) (short : bits ≤ 62) (d : Int64) :
    fitsSigned d bits = true ↔ Fits bits d.toInt := by
  rw [fitsSigned_iff positive (by omega), Fits]
  push_cast
  rfl

/-- Addresses are the same when they are congruent. -/
theorem leads_iff (source dest d : Int64) : Leads source dest d.toInt ↔ source + d * 4 = dest := by
  have four : (4 : Int64).toInt = 4 := rfl
  have reached : (source + d * 4).toInt = (source.toInt + 4 * d.toInt).bmod (2 ^ 64) := by
    rw [Int64.toInt_add, Int64.toInt_mul, four, Int.add_bmod_bmod, Int.mul_comm]
  have range := Int64.le_toInt dest
  have below := Int64.toInt_lt dest
  have own : dest.toInt.bmod (2 ^ 64) = dest.toInt := Int.bmod_eq_of_le (by omega) (by omega)
  rw [← Int64.toInt_inj, reached, Leads]
  constructor
  · intro congruent
    calc (source.toInt + 4 * d.toInt).bmod (2 ^ 64)
        = ((source.toInt + 4 * d.toInt) % 2 ^ 64).bmod (2 ^ 64) := (Int.emod_bmod ..).symm
      _ = (dest.toInt % 2 ^ 64).bmod (2 ^ 64) := by rw [congruent]
      _ = dest.toInt.bmod (2 ^ 64) := Int.emod_bmod ..
      _ = dest.toInt := own
  · intro same
    rw [← same]
    exact (Int.bmod_emod ..).symm

theorem displacement_iff (positive : 0 < bits) (short : bits ≤ 62) (d : Int64) :
    branchDisplacement source dest bits = .ok d ↔ Fits bits d.toInt ∧ Leads source dest d.toInt := by
  rw [branchDisplacement_eq_ok_iff source dest bits positive short, leads_iff,
    fitsSigned_iff_fits positive short]

/-- Nothing is reported but that no displacement exists. -/
theorem refused_iff (positive : 0 < bits) (short : bits ≤ 62) :
    branchDisplacement source dest bits = .error ⟨source, dest, bits⟩ ↔
      ¬ ∃ d, Fits bits d ∧ Leads source dest d := by
  constructor
  · rintro refused ⟨d, fits, leads⟩
    have power : (2 : Int) ^ (bits - 1) ≤ 2 ^ 61 := by
      exact_mod_cast Nat.pow_le_pow_right (by decide : 0 < 2) (by omega : bits - 1 ≤ 61)
    have value : (Int64.ofInt d).toInt = d :=
      Int64.toInt_ofInt_of_le (by have := fits.1; omega) (by have := fits.2; omega)
    have found : branchDisplacement source dest bits = .ok (.ofInt d) :=
      (displacement_iff positive short _).mpr (by rw [value]; exact ⟨fits, leads⟩)
    cases refused.symm.trans found
  · intro none
    cases found : branchDisplacement source dest bits with
    | ok d => exact absurd ⟨_, (displacement_iff positive short d).mp found⟩ none
    | error e =>
      simp only [branchDisplacement] at found
      split at found
      · cases found
      · cases found
        rfl

end Displacements

/-- Options of a conditional branch that fit their field. -/
def IsOption (v : Int64) : Prop := 0 ≤ v.toInt ∧ v.toInt ≤ 31

section Words
variable {bo bi d : Int64}

theorem fitsUnsigned_option {v : Int64} (option : IsOption v) : fitsUnsigned v 5 = true :=
  fitsUnsigned_iff.mpr ⟨option.1, Int.lt_add_one_of_le option.2⟩

/-- A displacement that fits is packed. -/
theorem exists_i (op : String) (link : Bool) (fits : fitsSigned d 24 = true) :
    ∃ w, Format.i op 18 d false link = .ok w := by
  have opcode : fitsUnsigned 18 6 = true := by decide
  refine ⟨_, pack_eq_ok_iff.mpr ⟨?_, rfl⟩⟩
  simp [opcode, fits]

theorem exists_b (op : String) (link : Bool) (first : IsOption bo) (second : IsOption bi)
    (fits : fitsSigned d 14 = true) : ∃ w, Format.b op 16 bo bi d false link = .ok w := by
  have opcode : fitsUnsigned 16 6 = true := by decide
  refine ⟨_, pack_eq_ok_iff.mpr ⟨?_, rfl⟩⟩
  simp [opcode, fits, fitsUnsigned_option first, fitsUnsigned_option second]

end Words

/-- The addresses that an instruction leads to. -/
def targets (i : Instruction) : List Int64 :=
  i.operands.filterMap fun
    | .target address => some address
    | _ => none

/-- A branch of the given kind that leads to `dest`. -/
structure BranchTo (base : Text) (dest : Int64) (i : Instruction) : Prop where
  base : i.base = base
  branch : Instruction.isBranch i.op = true
  target : targets i = [dest]

section Decoded
variable {title : String} {source dest bo bi d : Int64} {w : Word} {link : Bool}

theorem branchTo_plain {i : Instr} (found : Instr.ofWord? Opcode.all w source = some i)
    (plain : i.simplify = none) (branch : (Mnemonic.base i.op).leadsTo = true)
    (target : targets ⟨i.op.name, i.op.name, i.operands, w⟩ = [dest]) :
    BranchTo i.op.name dest (.decode w source) := by
  rw [decode_plain found plain]
  exact ⟨rfl, (isBranch_name (.base i.op)).trans branch, target⟩

theorem branchTo_short {i : Instr} {u : Alias.Use}
    (found : Instr.ofWord? Opcode.all w source = some i) (short : i.simplify = some u)
    (branch : (Mnemonic.short u.head).leadsTo = true)
    (target : targets ⟨u.head.name, i.op.name, u.operands, w⟩ = [dest]) :
    BranchTo i.op.name dest (.decode w source) := by
  rw [decode_short found short]
  exact ⟨rfl, (isBranch_name (.short u.head)).trans branch, target⟩

theorem encode_target (k : Constants) (found : branchDisplacement source dest 24 = .ok d) :
    Layout.target.encode title k source (dest, ()) =
      (Format.i title (Int64.ofNat k.primary) d false k.low).mapError .encoding := by
  show ((branchDisplacement 0 (dest - source) 24 >>= fun d => .ok (d, ())).mapError
      Fault.branchRange >>= fun args : Int64 × Unit =>
        (Format.i title _ args.1 false k.low).mapError Fault.encoding) = _
  rw [branchDisplacement_sub (by decide) (by decide) found]
  rfl

theorem encode_boBiTarget (k : Constants) (found : branchDisplacement source dest 14 = .ok d) :
    Layout.boBiTarget.encode title k source (bo, bi, dest, ()) =
      (Format.b title (Int64.ofNat k.primary) bo bi d false k.low).mapError .encoding := by
  show ((branchDisplacement 0 (dest - source) 14 >>= fun d => .ok (bo, bi, d, ())).mapError
      Fault.branchRange >>= fun args : Int64 × Int64 × Int64 × Unit =>
        (Format.b title _ args.1 args.2.1 args.2.2.1 false k.low).mapError Fault.encoding) = _
  rw [branchDisplacement_sub (by decide) (by decide) found]
  rfl

theorem encode_boBiTargetWide (k : Constants) (found : branchDisplacement source dest 14 = .ok d) :
    Layout.boBiTargetWide.encode title k source (bo, bi, dest, ()) =
      (Format.b title (Int64.ofNat k.primary) bo bi d false k.low).mapError .encoding := by
  show ((branchDisplacement source dest 14 >>= fun d => .ok (bo, bi, d, ())).mapError
      Fault.branchRange >>= fun args : Int64 × Int64 × Int64 × Unit =>
        (Format.b title _ args.1 args.2.1 args.2.2.1 false k.low).mapError Fault.encoding) = _
  rw [found]
  rfl

/-- A branch with a displacement that was found is decoded as a branch to the target. -/
theorem branchTo_i (found : branchDisplacement source dest 24 = .ok d)
    (encoded : Format.i title 18 d false link = .ok w) :
    BranchTo (if link then "bl" else "b") dest (.decode w source) := by
  cases link with
  | false =>
    have word : Opcode.b.encodeAs title (dest, ()) source = .ok w :=
      (encode_target _ found).trans (mapError_eq_ok_iff.mpr encoded)
    have own := ofWord?_of_encodeAs (by decide) (by decide) word
    exact branchTo_plain own rfl rfl rfl
  | true =>
    have word : Opcode.bl.encodeAs title (dest, ()) source = .ok w :=
      (encode_target _ found).trans (mapError_eq_ok_iff.mpr encoded)
    have own := ofWord?_of_encodeAs (by decide) (by decide) word
    exact branchTo_plain own rfl rfl rfl

/-- The address is left alone when the options are written as a condition. -/
theorem targets_shorten (c : Condition) (cr : CrField) (dest : Int64) (op base : Text) (w : Word) :
    targets ⟨op, base, (Alias.branch c).shorten [.conditionField cr.code, .target dest], w⟩ =
      [dest] := by
  simp only [Alias.shorten]
  split <;> rfl

theorem branchTo_b (found : branchDisplacement source dest 14 = .ok d)
    (encoded : Format.b title 16 bo bi d false link = .ok w) :
    BranchTo (if link then "bcl" else "bc") dest (.decode w source) := by
  cases link with
  | false =>
    have word : Opcode.bc.encodeAs title (bo, bi, dest, ()) source = .ok w :=
      (encode_boBiTarget _ found).trans (mapError_eq_ok_iff.mpr encoded)
    have own := ofWord?_of_encodeAs (by decide) (by decide) word
    cases tested : Condition.ofBranch? bo bi with
    | none => exact branchTo_plain own (congrArg (Option.map _) tested) rfl rfl
    | some test =>
      obtain ⟨cr, c⟩ := test
      exact branchTo_short own (congrArg (Option.map _) tested) rfl (targets_shorten c cr ..)
  | true =>
    have word : Opcode.bcl.encodeAs title (bo, bi, dest, ()) source = .ok w :=
      (encode_boBiTargetWide _ found).trans (mapError_eq_ok_iff.mpr encoded)
    have own := ofWord?_of_encodeAs (by decide) (by decide) word
    exact branchTo_plain own rfl rfl rfl

end Decoded

/-- A displacement is found exactly when it fits and leads to the target, and none is found exactly
when there is none. Every displacement that was found has a branch, also where the way passes the
end of the address space, and the branch is decoded with the target it was made for. -/
theorem branches_lead_to_targets (source dest : Int64) :
    (∀ bits, 1 ≤ bits → bits ≤ 62 →
      (∀ d, branchDisplacement source dest bits = .ok d ↔
        Fits bits d.toInt ∧ Leads source dest d.toInt) ∧
      (branchDisplacement source dest bits = .error ⟨source, dest, bits⟩ ↔
        ¬ ∃ d, Fits bits d ∧ Leads source dest d)) ∧
    (∀ op d link, branchDisplacement source dest 24 = .ok d →
      ∃ w, Format.i op 18 d false link = .ok w ∧
        BranchTo (if link then "bl" else "b") dest (.decode w source)) ∧
    ∀ op bo bi d link, branchDisplacement source dest 14 = .ok d → IsOption bo → IsOption bi →
      ∃ w, Format.b op 16 bo bi d false link = .ok w ∧
        BranchTo (if link then "bcl" else "bc") dest (.decode w source) := by
  refine ⟨fun bits positive short => ⟨displacement_iff positive short, refused_iff positive short⟩,
    fun op d link found => ?_, fun op bo bi d link found first second => ?_⟩
  · have fits := ((branchDisplacement_eq_ok_iff _ _ _ (by decide) (by decide) d).mp found).1
    obtain ⟨w, encoded⟩ := exists_i op link fits
    exact ⟨w, encoded, branchTo_i found encoded⟩
  · have fits := ((branchDisplacement_eq_ok_iff _ _ _ (by decide) (by decide) d).mp found).1
    obtain ⟨w, encoded⟩ := exists_b op link first second fits
    exact ⟨w, encoded, branchTo_b found encoded⟩

/-- From the last word of the address space it is one word to the first, for a conditional branch
as well; its options make it `beq cr7`. -/
theorem branches_lead_to_targets_around :
    branchDisplacement 0x7FFFFFFFFFFFFFFC (-0x8000000000000000) 14 = .ok 1 ∧
    Leads 0x7FFFFFFFFFFFFFFC (-0x8000000000000000) 1 ∧
    ∃ w, Format.b "beq" 16 12 30 1 false false = .ok w ∧
      BranchTo "bc" (-0x8000000000000000) (.decode w 0x7FFFFFFFFFFFFFFC) := by
  have both := branches_lead_to_targets 0x7FFFFFFFFFFFFFFC (-0x8000000000000000)
  have found : branchDisplacement 0x7FFFFFFFFFFFFFFC (-0x8000000000000000) 14 = .ok 1 := by decide
  exact ⟨found, ((both.1 14 (by decide) (by decide)).1 1 |>.mp found).2,
    both.2.2 "beq" 12 30 1 false found (by unfold IsOption; decide) (by unfold IsOption; decide)⟩

end PowerAsm.Proofs.BranchTargets
