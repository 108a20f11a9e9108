import PowerAsm.Instruction.Opcode
import PowerAsm.Proofs.OperandFields

/-! Encoding and reading are inverse for every operand layout. A word is what a layout
makes of some operands exactly when it has the constants of the layout in their places,
nothing in the bits that hold no operand, and the operands are those read from it. -/
namespace PowerAsm.Proofs.Layouts
open Fields Integers Forms OperandFields

/-- The places in which every word of a layout is the same, with what they hold. -/
def constantPlaces (l : Layout) (k : Constants) : List Placed :=
  let primary : Placed := ⟨26, 6, Int64.ofNat k.primary⟩
  let extended : Placed := ⟨1, 10, Int64.ofNat k.extended⟩
  let low : Placed := ⟨0, 1, if k.low then 1 else 0⟩
  let doubleword : Placed := ⟨21, 1, if k.doubleword then 1 else 0⟩
  let zero (low width : Nat) : Placed := ⟨low, width, 0⟩
  match l with
  | .nothing => [primary, zero 21 5, zero 16 5, zero 11 5, extended, low]
  | .rtRaSi | .raRsUi | .rtMem | .ftMem => [primary]
  | .rtMemWords => [primary, ⟨0, 2, Int64.ofNat k.extended⟩]
  | .target | .boBiTarget | .boBiTargetWide => [primary, zero 1 1, low]
  | .rtRaRb | .rtRaRbWide | .raRsRb | .ftRaRb | .ftFaFb | .boBi | .raRsShift32 | .rtSpr
  | .sprRs | .maskRs | .toRaRb => [primary, extended, low]
  | .rtRa | .raRs => [primary, zero 11 5, extended, low]
  | .rtOnly => [primary, zero 16 5, zero 11 5, extended, low]
  | .ftFb => [primary, zero 16 5, extended, low]
  | .ftFaFc => [primary, zero 11 5, ⟨1, 5, Int64.ofNat k.extended⟩, low]
  | .crRaRb | .crFaFb => [primary, zero 22 1, doubleword, extended, low]
  | .crRaSi | .crRaUi => [primary, zero 22 1, doubleword]
  | .raRsShMbMe => [primary, low]
  | .raRsShBound => [primary, ⟨2, 3, Int64.ofNat k.extended⟩, low]
  | .raRsShift64 => [primary, ⟨2, 9, Int64.ofNat (k.extended / 2)⟩, low]

theorem constant_places_masks (l : Layout) (k : Constants) :
    masks (constantPlaces l k) = l.mask := by
  cases l <;> simp [constantPlaces, masks, Placed.mask, Layout.mask]

/-- The constants can stand in the words of the layout. -/
def Admits (l : Layout) (k : Constants) : Prop :=
  (∀ p ∈ constantPlaces l k, fitsUnsigned p.value p.width = true) ∧
    words (constantPlaces l k) = l.value k ∧
    (l = .raRsShift64 → k.extended % 2 = 0 ∧ k.extended < 1024) ∧
    (l = .ftFaFc → k.extended < 32) ∧
    (l = .raRsShMbMe → k.primary = 21) ∧ (l = .raRsShBound → k.primary = 30)

instance (l : Layout) (k : Constants) : Decidable (Admits l k) :=
  inferInstanceAs (Decidable (_ ∧ _))

theorem opcode_admitted (op : Opcode) : Admits op.layout op.entry.constants := by
  cases op <;> decide

/-- A word belongs to a layout with some constants exactly when it has them in their
places. -/
theorem isWord_iff {l : Layout} {k : Constants} (admits : Admits l k) (w : Word) :
    w &&& l.mask = l.value k ↔
      ∀ p ∈ constantPlaces l k, p.value = w.unsigned p.low p.width := by
  obtain ⟨fit, made, -⟩ := admits
  have narrow : ∀ p ∈ constantPlaces l k, p.width < 64 := by
    cases l <;> simp [constantPlaces]
  rw [← made, ← constant_places_masks l k, and_masks_eq_words_iff]
  · constructor
    · intro held p member
      exact (eq_unsigned_iff w p.value p.low p.width (narrow p member)).mp
        ⟨fit p member, held p member⟩
    · intro same p member
      exact ((eq_unsigned_iff w p.value p.low p.width (narrow p member)).mpr (same p member)).2
  · cases l <;> simp [constantPlaces]
  · cases l <;> simp [constantPlaces, Placed.Apart]

/-- A written operand against the one that was read: equal, but for signed numbers of 16
bits, which may be written as their unsigned pattern. -/
def ValueAgrees (half : Bool) : (t : OperandType) → t.Value → t.Value → Prop
  | .immediate, given, read => if half then SameHalf given read else given = read
  | .memory, given, read => given.base = read.base ∧ SameHalf given.displacement read.displacement
  | _, given, read => given = read

def ArgsAgree (half : Bool) : (types : List OperandType) → Args types → Args types → Prop
  | [], _, _ => True
  | t :: ts, (given, rest), (read, rest') =>
    ValueAgrees half t given read ∧ ArgsAgree half ts rest rest'

/-- Whether the immediate of a layout is a signed number of 16 bits. -/
def signedHalf : Layout → Bool
  | .rtRaSi | .crRaSi => true
  | _ => false

/-- Where no operand can be written in two ways, those that agree are equal. -/
theorem eq_of_argsAgree {half : Bool} {types : List OperandType}
    (numbers : half = true → .immediate ∉ types) (addresses : .memory ∉ types)
    {given read : Args types} (agree : ArgsAgree half types given read) : given = read := by
  induction types with
  | nil => rfl
  | cons t ts ih =>
    obtain ⟨first, rest⟩ := given
    obtain ⟨first', rest'⟩ := read
    obtain ⟨same, agree⟩ := agree
    have head : first = first' := by
      cases t with
      | immediate =>
        have unsigned : ¬half = true := fun signed => numbers signed List.mem_cons_self
        rwa [ValueAgrees, if_neg unsigned] at same
      | memory => exact absurd List.mem_cons_self addresses
      | _ => exact same
    have tail : rest = rest' :=
      ih (fun signed member => numbers signed (List.mem_cons_of_mem _ member))
        (fun member => addresses (List.mem_cons_of_mem _ member)) agree
    rw [head, tail]

/-- The bits of a word that hold neither a constant nor an operand. -/
def ignored : Layout → Word
  | .boBi => 0x0000F800
  | .maskRs => 0x00100800
  | _ => 0

@[simp] theorem mapError_eq_ok_iff {ε ε' α : Type} {x : Except ε α} {f : ε → ε'} {a : α} :
    x.mapError f = .ok a ↔ x = .ok a := by
  cases x <;> simp [Except.mapError]

theorem bind_eq_ok_iff {ε α β : Type} {x : Except ε α} {f : α → Except ε β} {b : β} :
    (x >>= f) = .ok b ↔ ∃ a, x = .ok a ∧ f a = .ok b := by
  cases x <;> simp [bind, Except.bind]

@[simp] theorem ite_error_eq_ok_iff {ε α : Type} {c : Prop} [Decidable c] {x : Except ε α} {e : ε}
    {a : α} : (if c then x else .error e) = .ok a ↔ c ∧ x = .ok a := by
  split <;> simp_all

/-- A displacement is found exactly when it fits its field and leads to the target. -/
theorem branchDisplacement_eq_ok_iff (source dest : Int64) (bits : Nat) (positive : 0 < bits)
    (short : bits ≤ 62) (d : Int64) :
    branchDisplacement source dest bits = .ok d ↔
      fitsSigned d bits = true ∧ source + d * 4 = dest := by
  have four : (4 : Int64).toInt = 4 := rfl
  have range (v : Int64) : fitsSigned v bits = true → -2 ^ 61 ≤ v.toInt ∧ v.toInt < 2 ^ 61 := by
    intro fits
    have power : 2 ^ (bits - 1) ≤ 2 ^ 61 := Nat.pow_le_pow_right (by decide) (by omega)
    have bound := (fitsSigned_iff positive (by omega)).mp fits
    omega
  have quotient (v : Int64) (aligned : v.toInt % 4 = 0) : (v / 4).toInt = v.toInt / 4 := by
    have above := Int64.le_toInt v
    have below := Int64.toInt_lt v
    rw [Int64.toInt_div, four, Int.tdiv_eq_ediv_of_dvd (Int.dvd_of_emod_eq_zero aligned),
      Int.bmod_eq_of_le] <;> omega
  unfold branchDisplacement
  simp only [ite_error_eq_ok_iff, Except.ok.injEq]
  constructor
  · rintro ⟨⟨aligned, fits⟩, rfl⟩
    have inside := range _ fits
    have whole := quotient _ aligned
    have back : (dest - source) / 4 * 4 = dest - source := by
      apply Int64.toInt_inj.mp
      rw [toInt_mul_of_range] <;> rw [whole, four] <;> omega
    refine ⟨fits, ?_⟩
    rw [back, Int64.add_comm, Int64.sub_add_cancel]
  · rintro ⟨fits, rfl⟩
    have inside := range _ fits
    have way : source + d * 4 - source = d * 4 := by
      rw [Int64.add_comm, Int64.add_sub_cancel]
    have scaled : (d * 4).toInt = d.toInt * 4 := by
      rw [toInt_mul_of_range] <;> rw [four] <;> omega
    have back : d * 4 / 4 = d := by
      apply Int64.toInt_inj.mp
      rw [quotient _ (by omega), scaled, Int.mul_ediv_cancel _ (by decide)]
    rw [way, back]
    exact ⟨⟨by omega, fits⟩, rfl⟩

/-- The way is the same when it starts at zero. -/
theorem branchDisplacement_sub {source dest d : Int64} {bits : Nat} (positive : 0 < bits)
    (short : bits ≤ 62) (found : branchDisplacement source dest bits = .ok d) :
    branchDisplacement 0 (dest - source) bits = .ok d := by
  rw [branchDisplacement_eq_ok_iff _ _ _ positive short] at found ⊢
  obtain ⟨fits, rfl⟩ := found
  refine ⟨fits, ?_⟩
  rw [Int64.zero_add, Int64.add_comm, Int64.add_sub_cancel]

section Encode
variable (op : String) (k : Constants) (pc : Int64) (w : Word)

/-- What `encode_eq_ok_iff` says of one layout. -/
private def Inverse (l : Layout) : Prop :=
  Admits l k → ∀ args : Args l.operands, l.encode op k pc args = .ok w ↔
    (∀ p ∈ constantPlaces l k, p.value = w.unsigned p.low p.width) ∧
      w &&& ignored l = 0#32 ∧ ArgsAgree (signedHalf l) l.operands args (l.read w pc)

private theorem inverse_ftFaFc : Inverse op k pc w .ftFaFc := by
  rintro ⟨-, -, -, short, -⟩ ⟨ft, fa, fc, ⟨⟩⟩
  show (if fc.isValid then Format.x op _ ft.code fa.code 0 (fc.code * 32 + _) k.low
      else .error _).mapError Fault.encoding = .ok w ↔
    _ ∧ _ ∧ ft = .ofCode (w.unsigned 21 5) ∧ fa = .ofCode (w.unsigned 16 5) ∧
      fc = .ofCode (w.unsigned 6 5) ∧ True
  have third := multiplier_eq_field fc k.extended (short rfl) w
  simp [constantPlaces, ignored]
  grind

private theorem inverse_boBi : Inverse op k pc w .boBi := by
  rintro - ⟨bo, bi, ⟨⟩⟩
  show (Format.x op _ bo bi 0 _ k.low).mapError Fault.encoding = .ok w ↔
    _ ∧ w &&& 0x0000F800#32 = _ ∧ bo = w.unsigned 21 5 ∧ bi = w.unsigned 16 5 ∧ True
  have unused := and_masks_eq_zero_iff w [⟨11, 5, 0⟩] (by simp) (by simp) (by simp)
  simp [constantPlaces, masks, Placed.mask] at unused ⊢
  grind

private theorem inverse_raRsShMbMe : Inverse op k pc w .raRsShMbMe := by
  rintro ⟨-, -, -, -, narrow, -⟩ ⟨ra, rs, sh, mb, me, ⟨⟩⟩
  have primary : Int64.ofNat k.primary = 21 := congrArg Int64.ofNat (narrow rfl)
  show (Format.rotate op (Int64.ofNat k.primary) rs.code ra.code sh mb me k.low).mapError
      Fault.encoding = .ok w ↔
    _ ∧ _ ∧ ra = .ofCode (w.unsigned 16 5) ∧ rs = .ofCode (w.unsigned 21 5) ∧
      sh = w.unsigned 11 5 ∧ mb = w.unsigned 6 5 ∧ me = w.unsigned 1 5 ∧ True
  rw [Format.rotate, if_pos primary]
  simp [constantPlaces, ignored]
  grind

private theorem inverse_raRsShBound : Inverse op k pc w .raRsShBound := by
  rintro ⟨-, -, -, -, -, wide⟩ ⟨ra, rs, sh, bound, ⟨⟩⟩
  have primary : Int64.ofNat k.primary = 30 := congrArg Int64.ofNat (wide rfl)
  show (Format.rotate op (Int64.ofNat k.primary) rs.code ra.code sh bound _ k.low).mapError
      Fault.encoding = .ok w ↔
    _ ∧ _ ∧ ra = .ofCode (w.unsigned 16 5) ∧ rs = .ofCode (w.unsigned 21 5) ∧
      sh = w.unsigned 11 5 + 32 * w.unsigned 1 1 ∧
      bound = w.unsigned 6 5 + 32 * w.unsigned 5 1 ∧ True
  rw [Format.rotate, if_neg (by rw [primary]; decide), if_pos primary]
  simp [constantPlaces, ignored]
  grind

private theorem inverse_raRsShift32 : Inverse op k pc w .raRsShift32 := by
  rintro - ⟨ra, rs, n, ⟨⟩⟩
  show (Layout.checkShift op n 31 >>= fun _ =>
      Format.x op _ rs.code ra.code n _ k.low).mapError Fault.encoding = .ok w ↔
    _ ∧ _ ∧ ra = .ofCode (w.unsigned 16 5) ∧ rs = .ofCode (w.unsigned 21 5) ∧
      n = w.unsigned 11 5 ∧ True
  have bound := field_bound w 11 5 (by decide)
  simp [constantPlaces, ignored, bind_eq_ok_iff, checkShift_eq_ok_iff]
  grind

private theorem inverse_raRsShift64 : Inverse op k pc w .raRsShift64 := by
  rintro ⟨-, -, even, -⟩ ⟨ra, rs, n, ⟨⟩⟩
  show (Layout.checkShift op n 63 >>= fun _ =>
      Format.x op _ rs.code ra.code (n &&& 0x1F) (_ ||| n >>> 5) k.low).mapError
        Fault.encoding = .ok w ↔
    _ ∧ _ ∧ ra = .ofCode (w.unsigned 16 5) ∧ rs = .ofCode (w.unsigned 21 5) ∧
      n = w.unsigned 11 5 + 32 * w.unsigned 1 1 ∧ True
  have amount := shift_eq_fields n k.extended (even rfl).2 (even rfl).1 w
  simp [constantPlaces, ignored, bind_eq_ok_iff, checkShift_eq_ok_iff]
  grind

private theorem inverse_rtSpr : Inverse op k pc w .rtSpr := by
  rintro - ⟨rt, spr, ⟨⟩⟩
  show (Format.x op _ rt.code (spr.code &&& 0x1F) (spr.code >>> 5) _ k.low).mapError
      Fault.encoding = .ok w ↔
    _ ∧ _ ∧ rt = .ofCode (w.unsigned 21 5) ∧ spr = Layout.fieldSpr w ∧ True
  rw [← spr_eq_fields]
  simp [constantPlaces, ignored]
  grind

private theorem inverse_sprRs : Inverse op k pc w .sprRs := by
  rintro - ⟨spr, rs, ⟨⟩⟩
  show (Format.x op _ rs.code (spr.code &&& 0x1F) (spr.code >>> 5) _ k.low).mapError
      Fault.encoding = .ok w ↔
    _ ∧ _ ∧ spr = Layout.fieldSpr w ∧ rs = .ofCode (w.unsigned 21 5) ∧ True
  rw [← spr_eq_fields]
  simp [constantPlaces, ignored]
  grind

private theorem inverse_maskRs : Inverse op k pc w .maskRs := by
  rintro - ⟨mask, rs, ⟨⟩⟩
  show (if fitsUnsigned mask 8 then
        Format.x op _ rs.code (mask >>> 4) ((mask &&& 0xF) * 2) _ k.low
      else .error _).mapError Fault.encoding = .ok w ↔
    _ ∧ w &&& 0x00100800#32 = _ ∧ mask = w.unsigned 12 8 ∧ rs = .ofCode (w.unsigned 21 5) ∧ True
  have fields := mask_eq_fields mask w
  have unused := and_masks_eq_zero_iff w [⟨20, 1, 0⟩, ⟨11, 1, 0⟩] (by simp)
    (by simp [Placed.Apart]) (by simp)
  simp [constantPlaces, masks, Placed.mask] at unused ⊢
  grind

private theorem sub_eq_zero_add_iff (dest source way : Int64) :
    dest - source = 0 + way ↔ dest = source + way := by
  rw [Int64.zero_add, Int64.sub_eq_iff_eq_add, Int64.add_comm]

private theorem zero_eq_field (position : Nat) :
    0 = w.unsigned position 1 ↔ w.bit position = false := by
  exact (flag_eq_field w position false).trans eq_comm

private theorem target_iff (source way : Int64) (bits : Nat) (positive : 0 < bits)
    (short : bits ≤ 24) :
    (∃ d, branchDisplacement source way bits = .ok d ∧ d = w.signed 2 bits) ↔
      way = source + Layout.displacement w bits := by
  have fits : fitsSigned (w.signed 2 bits) bits = true :=
    ((eq_signed_iff w _ 2 bits positive (by omega)).mpr rfl).1
  constructor
  · rintro ⟨d, found, rfl⟩
    exact ((branchDisplacement_eq_ok_iff source way bits positive (by omega) _).mp found).2.symm
  · intro same
    exact ⟨_, (branchDisplacement_eq_ok_iff source way bits positive (by omega) _).mpr
      ⟨fits, same.symm⟩, rfl⟩

private theorem inverse_target : Inverse op k pc w .target := by
  rintro - ⟨dest, ⟨⟩⟩
  show ((branchDisplacement 0 (dest - pc) 24 >>= fun d => .ok (d, ())).mapError
      Fault.branchRange >>= fun args : Int64 × Unit =>
        (Format.i op _ args.1 false k.low).mapError Fault.encoding) = .ok w ↔
    _ ∧ _ ∧ dest = pc + Layout.displacement w 24 ∧ True
  have reached := target_iff w 0 (dest - pc) 24 (by decide) (by decide)
  have moved := sub_eq_zero_add_iff dest pc (Layout.displacement w 24)
  simp [constantPlaces, ignored, bind_eq_ok_iff, zero_eq_field]
  grind

private theorem inverse_boBiTarget : Inverse op k pc w .boBiTarget := by
  rintro - ⟨bo, bi, dest, ⟨⟩⟩
  show ((branchDisplacement 0 (dest - pc) 14 >>= fun d => .ok (bo, bi, d, ())).mapError
      Fault.branchRange >>= fun args : Int64 × Int64 × Int64 × Unit =>
        (Format.b op _ args.1 args.2.1 args.2.2.1 false k.low).mapError Fault.encoding) = .ok w ↔
    _ ∧ _ ∧ bo = w.unsigned 21 5 ∧ bi = w.unsigned 16 5 ∧
      dest = pc + Layout.displacement w 14 ∧ True
  have reached := target_iff w 0 (dest - pc) 14 (by decide) (by decide)
  have moved := sub_eq_zero_add_iff dest pc (Layout.displacement w 14)
  simp [constantPlaces, ignored, bind_eq_ok_iff, zero_eq_field]
  grind

private theorem inverse_boBiTargetWide : Inverse op k pc w .boBiTargetWide := by
  rintro - ⟨bo, bi, dest, ⟨⟩⟩
  show ((branchDisplacement pc dest 14 >>= fun d => .ok (bo, bi, d, ())).mapError
      Fault.branchRange >>= fun args : Int64 × Int64 × Int64 × Unit =>
        (Format.b op _ args.1 args.2.1 args.2.2.1 false k.low).mapError Fault.encoding) = .ok w ↔
    _ ∧ _ ∧ bo = w.unsigned 21 5 ∧ bi = w.unsigned 16 5 ∧
      dest = pc + Layout.displacement w 14 ∧ True
  have reached := target_iff w pc dest 14 (by decide) (by decide)
  simp [constantPlaces, ignored, bind_eq_ok_iff, zero_eq_field]
  grind

end Encode

/-- A layout makes the word `w` of some operands exactly when `w` has the constants of the
layout and nothing in its unused bits, and the operands are those that are read from it. -/
theorem encode_eq_ok_iff {l : Layout} {k : Constants} (admits : Admits l k) (op : String)
    (pc : Int64) (args : Args l.operands) (w : Word) :
    l.encode op k pc args = .ok w ↔
      w &&& l.mask = l.value k ∧ w &&& ignored l = 0#32 ∧
        ArgsAgree (signedHalf l) l.operands args (l.read w pc) := by
  rw [isWord_iff admits]
  cases l with
  | nothing =>
    cases args
    show (Format.x op _ 0 0 0 _ k.low).mapError Fault.encoding = .ok w ↔ _ ∧ _ ∧ True
    simp [constantPlaces, ignored]
  | rtRaSi =>
    obtain ⟨rt, ra, si, ⟨⟩⟩ := args
    show (Format.d op _ rt.code ra.code si true).mapError Fault.encoding = .ok w ↔
      _ ∧ _ ∧ rt = .ofCode (w.unsigned 21 5) ∧ ra = .ofCode (w.unsigned 16 5) ∧
        SameHalf si (w.signed 0 16) ∧ True
    simp [constantPlaces, ignored]
  | raRsUi =>
    obtain ⟨ra, rs, ui, ⟨⟩⟩ := args
    show (Format.d op _ rs.code ra.code ui false).mapError Fault.encoding = .ok w ↔
      _ ∧ _ ∧ ra = .ofCode (w.unsigned 16 5) ∧ rs = .ofCode (w.unsigned 21 5) ∧
        ui = w.unsigned 0 16 ∧ True
    simp [constantPlaces, ignored]
    grind
  | rtRaRb =>
    obtain ⟨rt, ra, rb, ⟨⟩⟩ := args
    show (Format.x op _ rt.code ra.code rb.code _ k.low).mapError Fault.encoding = .ok w ↔
      _ ∧ _ ∧ rt = .ofCode (w.unsigned 21 5) ∧ ra = .ofCode (w.unsigned 16 5) ∧
        rb = .ofCode (w.unsigned 11 5) ∧ True
    simp [constantPlaces, ignored]
    grind
  | rtRaRbWide =>
    obtain ⟨rt, ra, rb, ⟨⟩⟩ := args
    show (Format.x op _ rt ra rb _ k.low).mapError Fault.encoding = .ok w ↔
      _ ∧ _ ∧ rt = w.unsigned 21 5 ∧ ra = w.unsigned 16 5 ∧ rb = w.unsigned 11 5 ∧ True
    simp [constantPlaces, ignored]
    grind
  | raRsRb =>
    obtain ⟨ra, rs, rb, ⟨⟩⟩ := args
    show (Format.x op _ rs.code ra.code rb.code _ k.low).mapError Fault.encoding = .ok w ↔
      _ ∧ _ ∧ ra = .ofCode (w.unsigned 16 5) ∧ rs = .ofCode (w.unsigned 21 5) ∧
        rb = .ofCode (w.unsigned 11 5) ∧ True
    simp [constantPlaces, ignored]
    grind
  | rtRa =>
    obtain ⟨rt, ra, ⟨⟩⟩ := args
    show (Format.x op _ rt.code ra.code 0 _ k.low).mapError Fault.encoding = .ok w ↔
      _ ∧ _ ∧ rt = .ofCode (w.unsigned 21 5) ∧ ra = .ofCode (w.unsigned 16 5) ∧ True
    simp [constantPlaces, ignored]
    grind
  | raRs =>
    obtain ⟨ra, rs, ⟨⟩⟩ := args
    show (Format.x op _ rs.code ra.code 0 _ k.low).mapError Fault.encoding = .ok w ↔
      _ ∧ _ ∧ ra = .ofCode (w.unsigned 16 5) ∧ rs = .ofCode (w.unsigned 21 5) ∧ True
    simp [constantPlaces, ignored]
    grind
  | rtOnly =>
    obtain ⟨rt, ⟨⟩⟩ := args
    show (Format.x op _ rt.code 0 0 _ k.low).mapError Fault.encoding = .ok w ↔
      _ ∧ _ ∧ rt = .ofCode (w.unsigned 21 5) ∧ True
    simp [constantPlaces, ignored]
    grind
  | rtMem =>
    obtain ⟨rt, a, ⟨⟩⟩ := args
    show (Format.d op _ rt.code a.base.code a.displacement true).mapError Fault.encoding = .ok w ↔
      _ ∧ _ ∧ rt = .ofCode (w.unsigned 21 5) ∧
        (a.base = .ofCode (w.unsigned 16 5) ∧ SameHalf a.displacement (w.signed 0 16)) ∧ True
    simp [constantPlaces, ignored]
  | ftMem =>
    obtain ⟨ft, a, ⟨⟩⟩ := args
    show (Format.d op _ ft.code a.base.code a.displacement true).mapError Fault.encoding = .ok w ↔
      _ ∧ _ ∧ ft = .ofCode (w.unsigned 21 5) ∧
        (a.base = .ofCode (w.unsigned 16 5) ∧ SameHalf a.displacement (w.signed 0 16)) ∧ True
    simp [constantPlaces, ignored]
  | rtMemWords =>
    obtain ⟨rt, a, ⟨⟩⟩ := args
    show (Format.ds op _ rt.code a.base.code a.displacement _).mapError Fault.encoding = .ok w ↔
      _ ∧ _ ∧ rt = .ofCode (w.unsigned 21 5) ∧
        (a.base = .ofCode (w.unsigned 16 5) ∧ SameHalf a.displacement (Layout.displacement w 14)) ∧ True
    simp [constantPlaces, ignored]
    grind
  | ftRaRb =>
    obtain ⟨ft, ra, rb, ⟨⟩⟩ := args
    show (Format.x op _ ft.code ra.code rb.code _ k.low).mapError Fault.encoding = .ok w ↔
      _ ∧ _ ∧ ft = .ofCode (w.unsigned 21 5) ∧ ra = .ofCode (w.unsigned 16 5) ∧
        rb = .ofCode (w.unsigned 11 5) ∧ True
    simp [constantPlaces, ignored]
    grind
  | ftFaFb =>
    obtain ⟨ft, fa, fb, ⟨⟩⟩ := args
    show (Format.x op _ ft.code fa.code fb.code _ k.low).mapError Fault.encoding = .ok w ↔
      _ ∧ _ ∧ ft = .ofCode (w.unsigned 21 5) ∧ fa = .ofCode (w.unsigned 16 5) ∧
        fb = .ofCode (w.unsigned 11 5) ∧ True
    simp [constantPlaces, ignored]
    grind
  | ftFb =>
    obtain ⟨ft, fb, ⟨⟩⟩ := args
    show (Format.x op _ ft.code 0 fb.code _ k.low).mapError Fault.encoding = .ok w ↔
      _ ∧ _ ∧ ft = .ofCode (w.unsigned 21 5) ∧ fb = .ofCode (w.unsigned 11 5) ∧ True
    simp [constantPlaces, ignored]
    grind
  | crRaRb =>
    obtain ⟨cr, ra, rb, ⟨⟩⟩ := args
    show (Format.x op _ (Layout.comparison cr _) ra.code rb.code _ k.low).mapError Fault.encoding = .ok w ↔
      _ ∧ _ ∧ cr = .ofCode (w.unsigned 23 3) ∧ ra = .ofCode (w.unsigned 16 5) ∧
        rb = .ofCode (w.unsigned 11 5) ∧ True
    simp [constantPlaces, ignored]
    grind
  | crRaSi =>
    obtain ⟨cr, ra, si, ⟨⟩⟩ := args
    show (Format.d op _ (Layout.comparison cr _) ra.code si true).mapError Fault.encoding = .ok w ↔
      _ ∧ _ ∧ cr = .ofCode (w.unsigned 23 3) ∧ ra = .ofCode (w.unsigned 16 5) ∧
        SameHalf si (w.signed 0 16) ∧ True
    simp [constantPlaces, ignored]
    grind
  | crRaUi =>
    obtain ⟨cr, ra, ui, ⟨⟩⟩ := args
    show (Format.d op _ (Layout.comparison cr _) ra.code ui false).mapError Fault.encoding = .ok w ↔
      _ ∧ _ ∧ cr = .ofCode (w.unsigned 23 3) ∧ ra = .ofCode (w.unsigned 16 5) ∧
        ui = w.unsigned 0 16 ∧ True
    simp [constantPlaces, ignored]
    grind
  | crFaFb =>
    obtain ⟨cr, fa, fb, ⟨⟩⟩ := args
    show (Format.x op _ (Layout.comparison cr _) fa.code fb.code _ k.low).mapError Fault.encoding = .ok w ↔
      _ ∧ _ ∧ cr = .ofCode (w.unsigned 23 3) ∧ fa = .ofCode (w.unsigned 16 5) ∧
        fb = .ofCode (w.unsigned 11 5) ∧ True
    simp [constantPlaces, ignored]
    grind
  | toRaRb =>
    obtain ⟨option, ra, rb, ⟨⟩⟩ := args
    show (Format.x op _ option ra.code rb.code _ k.low).mapError Fault.encoding = .ok w ↔
      _ ∧ _ ∧ option = w.unsigned 21 5 ∧ ra = .ofCode (w.unsigned 16 5) ∧
        rb = .ofCode (w.unsigned 11 5) ∧ True
    simp [constantPlaces, ignored]
    grind
  | ftFaFc => exact inverse_ftFaFc op k pc w admits args
  | boBi => exact inverse_boBi op k pc w admits args
  | raRsShMbMe => exact inverse_raRsShMbMe op k pc w admits args
  | raRsShBound => exact inverse_raRsShBound op k pc w admits args
  | raRsShift32 => exact inverse_raRsShift32 op k pc w admits args
  | raRsShift64 => exact inverse_raRsShift64 op k pc w admits args
  | rtSpr => exact inverse_rtSpr op k pc w admits args
  | sprRs => exact inverse_sprRs op k pc w admits args
  | maskRs => exact inverse_maskRs op k pc w admits args
  | target => exact inverse_target op k pc w admits args
  | boBiTarget => exact inverse_boBiTarget op k pc w admits args
  | boBiTargetWide => exact inverse_boBiTargetWide op k pc w admits args

end PowerAsm.Proofs.Layouts
