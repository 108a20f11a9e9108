import PowerAsm.Frame.Layout
import PowerAsm.Proofs.Layouts

/-! Frames as requests make them. Whatever is asked for, in any order, the registers and
condition fields handed out are those that the frame saves, and the save areas follow one
another from the end of the locals to the end of the frame. -/
namespace PowerAsm.Proofs.FrameLayout
open PowerAsm.Frame Layouts

/-- What a frame hands out. -/
inductive Grant where
  | slot (a : Address)
  | field (c : CrField)
  | gpr (r : Gpr)
  | fpr (f : Fpr)
  | volatiles
deriving DecidableEq

/-- Puts one request to a frame. -/
def grant (f : Frame) : Request → Except Misuse (Grant × Frame)
  | .parameterSlot => do
    let (a, f) ← f.parameterSlot
    return (.slot a, f)
  | .localSlot => do
    let (a, f) ← f.localSlot
    return (.slot a, f)
  | .conditionField => do
    let (c, f) ← f.conditionField
    return (.field c, f)
  | .generalRegister => do
    let (r, f) ← f.generalRegister
    return (.gpr r, f)
  | .floatRegister => do
    let (r, f) ← f.floatRegister
    return (.fpr r, f)
  | .volatileArea => do
    let (_, f) ← f.saveVolatiles
    return (.volatiles, f)

/-- Puts requests to a frame, one after the other. -/
def grantAll (f : Frame) : List Request → Except Misuse (List Grant × Frame)
  | [] => return ([], f)
  | r :: rest => do
    let (g, f) ← grant f r
    let (gs, f) ← grantAll f rest
    return (g :: gs, f)

/-- The condition fields of the frame, the highest first. -/
def savedFields (f : Frame) : List CrField :=
  (List.range f.crFields).map fun i => ⟨Int8.ofNat (4 - i)⟩

/-- A frame that is still open and saves what it has handed out. -/
structure Built (target : Target) (gs : List Grant) (f : Frame) : Prop where
  target : f.target = target
  unfrozen : f.frozen = false
  gprs : f.gprs ≤ maxGprs
  fprs : f.fprs ≤ maxFprs
  crFields : f.crFields ≤ maxCrFields
  mem_gpr : ∀ r, .gpr r ∈ gs ↔ r ∈ f.savedGprs
  mem_fpr : ∀ r, .fpr r ∈ gs ↔ r ∈ f.savedFprs
  mem_field : ∀ c, .field c ∈ gs ↔ c ∈ savedFields f
  mem_volatiles : .volatiles ∈ gs ↔ f.preserveVolatiles = true

theorem built_empty (target : Target) : Built target [] (.empty target) := by
  constructor <;> simp [empty, savedGprs, savedFprs, savedFields]

private theorem highest_first {α : Type} (register : Int8 → α) {n : Nat} (few : n < 32) :
    ((List.range (n + 1)).map fun i => register (Int8.ofNat (32 - (n + 1) + i))) =
      register (Int8.ofNat (31 - n)) ::
        (List.range n).map fun i => register (Int8.ofNat (32 - n + i)) := by
  have head : 32 - (n + 1) = 31 - n := by omega
  have tail (i : Nat) : 31 - n + (i + 1) = 32 - n + i := by omega
  rw [List.range_succ_eq_map, List.map_cons, List.map_map, Nat.add_zero, head]
  simp only [Function.comp_def, Nat.succ_eq_add_one, tail]

/-- What a request does to an open frame if it is granted. -/
theorem grant_cases {f f' : Frame} (unfrozen : f.frozen = false) {r : Request} {g : Grant}
    (granted : grant f r = .ok (g, f')) :
    (f.locals = 0 ∧ g = .slot (f.slot (f.target.linkAreaWords + f.params)) ∧
        f' = { f with params := f.params + 1 }) ∨
      (g = .slot (f.slot (f.target.linkAreaWords + f.paramWords + f.locals)) ∧
        f' = { f with params := f.paramWords, locals := f.locals + 1 }) ∨
      (f.crFields < maxCrFields ∧ g = .field ⟨Int8.ofNat (4 - f.crFields)⟩ ∧
        f' = { f with crFields := f.crFields + 1 }) ∨
      (f.gprs < maxGprs ∧ g = .gpr ⟨Int8.ofNat (31 - f.gprs)⟩ ∧
        f' = { f with gprs := f.gprs + 1 }) ∨
      (f.fprs < maxFprs ∧ g = .fpr ⟨Int8.ofNat (31 - f.fprs)⟩ ∧
        f' = { f with fprs := f.fprs + 1 }) ∨
      g = .volatiles ∧ f' = { f with preserveVolatiles := true } := by
  have allowed (request : Request) : f.checkOpen request = .ok () := by
    rw [checkOpen, unfrozen]
    rfl
  cases r with
  | parameterSlot =>
    by_cases late : 0 < f.locals
    · simp only [grant, parameterSlot, allowed, if_pos late] at granted
      cases granted
    · simp only [grant, parameterSlot, allowed, if_neg late] at granted
      cases granted
      exact .inl ⟨Nat.eq_zero_of_not_pos late, rfl, rfl⟩
  | localSlot =>
    simp only [grant, localSlot, allowed] at granted
    cases granted
    exact .inr (.inl ⟨rfl, rfl⟩)
  | conditionField =>
    by_cases full : maxCrFields ≤ f.crFields
    · simp only [grant, conditionField, allowed, if_pos full] at granted
      cases granted
    · simp only [grant, conditionField, allowed, if_neg full] at granted
      cases granted
      exact .inr (.inr (.inl ⟨Nat.lt_of_not_le full, rfl, rfl⟩))
  | generalRegister =>
    by_cases full : maxGprs ≤ f.gprs
    · simp only [grant, generalRegister, allowed, if_pos full] at granted
      cases granted
    · simp only [grant, generalRegister, allowed, if_neg full] at granted
      cases granted
      exact .inr (.inr (.inr (.inl ⟨Nat.lt_of_not_le full, rfl, rfl⟩)))
  | floatRegister =>
    by_cases full : maxFprs ≤ f.fprs
    · simp only [grant, floatRegister, allowed, if_pos full] at granted
      cases granted
    · simp only [grant, floatRegister, allowed, if_neg full] at granted
      cases granted
      exact .inr (.inr (.inr (.inr (.inl ⟨Nat.lt_of_not_le full, rfl, rfl⟩))))
  | volatileArea =>
    simp only [grant, saveVolatiles, allowed] at granted
    cases granted
    exact .inr (.inr (.inr (.inr (.inr ⟨rfl, rfl⟩))))

private theorem mem_cons_other {g h : Grant} {gs : List Grant} {held : Prop} (other : h ≠ g)
    (known : h ∈ gs ↔ held) : h ∈ g :: gs ↔ held :=
  List.mem_cons.trans ((or_iff_right other).trans known)

/-- A request that is granted adds what was granted to what the frame saves. -/
theorem Built.grant {target : Target} {gs : List Grant} {f f' : Frame} (built : Built target gs f)
    {r : Request} {g : Grant} (granted : FrameLayout.grant f r = .ok (g, f')) :
    Built target (g :: gs) f' := by
  have slot (a : Address) (params locals : Nat) :
      Built target (.slot a :: gs) { f with params, locals } :=
    { built with
      mem_gpr := fun r => mem_cons_other nofun (built.mem_gpr r)
      mem_fpr := fun r => mem_cons_other nofun (built.mem_fpr r)
      mem_field := fun c => mem_cons_other nofun (built.mem_field c)
      mem_volatiles := mem_cons_other nofun built.mem_volatiles }
  obtain ⟨-, rfl, rfl⟩ | ⟨rfl, rfl⟩ | ⟨few, rfl, rfl⟩ | ⟨few, rfl, rfl⟩ | ⟨few, rfl, rfl⟩ |
    ⟨rfl, rfl⟩ := grant_cases built.unfrozen granted
  · exact slot _ _ _
  · exact slot _ _ _
  · exact { built with
      crFields := few
      mem_gpr := fun r => mem_cons_other nofun (built.mem_gpr r)
      mem_fpr := fun r => mem_cons_other nofun (built.mem_fpr r)
      mem_field := fun c => by
        rw [List.mem_cons, built.mem_field c, savedFields, savedFields, List.range_succ,
          List.map_append, List.mem_append, List.map_singleton, List.mem_singleton,
          Grant.field.injEq, or_comm]
      mem_volatiles := mem_cons_other nofun built.mem_volatiles }
  · have saved : savedGprs { f with gprs := f.gprs + 1 } =
        ⟨Int8.ofNat (31 - f.gprs)⟩ :: f.savedGprs :=
      highest_first Gpr.mk (Nat.lt_trans few (by decide))
    exact { built with
      gprs := few
      mem_gpr := fun r => by
        rw [List.mem_cons, built.mem_gpr r, saved, List.mem_cons, Grant.gpr.injEq]
      mem_fpr := fun r => mem_cons_other nofun (built.mem_fpr r)
      mem_field := fun c => mem_cons_other nofun (built.mem_field c)
      mem_volatiles := mem_cons_other nofun built.mem_volatiles }
  · have saved : savedFprs { f with fprs := f.fprs + 1 } =
        ⟨Int8.ofNat (31 - f.fprs)⟩ :: f.savedFprs :=
      highest_first Fpr.mk (Nat.lt_trans few (by decide))
    exact { built with
      fprs := few
      mem_gpr := fun r => mem_cons_other nofun (built.mem_gpr r)
      mem_fpr := fun r => by
        rw [List.mem_cons, built.mem_fpr r, saved, List.mem_cons, Grant.fpr.injEq]
      mem_field := fun c => mem_cons_other nofun (built.mem_field c)
      mem_volatiles := mem_cons_other nofun built.mem_volatiles }
  · exact { built with
      mem_gpr := fun r => mem_cons_other nofun (built.mem_gpr r)
      mem_fpr := fun r => mem_cons_other nofun (built.mem_fpr r)
      mem_field := fun c => mem_cons_other nofun (built.mem_field c)
      mem_volatiles := by simp }

theorem Built.perm {target : Target} {gs gs' : List Grant} {f : Frame} (built : Built target gs f)
    (same : ∀ g, g ∈ gs' ↔ g ∈ gs) : Built target gs' f :=
  { built with
    mem_gpr := fun r => (same _).trans (built.mem_gpr r)
    mem_fpr := fun r => (same _).trans (built.mem_fpr r)
    mem_field := fun c => (same _).trans (built.mem_field c)
    mem_volatiles := (same _).trans built.mem_volatiles }

/-- Requests that are all granted, whatever was granted before. -/
theorem Built.grantAll {target : Target} {before gs : List Grant} {f f' : Frame}
    (built : Built target before f) {requests : List Request}
    (granted : FrameLayout.grantAll f requests = .ok (gs, f')) : Built target (before ++ gs) f' := by
  induction requests generalizing before gs f with
  | nil =>
    cases granted
    rwa [List.append_nil]
  | cons r rest ih =>
    rw [FrameLayout.grantAll] at granted
    obtain ⟨⟨g, next⟩, first, granted⟩ := bind_eq_ok_iff.mp granted
    obtain ⟨⟨later, last⟩, others, granted⟩ := bind_eq_ok_iff.mp granted
    cases granted
    refine (ih (built.grant first) others).perm fun h => ?_
    simp only [List.mem_append, List.mem_cons]
    exact or_left_comm.trans or_assoc.symm

section Areas
variable (f : Frame)

/-- Where the save areas start. -/
def areaStart : Nat :=
  (f.target.linkAreaWords + f.paramWords + f.locals) * f.target.wordSize + f.padding

def volatileGprStart : Nat := areaStart f + f.target.wordSize

def ctrStart : Nat := volatileGprStart f + volatileGprs * f.target.wordSize

def volatileFprStart : Nat := ctrStart f + f.target.wordSize

/-- Where the areas behind those of the volatile registers start. -/
def fixedStart : Nat :=
  if f.preserveVolatiles then volatileFprStart f + volatileFprs * fprSize else areaStart f

/-- Where the condition register is saved: in the frame, or behind it. -/
def crStart : Nat :=
  match f.target.crSaveWord? with
  | none => fixedStart f
  | some index => f.size + index * f.target.wordSize

def gprStart : Nat := fixedStart f + f.crWords * f.target.wordSize

def fprStart : Nat := gprStart f + f.gprs * f.target.wordSize

/-- Where the return address is saved, behind the frame. -/
def lrStart : Nat := f.size + f.target.lrSaveOffset

theorem saveAreas_eq : f.saveAreas =
    { r0 := Int64.ofNat (areaStart f)
      volatileGprs := Int64.ofNat (volatileGprStart f)
      ctr := Int64.ofNat (ctrStart f)
      volatileFprs := Int64.ofNat (volatileFprStart f)
      cr := Int64.ofNat (crStart f)
      gprs := Int64.ofNat (gprStart f)
      fprs := Int64.ofNat (fprStart f)
      finish := Int64.ofNat (fprStart f + f.fprs * fprSize) } := by
  rw [saveAreas, crStart]
  cases f.target.crSaveWord? <;> rfl

/-- The save areas end where the frame ends. -/
theorem areas_end : fprStart f + f.fprs * fprSize = f.size := by
  obtain ⟨target, params, locals, crFields, gprs, fprs, volatiles, frozen⟩ := f
  cases target <;> cases volatiles <;>
    simp only [fprStart, gprStart, fixedStart, volatileFprStart, ctrStart, volatileGprStart,
      areaStart, size, unalignedSize, volatileWords, fprWords, fprSize, Target.wordSize,
      Frame.volatileGprs, volatileFprs, Bool.false_eq_true, if_false, if_true] <;>
    omega

/-- How the areas lie: behind the link area, each behind the one before it, and what is saved
in the frame of the caller behind all of them. All are multiples of four. -/
structure Geometry : Prop where
  chain : f.target.wordSize ≤ areaStart f
  fixed : areaStart f ≤ fixedStart f
  gprs : fixedStart f ≤ gprStart f
  cr : 0 < f.crFields → fixedStart f ≤ crStart f ∧ crStart f + 4 ≤ gprStart f ∨
    f.size ≤ crStart f ∧ crStart f + 4 ≤ lrStart f
  lr : f.size ≤ lrStart f ∧ lrStart f ≤ f.size + 16
  word : f.target.wordSize = 4 ∨ f.target.wordSize = 8
  size_aligned : f.size % 16 = 0
  aligned : areaStart f % 4 = 0
  gpr_aligned : gprStart f % 4 = 0
  cr_aligned : crStart f % 4 = 0
  lr_aligned : lrStart f % 4 = 0

theorem size_aligned : f.size % 16 = 0 := by
  rw [size, padding]
  simp only [Target.stackAlignment]
  omega

private theorem word_cases (t : Target) :
    t.wordSize = 4 ∧ t.crSaveWord? = none ∧ t.lrSaveOffset = 4 ∧ 2 ≤ t.linkAreaWords ∨
      t.wordSize = 8 ∧ t.crSaveWord? = some 1 ∧ t.lrSaveOffset = 16 ∧ 2 ≤ t.linkAreaWords := by
  cases t <;> simp [Target.wordSize, Target.crSaveWord?, Target.lrSaveOffset, Target.linkAreaWords]

theorem geometry : Geometry f := by
  have whole := size_aligned f
  have gap : f.padding = (16 - f.unalignedSize % 16) % 16 := rfl
  have sum : f.size = f.unalignedSize + f.padding := rfl
  have used : ∃ words, f.unalignedSize = words * f.target.wordSize := ⟨_, rfl⟩
  have first : areaStart f =
    (f.target.linkAreaWords + f.paramWords + f.locals) * f.target.wordSize + f.padding := rfl
  have behind : fixedStart f = areaStart f ∨
      fixedStart f = areaStart f + 12 * f.target.wordSize + 112 := by
    rw [fixedStart]
    split
    · right
      simp only [volatileFprStart, ctrStart, volatileGprStart, Frame.volatileGprs, volatileFprs,
        fprSize]
      omega
    · exact .inl rfl
  obtain ⟨words, used⟩ := used
  have third : gprStart f = fixedStart f + f.crWords * f.target.wordSize := rfl
  have link : lrStart f = f.size + f.target.lrSaveOffset := rfl
  obtain ⟨word, saved, offset, area⟩ | ⟨word, saved, offset, area⟩ := word_cases f.target
  · have own : crStart f = fixedStart f := by
      rw [crStart, saved]
    rw [word] at used first behind third
    have one : 0 < f.crFields → f.crWords = 1 := by
      intro some
      rw [crWords, saved, if_pos ⟨some, rfl⟩]
    constructor <;> omega
  · have own : crStart f = f.size + 8 := by
      rw [crStart, saved, word]
    rw [word] at used first behind third
    constructor <;> omega

end Areas

end PowerAsm.Proofs.FrameLayout
