import PowerAsm.Frame.Prolog
import PowerAsm.Proofs.Emission
import PowerAsm.Proofs.FrameLayout

/-! The instructions of prologs and epilogs. A frame is written as the instructions listed here, one
by one, as far as they have words; one that is small enough for its offsets has them all. -/
namespace PowerAsm.Proofs.FrameCode
open PowerAsm.Frame Emission FrameLayout Forms

/-- An address in the frame, by its distance from the stack pointer. -/
def stack (o : Nat) : Address := .onStack (Int64.ofNat o)

def loadWord (t : Target) (r : Gpr) (a : Address) : Instr :=
  t.choose ⟨.lwz, (r, a, ())⟩ ⟨.ld, (r, a, ())⟩

def storeWord (t : Target) (r : Gpr) (a : Address) : Instr :=
  t.choose ⟨.stw, (r, a, ())⟩ ⟨.std, (r, a, ())⟩

def updateWord (t : Target) (r : Gpr) (a : Address) : Instr :=
  t.choose ⟨.stwu, (r, a, ())⟩ ⟨.stdu, (r, a, ())⟩

/-- An address that every access to a word can name. -/
def Reachable (a : Address) : Prop :=
  a.base.isValid = true ∧ fitsSigned a.displacement 16 = true ∧ a.displacement.toInt % 4 = 0

theorem reachable_stack {o : Nat} (small : o < 2 ^ 15) (aligned : o % 4 = 0) :
    Reachable (stack o) := by
  have value : (Int64.ofNat o).toInt = o := Int64.toInt_ofNat_of_lt (by omega)
  refine ⟨rfl, ?_, ?_⟩
  · rw [fitsSigned_iff (by decide) (by decide)]
    show _ ≤ (Int64.ofNat o).toInt ∧ (Int64.ofNat o).toInt < _
    omega
  · show (Int64.ofNat o).toInt % 4 = 0
    omega

section Words
variable {t : Target} {r : Gpr} {a : Address}

theorem writes_load : Writes t (Asm.load r a) [loadWord t r a] := by
  apply writes_sized
  cases t <;> exact writes_instr _ _

theorem writes_store : Writes t (Asm.store r a) [storeWord t r a] := by
  apply writes_sized
  cases t <;> exact writes_instr _ _

theorem writes_storeUpdate : Writes t (Asm.storeUpdate r a) [updateWord t r a] := by
  apply writes_sized
  cases t <;> exact writes_instr _ _

variable (valid : r.isValid = true) (reachable : Reachable a)
include valid reachable

theorem fits_loadWord : OperandsFit (loadWord t r a) := by
  obtain ⟨base, fits, aligned⟩ := reachable
  cases t with
  | ppc32 => exact ⟨valid, base, fits⟩
  | ppc64 => exact ⟨valid, base, fits, aligned⟩

theorem fits_storeWord : OperandsFit (storeWord t r a) := by
  obtain ⟨base, fits, aligned⟩ := reachable
  cases t with
  | ppc32 => exact ⟨valid, base, fits⟩
  | ppc64 => exact ⟨valid, base, fits, aligned⟩

theorem fits_updateWord : OperandsFit (updateWord t r a) := by
  obtain ⟨base, fits, aligned⟩ := reachable
  cases t with
  | ppc32 => exact ⟨valid, base, fits⟩
  | ppc64 => exact ⟨valid, base, fits, aligned⟩

end Words

/-- Registers with the distances that they are kept at. -/
def spots {α : Type} (size : Nat) : List α → Nat → List (α × Nat)
  | [], _ => []
  | r :: rest, o => (r, o) :: spots size rest (o + size)

theorem places_eq {α : Type} (registers : List α) (start size : Nat) :
    places registers (Int64.ofNat start) size =
      (spots size registers start).map fun (r, o) => (r, stack o) := by
  have shifted (k : Nat) : (registers.zipIdx k).map (fun (r, i) =>
        (r, Address.onStack (Int64.ofNat start + Int64.ofNat (i * size)))) =
      (spots size registers (start + k * size)).map fun (r, o) => (r, stack o) := by
    induction registers generalizing k with
    | nil => rfl
    | cons r rest ih =>
      have next : start + (k + 1) * size = start + k * size + size := by
        rw [Nat.add_mul, Nat.one_mul, Nat.add_assoc]
      rw [List.zipIdx_cons, List.map_cons, ih, next, spots, List.map_cons]
      simp only [stack, Int64.ofNat_add]
  have same := shifted 0
  rwa [Nat.zero_mul, Nat.add_zero] at same

theorem mem_spots {α : Type} {size start o : Nat} {registers : List α} {r : α}
    (member : (r, o) ∈ spots size registers start) :
    r ∈ registers ∧ start ≤ o ∧ o + size ≤ start + registers.length * size ∧
      (size % 4 = 0 → start % 4 = 0 → o % 4 = 0) := by
  induction registers generalizing start with
  | nil => cases member
  | cons first rest ih =>
    have length : (first :: rest).length * size = rest.length * size + size := by
      rw [List.length_cons, Nat.add_mul, Nat.one_mul]
    rw [length]
    obtain same | later := List.mem_cons.mp member
    · cases same
      exact ⟨List.mem_cons_self, by omega, by omega, fun _ aligned => aligned⟩
    · obtain ⟨known, above, below, aligned⟩ := ih later
      exact ⟨List.mem_cons_of_mem _ known, by omega, by omega,
        fun size start => aligned size (by omega)⟩

theorem registers_spots {α : Type} (size : Nat) (registers : List α) (start : Nat) :
    (spots size registers start).map Prod.fst = registers := by
  induction registers generalizing start with
  | nil => rfl
  | cons r rest ih => rw [spots, List.map_cons, ih]

section Code
variable (f : Frame)

def gprSpots : List (Gpr × Nat) := spots f.target.wordSize f.savedGprs (gprStart f)

def fprSpots : List (Fpr × Nat) := spots fprSize f.savedFprs (fprStart f)

def volatileGprSpots : List (Gpr × Nat) :=
  spots f.target.wordSize volatileGprList (volatileGprStart f)

def volatileFprSpots : List (Fpr × Nat) := spots fprSize volatileFprList (volatileFprStart f)

/-- The new place of the stack pointer, from the old one. -/
def below : Address := .onStack (-f.sizeOffset)

def moveFrom (spr : Spr) : Instr := ⟨.mfspr, (.r0, spr, ())⟩

def moveTo (spr : Spr) : Instr := ⟨.mtspr, (spr, .r0, ())⟩

def storeGprs (spots : List (Gpr × Nat)) : List Instr :=
  spots.map fun (r, o) => storeWord f.target r (stack o)

def storeFprs (spots : List (Fpr × Nat)) : List Instr :=
  spots.map fun (r, o) => ⟨.stfd, (r, stack o, ())⟩

def loadGprs (spots : List (Gpr × Nat)) : List Instr :=
  spots.reverse.map fun (r, o) => loadWord f.target r (stack o)

def loadFprs (spots : List (Fpr × Nat)) : List Instr :=
  spots.reverse.map fun (r, o) => ⟨.lfd, (r, stack o, ())⟩

def allocateCode : List Instr :=
  if f.preserveVolatiles then
    [updateWord f.target .sp (below f), storeWord f.target .r0 (stack (areaStart f)),
      moveFrom .lr, storeWord f.target .r0 (stack (lrStart f))]
  else
    [moveFrom .lr, storeWord f.target .r0 (stack f.target.lrSaveOffset),
      updateWord f.target .sp (below f)]

def storeVolatilesCode : List Instr :=
  storeGprs f (volatileGprSpots f) ++
    ([moveFrom .ctr, storeWord f.target .r0 (stack (ctrStart f))] ++ storeFprs (volatileFprSpots f))

def storeSavedCode : List Instr :=
  (if 0 < f.crFields then [⟨.mfcr, (.r0, ())⟩, ⟨.stw, (.r0, stack (crStart f), ())⟩] else []) ++
    (storeGprs f (gprSpots f) ++ storeFprs (fprSpots f))

def prologCode : List Instr :=
  allocateCode f ++ ((if f.preserveVolatiles then storeVolatilesCode f else []) ++
    (storeSavedCode f ++
      if f.preserveVolatiles then [loadWord f.target .r0 (stack (areaStart f))] else []))

def loadSavedCode : List Instr :=
  loadFprs (fprSpots f) ++ (loadGprs f (gprSpots f) ++
    if 0 < f.crFields then [⟨.lwz, (.r0, stack (crStart f), ())⟩, ⟨.mtcrf, (f.crMask, .r0, ())⟩]
    else [])

def loadVolatilesCode : List Instr :=
  loadFprs (volatileFprSpots f) ++
    ([loadWord f.target .r0 (stack (ctrStart f)), moveTo .ctr] ++ loadGprs f (volatileGprSpots f))

def freeCode : List Instr :=
  if f.preserveVolatiles then
    [loadWord f.target .r0 (stack (lrStart f)), moveTo .lr,
      loadWord f.target .r0 (stack (areaStart f)), ⟨.addi, (.sp, .sp, f.sizeOffset, ())⟩]
  else
    [⟨.addi, (.sp, .sp, f.sizeOffset, ())⟩, loadWord f.target .r0 (stack f.target.lrSaveOffset),
      moveTo .lr]

def epilogCode : List Instr :=
  loadSavedCode f ++ ((if f.preserveVolatiles then loadVolatilesCode f else []) ++ freeCode f)

end Code

section Writes
variable (f : Frame)

theorem writes_spots {t : Target} {α : Type} (action : α → Address → Asm Unit)
    (code : α → Address → Instr) (each : ∀ r a, Writes t (action r a) [code r a])
    (l : List (α × Nat)) :
    Writes t ((l.map fun (r, o) => (r, stack o)).forM fun (r, a) => action r a)
      (l.map fun (r, o) => code r (stack o)) := by
  have placed : ∀ p ∈ l.map fun (r, o) => (r, stack o), Writes t (action p.1 p.2) [code p.1 p.2] :=
    fun p _ => each p.1 p.2
  have listed := Writes.forM placed
  rw [List.map_map] at listed
  exact listed

theorem writes_storeGprs (registers : List Gpr) (start : Nat) :
    Writes f.target ((places registers (Int64.ofNat start) f.target.wordSize).forM
        fun (r, a) => Asm.store r a)
      (storeGprs f (spots f.target.wordSize registers start)) := by
  rw [places_eq]
  exact writes_spots Asm.store (storeWord f.target) (fun _ _ => writes_store) _

theorem writes_loadGprs (registers : List Gpr) (start : Nat) :
    Writes f.target ((places registers (Int64.ofNat start) f.target.wordSize).reverse.forM
        fun (r, a) => Asm.load r a)
      (loadGprs f (spots f.target.wordSize registers start)) := by
  rw [places_eq, ← List.map_reverse]
  exact writes_spots Asm.load (loadWord f.target) (fun _ _ => writes_load) _

theorem writes_storeFprs (registers : List Fpr) (start : Nat) :
    Writes f.target ((places registers (Int64.ofNat start) fprSize).forM
        fun (r, a) => Asm.instr .stfd (r, a, ()))
      (storeFprs (spots fprSize registers start)) := by
  rw [places_eq]
  exact writes_spots (fun r a => Asm.instr .stfd (r, a, ())) (fun r a => ⟨.stfd, (r, a, ())⟩)
    (fun r a => writes_instr .stfd (r, a, ())) _

theorem writes_loadFprs (registers : List Fpr) (start : Nat) :
    Writes f.target ((places registers (Int64.ofNat start) fprSize).reverse.forM
        fun (r, a) => Asm.instr .lfd (r, a, ()))
      (loadFprs (spots fprSize registers start)) := by
  rw [places_eq, ← List.map_reverse]
  exact writes_spots (fun r a => Asm.instr .lfd (r, a, ())) (fun r a => ⟨.lfd, (r, a, ())⟩)
    (fun r a => writes_instr .lfd (r, a, ())) _

theorem link_eq : Address.onStack (f.sizeOffset + f.linkSave) = stack (lrStart f) := by
  rw [sizeOffset, linkSave, ← Int64.ofNat_add]
  rfl

theorem writes_allocate : Writes f.target f.allocate (allocateCode f) := by
  have move : Writes f.target (Asm.short .mflr (.r0, ())) [moveFrom .lr] := writes_short rfl
  rw [allocate, allocateCode]
  simp only [saveAreas_eq, link_eq]
  by_cases volatiles : f.preserveVolatiles = true
  · rw [if_pos volatiles, if_pos volatiles]
    exact writes_storeUpdate.bind (writes_store.bind (move.bind writes_store))
  · rw [if_neg volatiles, if_neg volatiles]
    exact move.bind (writes_store.bind writes_storeUpdate)

theorem writes_storeVolatiles : Writes f.target f.storeVolatiles (storeVolatilesCode f) := by
  have move : Writes f.target (Asm.short .mfctr (.r0, ())) [moveFrom .ctr] := writes_short rfl
  rw [storeVolatiles, storeVolatilesCode]
  simp only [saveAreas_eq]
  exact (writes_storeGprs f _ _).bind (move.bind (writes_store.bind (writes_storeFprs f _ _)))

theorem writes_storeSaved : Writes f.target f.storeSaved (storeSavedCode f) := by
  have rest := (writes_storeGprs f f.savedGprs (gprStart f)).bind
    (writes_storeFprs f f.savedFprs (fprStart f))
  rw [storeSaved, storeSavedCode]
  simp only [saveAreas_eq]
  by_cases some : 0 < f.crFields
  · rw [if_pos some, if_pos some]
    exact (writes_instr .mfcr (.r0, ())).bind
      ((writes_instr .stw (.r0, stack (crStart f), ())).bind rest)
  · rw [if_neg some, if_neg some]
    exact rest

/-- The prolog of a frame, whatever its size. -/
theorem writes_prolog : Writes f.target f.emitProlog (prologCode f) := by
  rw [emitProlog, prologCode]
  by_cases volatiles : f.preserveVolatiles = true
  · simp only [if_pos volatiles, saveAreas_eq]
    exact (writes_allocate f).bind ((writes_storeVolatiles f).bind
      ((writes_storeSaved f).bind writes_load))
  · simp only [if_neg volatiles]
    exact (writes_allocate f).bind ((writes_storeSaved f).bind writes_pure)

theorem writes_loadSaved : Writes f.target f.loadSaved (loadSavedCode f) := by
  rw [loadSaved, loadSavedCode]
  simp only [saveAreas_eq]
  refine (writes_loadFprs f _ _).bind ((writes_loadGprs f _ _).bind ?_)
  by_cases some : 0 < f.crFields
  · rw [if_pos some, if_pos some]
    exact (writes_instr .lwz (.r0, stack (crStart f), ())).bind
      (writes_instr .mtcrf (f.crMask, .r0, ()))
  · rw [if_neg some, if_neg some]
    exact writes_pure

theorem writes_loadVolatiles : Writes f.target f.loadVolatiles (loadVolatilesCode f) := by
  have move : Writes f.target (Asm.short .mtctr (.r0, ())) [moveTo .ctr] := writes_short rfl
  rw [loadVolatiles, loadVolatilesCode]
  simp only [saveAreas_eq]
  exact (writes_loadFprs f _ _).bind (writes_load.bind (move.bind (writes_loadGprs f _ _)))

theorem writes_free : Writes f.target f.free (freeCode f) := by
  have up := writes_instr (t := f.target) .addi (.sp, .sp, f.sizeOffset, ())
  have move : Writes f.target (Asm.short .mtlr (.r0, ())) [moveTo .lr] := writes_short rfl
  rw [free, freeCode]
  simp only [saveAreas_eq, link_eq]
  by_cases volatiles : f.preserveVolatiles = true
  · rw [if_pos volatiles, if_pos volatiles]
    exact writes_load.bind (move.bind (writes_load.bind up))
  · rw [if_neg volatiles, if_neg volatiles]
    exact up.bind (writes_load.bind move)

/-- An epilog of a frame, whatever its size. -/
theorem writes_epilog : Writes f.target f.emitEpilog (epilogCode f) := by
  rw [emitEpilog, epilogCode]
  by_cases volatiles : f.preserveVolatiles = true
  · simp only [if_pos volatiles]
    exact (writes_loadSaved f).bind ((writes_loadVolatiles f).bind (writes_free f))
  · simp only [if_neg volatiles]
    exact (writes_loadSaved f).bind (writes_free f)

end Writes

theorem valid_number {n : Nat} (small : n ≤ 31) :
    (decide (0 ≤ Int8.ofNat n) && decide (Int8.ofNat n ≤ 31)) = true := by
  have value : (Int8.ofNat n).toInt = n := Int8.toInt_ofNat_of_lt (by omega)
  have zero : (0 : Int8).toInt = 0 := rfl
  have last : (31 : Int8).toInt = 31 := rfl
  simp only [Bool.and_eq_true, decide_eq_true_eq, Int8.le_iff_toInt_le]
  omega

private theorem valid_volatileGprs : ∀ r ∈ volatileGprList, r.isValid = true := by
  decide

private theorem valid_volatileFprs : ∀ r ∈ volatileFprList, r.isValid = true := by
  decide

section Offsets
variable {target : Target} {gs : List Grant} {f : Frame}

theorem savedGprs_number (built : Built target gs f) {r : Gpr} (member : r ∈ f.savedGprs) :
    ∃ n, 14 ≤ n ∧ n ≤ 31 ∧ r = ⟨Int8.ofNat n⟩ := by
  obtain ⟨i, inside, rfl⟩ := List.mem_map.mp member
  have few := built.gprs
  rw [List.mem_range] at inside
  rw [maxGprs] at few
  exact ⟨32 - f.gprs + i, by omega, by omega, rfl⟩

theorem valid_savedGprs (built : Built target gs f) : ∀ r ∈ f.savedGprs, r.isValid = true := by
  intro r member
  obtain ⟨n, -, small, rfl⟩ := savedGprs_number built member
  exact valid_number small

theorem valid_savedFprs (built : Built target gs f) : ∀ r ∈ f.savedFprs, r.isValid = true := by
  intro r member
  obtain ⟨i, inside, rfl⟩ := List.mem_map.mp member
  have few := built.fprs
  rw [List.mem_range] at inside
  rw [maxFprs] at few
  exact valid_number (by omega)

theorem mask_cases (built : Built target gs f) :
    f.crFields = 0 ∧ f.crMask = 0 ∨ f.crFields = 1 ∧ f.crMask = 0x08 ∨
      f.crFields = 2 ∧ f.crMask = 0x18 ∨ f.crFields = 3 ∧ f.crMask = 0x38 := by
  have few := built.crFields
  rw [maxCrFields] at few
  have cases : f.crFields = 0 ∨ f.crFields = 1 ∨ f.crFields = 2 ∨ f.crFields = 3 := by omega
  rw [crMask]
  obtain count | count | count | count := cases <;> rw [count] <;> decide

theorem areas_ordered (f : Frame) : areaStart f ≤ gprStart f ∧ gprStart f ≤ fprStart f ∧
    fprStart f ≤ f.size ∧ gprStart f + f.savedGprs.length * f.target.wordSize ≤ f.size ∧
    fprStart f + f.savedFprs.length * fprSize ≤ f.size := by
  have shape := geometry f
  have finish := areas_end f
  have gprs : f.savedGprs.length = f.gprs := by rw [savedGprs, List.length_map, List.length_range]
  have fprs : f.savedFprs.length = f.fprs := by rw [savedFprs, List.length_map, List.length_range]
  have next : fprStart f = gprStart f + f.gprs * f.target.wordSize := rfl
  have fixed := shape.fixed
  have behind := shape.gprs
  rw [gprs, fprs]
  omega

theorem volatiles_ordered (volatiles : f.preserveVolatiles = true) :
    volatileGprStart f + volatileGprList.length * f.target.wordSize = ctrStart f ∧
      ctrStart f + f.target.wordSize = volatileFprStart f ∧
      volatileFprStart f + volatileFprList.length * fprSize = fixedStart f := by
  refine ⟨rfl, rfl, ?_⟩
  rw [fixedStart, if_pos volatiles]
  rfl

theorem volatiles_inside (volatiles : f.preserveVolatiles = true) :
    volatileGprStart f % 4 = 0 ∧ ctrStart f % 4 = 0 ∧
      volatileGprStart f + volatileGprList.length * f.target.wordSize ≤ f.size ∧
      ctrStart f + f.target.wordSize ≤ f.size ∧
      volatileFprStart f + volatileFprList.length * fprSize ≤ f.size := by
  have shape := geometry f
  obtain ⟨first, second, third⟩ := volatiles_ordered volatiles
  obtain ⟨-, fourth, fifth, -⟩ := areas_ordered f
  have start : volatileGprStart f = areaStart f + f.target.wordSize := rfl
  have count : ctrStart f = volatileGprStart f + 10 * f.target.wordSize := rfl
  have word := shape.word
  have aligned := shape.aligned
  have behind := shape.gprs
  omega

theorem reachable_link (t : Target) : Reachable (stack t.lrSaveOffset) := by
  cases t <;> exact reachable_stack (by decide) (by decide)

-- An instruction reaches the whole frame, and so many bytes of the caller behind it.
variable {spare : Nat} (small : f.size + spare ≤ 32767)
include small

theorem reachable_area : Reachable (stack (areaStart f)) := by
  obtain ⟨first, second, third, -⟩ := areas_ordered f
  exact reachable_stack (by omega) (geometry f).aligned

theorem reachable_ctr (volatiles : f.preserveVolatiles = true) :
    Reachable (stack (ctrStart f)) := by
  obtain ⟨-, aligned, -, inside, -⟩ := volatiles_inside volatiles
  exact reachable_stack (by omega) aligned

theorem reachable_cr (some : 0 < f.crFields) : Reachable (stack (crStart f)) := by
  have shape := geometry f
  have place := shape.cr some
  have link := shape.lr
  have whole := shape.size_aligned
  obtain ⟨-, second, third, -⟩ := areas_ordered f
  exact reachable_stack (by omega) shape.cr_aligned

theorem reachable_lr (link : f.target.lrSaveOffset ≤ spare) : Reachable (stack (lrStart f)) := by
  have place : lrStart f = f.size + f.target.lrSaveOffset := rfl
  exact reachable_stack (by omega) (geometry f).lr_aligned

theorem sizeOffset_toInt : f.sizeOffset.toInt = f.size :=
  Int64.toInt_ofNat_of_lt (by omega)

theorem neg_sizeOffset_toInt : (-f.sizeOffset).toInt = -f.size := by
  rw [Int64.toInt_neg, sizeOffset_toInt small, Int.bmod_eq_of_le (by omega) (by omega)]

theorem fits_size : fitsSigned f.sizeOffset 16 = true := by
  have value := sizeOffset_toInt small
  rw [fitsSigned_iff (by decide) (by decide)]
  omega

theorem reachable_below : Reachable (below f) := by
  have value := neg_sizeOffset_toInt small
  have aligned := size_aligned f
  refine ⟨rfl, ?_, ?_⟩
  · rw [fitsSigned_iff (by decide) (by decide)]
    show _ ≤ (-f.sizeOffset).toInt ∧ (-f.sizeOffset).toInt < _
    omega
  · show (-f.sizeOffset).toInt % 4 = 0
    omega

/-- The registers can be reached where they are kept. -/
theorem reachable_spot {α : Type} {registers : List α} {start : Nat} {r : α} {o : Nat}
    (member : (r, o) ∈ spots f.target.wordSize registers start) (aligned : start % 4 = 0)
    (inside : start + registers.length * f.target.wordSize ≤ f.size) : Reachable (stack o) := by
  obtain ⟨-, -, below, multiple⟩ := mem_spots member
  have word := (geometry f).word
  exact reachable_stack (by omega) (multiple (by omega) aligned)

/-- As for words, but floating point registers may be kept at any distance. -/
theorem fits_spot {registers : List Fpr} {start : Nat} {r : Fpr} {o : Nat}
    (member : (r, o) ∈ spots fprSize registers start)
    (inside : start + registers.length * fprSize ≤ f.size) :
    fitsSigned (stack o).displacement 16 = true := by
  obtain ⟨-, -, below, -⟩ := mem_spots member
  have value : (Int64.ofNat o).toInt = o := Int64.toInt_ofNat_of_lt (by omega)
  rw [fitsSigned_iff (by decide) (by decide)]
  show _ ≤ (Int64.ofNat o).toInt ∧ (Int64.ofNat o).toInt < _
  omega

section Registers
variable {start : Nat}

theorem fits_gprs {registers : List Gpr} (valid : ∀ r ∈ registers, r.isValid = true)
    (aligned : start % 4 = 0) (inside : start + registers.length * f.target.wordSize ≤ f.size) :
    (∀ i ∈ storeGprs f (spots f.target.wordSize registers start), OperandsFit i) ∧
      ∀ i ∈ loadGprs f (spots f.target.wordSize registers start), OperandsFit i := by
  constructor
  · rw [storeGprs, List.forall_mem_map]
    intro ⟨r, o⟩ member
    exact fits_storeWord (valid r (mem_spots member).1) (reachable_spot small member aligned inside)
  · rw [loadGprs, List.forall_mem_map]
    intro ⟨r, o⟩ member
    rw [List.mem_reverse] at member
    exact fits_loadWord (valid r (mem_spots member).1) (reachable_spot small member aligned inside)

theorem fits_fprs {registers : List Fpr} (valid : ∀ r ∈ registers, r.isValid = true)
    (inside : start + registers.length * fprSize ≤ f.size) :
    (∀ i ∈ storeFprs (spots fprSize registers start), OperandsFit i) ∧
      ∀ i ∈ loadFprs (spots fprSize registers start), OperandsFit i := by
  constructor
  · rw [storeFprs, List.forall_mem_map]
    intro ⟨r, o⟩ member
    exact ⟨valid r (mem_spots member).1, rfl, fits_spot small member inside⟩
  · rw [loadFprs, List.forall_mem_map]
    intro ⟨r, o⟩ member
    rw [List.mem_reverse] at member
    exact ⟨valid r (mem_spots member).1, rfl, fits_spot small member inside⟩

end Registers

theorem fits_savedCode (built : Built target gs f) :
    (∀ i ∈ storeSavedCode f, OperandsFit i) ∧ ∀ i ∈ loadSavedCode f, OperandsFit i := by
  obtain ⟨-, -, -, gprs, fprs⟩ := areas_ordered f
  obtain ⟨storeGprs, loadGprs⟩ :=
    fits_gprs small (valid_savedGprs built) (geometry f).gpr_aligned gprs
  obtain ⟨storeFprs, loadFprs⟩ := fits_fprs small (valid_savedFprs built) fprs
  have condition : (∀ i ∈ (if 0 < f.crFields then
        [⟨.mfcr, (.r0, ())⟩, ⟨.stw, (.r0, stack (crStart f), ())⟩] else [] : List Instr),
          OperandsFit i) ∧
      ∀ i ∈ (if 0 < f.crFields then
        [⟨.lwz, (.r0, stack (crStart f), ())⟩, ⟨.mtcrf, (f.crMask, .r0, ())⟩] else [] : List Instr),
          OperandsFit i := by
    by_cases some : 0 < f.crFields
    · obtain ⟨base, fits, -⟩ := reachable_cr small some
      have mask : fitsUnsigned f.crMask 8 = true := by
        obtain ⟨-, mask⟩ | ⟨-, mask⟩ | ⟨-, mask⟩ | ⟨-, mask⟩ := mask_cases built <;> rw [mask] <;>
          decide
      rw [if_pos some, if_pos some]
      simp only [List.forall_mem_cons, List.not_mem_nil, IsEmpty.forall_iff,
      implies_true, and_true]
      exact ⟨⟨rfl, rfl, base, fits⟩, ⟨rfl, base, fits⟩, mask, rfl⟩
    · rw [if_neg some, if_neg some]
      exact ⟨List.forall_mem_nil _, List.forall_mem_nil _⟩
  simp only [storeSavedCode, loadSavedCode, List.forall_mem_append]
  exact ⟨⟨condition.1, storeGprs, storeFprs⟩, loadFprs, loadGprs, condition.2⟩

theorem fits_volatilesCode (volatiles : f.preserveVolatiles = true) :
    (∀ i ∈ storeVolatilesCode f, OperandsFit i) ∧ ∀ i ∈ loadVolatilesCode f, OperandsFit i := by
  obtain ⟨aligned, -, gprs, -, fprs⟩ := volatiles_inside volatiles
  obtain ⟨storeGprs, loadGprs⟩ := fits_gprs small valid_volatileGprs aligned gprs
  obtain ⟨storeFprs, loadFprs⟩ := fits_fprs small valid_volatileFprs fprs
  have count := reachable_ctr small volatiles
  simp only [storeVolatilesCode, loadVolatilesCode, List.forall_mem_append, List.forall_mem_cons,
    List.not_mem_nil, IsEmpty.forall_iff, implies_true, and_true]
  exact ⟨⟨storeGprs, ⟨⟨rfl, rfl⟩, fits_storeWord rfl count⟩, storeFprs⟩,
    loadFprs, ⟨fits_loadWord rfl count, ⟨rfl, rfl⟩⟩, loadGprs⟩

variable (link : f.preserveVolatiles = true → f.target.lrSaveOffset ≤ spare)
include link

theorem fits_linkCode :
    (∀ i ∈ allocateCode f, OperandsFit i) ∧ ∀ i ∈ freeCode f, OperandsFit i := by
  have down : OperandsFit (updateWord f.target .sp (below f)) :=
    fits_updateWord rfl (reachable_below small)
  have up : OperandsFit ⟨.addi, (.sp, .sp, f.sizeOffset, ())⟩ := ⟨rfl, rfl, fits_size small⟩
  have area := reachable_area small
  rw [allocateCode, freeCode]
  by_cases volatiles : f.preserveVolatiles = true
  · have lr := reachable_lr small (link volatiles)
    rw [if_pos volatiles, if_pos volatiles]
    simp only [List.forall_mem_cons, List.not_mem_nil, IsEmpty.forall_iff,
      implies_true, and_true]
    exact ⟨⟨down, fits_storeWord rfl area, ⟨rfl, rfl⟩, fits_storeWord rfl lr⟩,
      fits_loadWord rfl lr, ⟨rfl, rfl⟩, fits_loadWord rfl area, up⟩
  · have lr := reachable_link f.target
    rw [if_neg volatiles, if_neg volatiles]
    simp only [List.forall_mem_cons, List.not_mem_nil, IsEmpty.forall_iff,
      implies_true, and_true]
    exact ⟨⟨⟨rfl, rfl⟩, fits_storeWord rfl lr, down⟩, up, fits_loadWord rfl lr, ⟨rfl, rfl⟩⟩

theorem fits_prolog (built : Built target gs f) : ∀ i ∈ prologCode f, OperandsFit i := by
  have first := (fits_linkCode small link).1
  have saved := (fits_savedCode small built).1
  rw [prologCode]
  simp only [List.forall_mem_append]
  by_cases volatiles : f.preserveVolatiles = true
  · have reload : OperandsFit (loadWord f.target .r0 (stack (areaStart f))) :=
      fits_loadWord rfl (reachable_area small)
    rw [if_pos volatiles, if_pos volatiles]
    exact ⟨first, (fits_volatilesCode small volatiles).1, saved, List.forall_mem_singleton.mpr reload⟩
  · rw [if_neg volatiles, if_neg volatiles]
    exact ⟨first, List.forall_mem_nil _, saved, List.forall_mem_nil _⟩

theorem fits_epilog (built : Built target gs f) : ∀ i ∈ epilogCode f, OperandsFit i := by
  have saved := (fits_savedCode small built).2
  have last := (fits_linkCode small link).2
  rw [epilogCode]
  simp only [List.forall_mem_append]
  by_cases volatiles : f.preserveVolatiles = true
  · rw [if_pos volatiles]
    exact ⟨saved, (fits_volatilesCode small volatiles).2, last⟩
  · rw [if_neg volatiles]
    exact ⟨saved, List.forall_mem_nil _, last⟩

end Offsets

section Emits
variable {target : Target} {gs : List Grant} {f : Frame}

theorem lrSaveOffset_le (t : Target) : t.lrSaveOffset ≤ 16 := by
  cases t <;> decide

/-- The prolog of a small frame. -/
theorem emits_prolog (built : Built target gs f) (small : f.size + 16 ≤ 32767) :
    Emits f.target f.emitProlog (prologCode f) :=
  (writes_prolog f).emits (fits_prolog small (fun _ => lrSaveOffset_le _) built)

/-- An epilog of a small frame. -/
theorem emits_epilog (built : Built target gs f) (small : f.size + 16 ≤ 32767) :
    Emits f.target f.emitEpilog (epilogCode f) :=
  (writes_epilog f).emits (fits_epilog small (fun _ => lrSaveOffset_le _) built)

end Emits

end PowerAsm.Proofs.FrameCode
