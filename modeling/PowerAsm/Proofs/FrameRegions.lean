import PowerAsm.Proofs.FrameCode
import PowerAsm.Proofs.Operations

/-! The bytes of a frame. Whatever is requested, in any order, the link area, the slots that
were handed out and the places of the saved registers lie one behind the other from the
bottom of the frame to its end, and the frame is no larger than its alignment asks for. -/
namespace PowerAsm.Proofs.FrameRegions
open PowerAsm.Frame FrameLayout FrameCode Storage Operations Layouts

/-- Some bytes of a frame, counted from its bottom. -/
structure Region where
  start : Nat
  length : Nat

namespace Region

def stop (r : Region) : Nat := r.start + r.length

/-- The two regions share no byte. -/
def Apart (r s : Region) : Prop := r.stop ≤ s.start ∨ s.stop ≤ r.start

/-- The region as an instruction names it, with its length. -/
def place (r : Region) : Address × Nat := (.onStack (Int64.ofNat r.start), r.length)

end Region

/-- The regions lie one behind the other, between `low` and `high`. -/
def Stacked : Nat → List Region → Nat → Prop
  | low, [], high => low ≤ high
  | low, r :: rest, high => low ≤ r.start ∧ Stacked r.stop rest high

theorem Stacked.mono {low low' high high' : Nat} {rs : List Region} (stacked : Stacked low rs high)
    (down : low' ≤ low) (up : high ≤ high') : Stacked low' rs high' := by
  induction rs generalizing low low' with
  | nil => exact Nat.le_trans down (Nat.le_trans stacked up)
  | cons r rest ih => exact ⟨Nat.le_trans down stacked.1, ih stacked.2 (Nat.le_refl _)⟩

theorem Stacked.append {low middle high : Nat} {rs ss : List Region}
    (first : Stacked low rs middle) (second : Stacked middle ss high) :
    Stacked low (rs ++ ss) high := by
  induction rs generalizing low with
  | nil => exact second.mono first (Nat.le_refl _)
  | cons r rest ih => exact ⟨first.1, ih first.2⟩

theorem Stacked.within {low high : Nat} {rs : List Region} (stacked : Stacked low rs high) :
    low ≤ high ∧ ∀ r ∈ rs, low ≤ r.start ∧ r.stop ≤ high := by
  induction rs generalizing low with
  | nil => exact ⟨stacked, nofun⟩
  | cons r rest ih =>
    obtain ⟨above, stacked⟩ := stacked
    obtain ⟨below, inside⟩ := ih stacked
    have grows : r.start ≤ r.stop := Nat.le_add_right _ _
    refine ⟨by omega, List.forall_mem_cons.mpr ⟨⟨above, below⟩, fun s member => ?_⟩⟩
    obtain ⟨later, finish⟩ := inside s member
    exact ⟨by omega, finish⟩

theorem Stacked.apart {low high : Nat} {rs : List Region} (stacked : Stacked low rs high) :
    rs.Pairwise Region.Apart := by
  induction rs generalizing low with
  | nil => exact .nil
  | cons r rest ih =>
    refine List.pairwise_cons.mpr ⟨fun s member => ?_, ih stacked.2⟩
    exact .inl (stacked.2.within.2 s member).1

/-- The places take bytes between `low` and `high`, one behind the other. -/
def Fills (low : Nat) (ps : List (Address × Nat)) (high : Nat) : Prop :=
  ∃ rs : List Region, ps = rs.map Region.place ∧ Stacked low rs high

section Fills
variable {low middle high : Nat} {ps qs : List (Address × Nat)}

theorem fills_nil (below : low ≤ high) : Fills low [] high := ⟨[], rfl, below⟩

theorem Fills.cons {start length : Nat} (rest : Fills (start + length) ps high) :
    Fills start ((.onStack (Int64.ofNat start), length) :: ps) high := by
  obtain ⟨rs, rfl, order⟩ := rest
  exact ⟨⟨start, length⟩ :: rs, rfl, Nat.le_refl _, order⟩

theorem Fills.append (first : Fills low ps middle) (second : Fills middle qs high) :
    Fills low (ps ++ qs) high := by
  obtain ⟨rs, rfl, order⟩ := first
  obtain ⟨ss, rfl, order'⟩ := second
  exact ⟨rs ++ ss, by rw [List.map_append], order.append order'⟩

theorem Fills.mono (fills : Fills low ps middle) (up : middle ≤ high) : Fills low ps high := by
  obtain ⟨rs, named, order⟩ := fills
  exact ⟨rs, named, order.mono (Nat.le_refl _) up⟩

end Fills

section Slots
variable {f f' : Frame} {gs : List Grant}

/-- The slots among what a frame has handed out, with their size. -/
def slotPlaces (gs : List Grant) (f : Frame) : List (Address × Nat) :=
  gs.filterMap fun
    | .slot a => some (a, f.target.wordSize)
    | _ => none

/-- Where the last slot that was handed out ends. Parameters below the least number of them
are counted only when locals have been put above. -/
def slotEnd (f : Frame) : Nat :=
  (f.target.linkAreaWords + (if 0 < f.locals then f.paramWords else f.params) + f.locals) *
    f.target.wordSize

/-- The slots that were handed out lie one behind the other above the link area. -/
def SlotsFill (gs : List Grant) (f : Frame) : Prop :=
  Fills f.target.linkAreaSize (slotPlaces gs f) (slotEnd f)

theorem slotPlaces_snoc (g : Grant) (same : f'.target = f.target) :
    slotPlaces (gs ++ [g]) f' = slotPlaces gs f ++ slotPlaces [g] f := by
  rw [slotPlaces, same, List.filterMap_append]
  rfl

/-- A slot is handed out at a word where all slots before it have ended. -/
theorem SlotsFill.slot (fills : SlotsFill gs f) (same : f'.target = f.target) {index : Nat}
    (free : slotEnd f ≤ index * f.target.wordSize)
    (grown : slotEnd f' = (index + 1) * f.target.wordSize) :
    SlotsFill (gs ++ [.slot (f.slot index)]) f' := by
  have new : Fills (index * f.target.wordSize) (slotPlaces [.slot (f.slot index)] f)
      ((index + 1) * f.target.wordSize) := by
    rw [Nat.add_mul, Nat.one_mul]
    exact Fills.cons (fills_nil (Nat.le_refl _))
  rw [SlotsFill, slotPlaces_snoc _ same, same, grown]
  exact (Fills.mono fills free).append new

/-- Any other request leaves the slots where they are. -/
theorem SlotsFill.other (fills : SlotsFill gs f) {g : Grant} (other : ∀ a, g ≠ .slot a)
    (same : f'.target = f.target) (unmoved : slotEnd f' = slotEnd f) :
    SlotsFill (gs ++ [g]) f' := by
  have none : slotPlaces [g] f = [] := by
    cases g with
    | slot a => exact absurd rfl (other a)
    | _ => rfl
  rw [SlotsFill, slotPlaces_snoc _ same, same, unmoved, none, List.append_nil]
  exact fills

theorem SlotsFill.grant (unfrozen : f.frozen = false) (fills : SlotsFill gs f) {r : Request}
    {g : Grant} (granted : FrameLayout.grant f r = .ok (g, f')) : SlotsFill (gs ++ [g]) f' := by
  obtain ⟨none, rfl, rfl⟩ | ⟨rfl, rfl⟩ | ⟨-, rfl, rfl⟩ | ⟨-, rfl, rfl⟩ | ⟨-, rfl, rfl⟩ |
    ⟨rfl, rfl⟩ := grant_cases unfrozen granted
  · refine fills.slot ?_ ?_ ?_
    · rfl
    · simp [slotEnd, none]
    · simp [slotEnd, none, Nat.add_assoc]
  · have least : f.params ≤ f.paramWords := Nat.le_max_left _ _
    have same : Frame.paramWords { f with params := f.paramWords, locals := f.locals + 1 } =
        f.paramWords := by
      simp only [paramWords]
      omega
    refine fills.slot ?_ (Nat.mul_le_mul_right _ ?_) ?_
    · rfl
    · split <;> omega
    · simp [slotEnd, same, Nat.add_assoc]
  all_goals exact fills.other nofun rfl rfl

theorem SlotsFill.grantAll {target : Target} {held before : List Grant}
    (built : Built target held f) (fills : SlotsFill before f) {requests : List Request}
    (granted : FrameLayout.grantAll f requests = .ok (gs, f')) : SlotsFill (before ++ gs) f' := by
  induction requests generalizing held before gs f with
  | nil =>
    cases granted
    rwa [List.append_nil]
  | cons r rest ih =>
    rw [FrameLayout.grantAll] at granted
    obtain ⟨⟨g, next⟩, first, granted⟩ := bind_eq_ok_iff.mp granted
    obtain ⟨⟨later, last⟩, others, granted⟩ := bind_eq_ok_iff.mp granted
    cases granted
    have all := ih (built.grant first) (fills.grant built.unfrozen first) others
    rwa [List.append_assoc] at all

end Slots

section Saves
variable {f : Frame}

/-- The places of registers that are kept one behind the other, with their size. -/
def registerPlaces {α : Type} (registers : List α) (start : Int64) (size : Nat) :
    List (Address × Nat) :=
  (places registers start size).map fun (_, a) => (a, size)

/-- The places of the volatile registers: r0, r3 to r12, the count register and f0 to f13. -/
def volatilePlaces (f : Frame) : List (Address × Nat) :=
  (.onStack f.saveAreas.r0, f.target.wordSize) ::
    (registerPlaces volatileGprList f.saveAreas.volatileGprs f.target.wordSize ++
      (.onStack f.saveAreas.ctr, f.target.wordSize) ::
        registerPlaces volatileFprList f.saveAreas.volatileFprs fprSize)

/-- The place of the condition register, which has one in the frame on 32 bits only. -/
def conditionPlaces (f : Frame) : List (Address × Nat) :=
  if 0 < f.crFields ∧ f.target = .ppc32 then [(.onStack f.saveAreas.cr, f.target.wordSize)] else []

/-- The places in which the frame keeps registers. -/
def savePlaces (f : Frame) : List (Address × Nat) :=
  (if f.preserveVolatiles then volatilePlaces f else []) ++
    (conditionPlaces f ++
      (registerPlaces f.savedGprs f.saveAreas.gprs f.target.wordSize ++
        registerPlaces f.savedFprs f.saveAreas.fprs fprSize))

end Saves

section Whole
variable {f : Frame}

/-- All that a frame holds: its link area, the slots it has handed out and the registers it
saves. -/
def occupied (f : Frame) (gs : List Grant) : List (Address × Nat) :=
  (.onStack 0, f.target.linkAreaSize) :: (slotPlaces gs f ++ savePlaces f)

/-- The places end where the frame ends, as the prolog checks. -/
theorem finish_eq (f : Frame) : f.saveAreas.finish = f.sizeOffset := by
  rw [saveAreas_eq, areas_end]
  rfl

/-- A prolog that was written was allowed, and opens the frame it was asked for. -/
theorem writeProlog_ok {a b : Assembly} {index : Nat} (written : writeProlog f a = .ok index b) :
    f.checkProlog a.assembler.target = .ok () ∧ ∃ c o, f.emitProlog a = .ok () c ∧
      index = c.assembler.frames.size ∧ o.frame = f ∧
      b = ⟨c.segment, { c.assembler with frames := c.assembler.frames.push o }⟩ := by
  have reached : ¬ f.saveAreas.finish ≠ f.sizeOffset := fun differs => differs (finish_eq f)
  cases allowed : f.checkProlog a.assembler.target with
  | error m =>
    simp only [writeProlog, Asm.target, bind_apply, assembler_apply, pure_apply, allowed] at written
    cases written
  | ok =>
    cases ran : f.emitProlog a with
    | error e c =>
      simp only [writeProlog, Asm.target, enter, bind_apply, assembler_apply, pure_apply, allowed,
        if_neg reached, offset_apply, ran, Except.mapError, ofExcept_ok] at written
      cases written
    | ok _ c =>
      simp only [writeProlog, Asm.target, enter, bind_apply, assembler_apply, pure_apply, allowed,
        if_neg reached, offset_apply, ran, Except.mapError, ofExcept_ok,
        modifyAssembler_apply] at written
      cases written
      exact ⟨rfl, c, _, rfl, rfl, rfl, rfl⟩

end Whole

end PowerAsm.Proofs.FrameRegions
