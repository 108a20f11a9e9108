import PowerAsm.Proofs.FrameCode

/-! What the prolog of a frame keeps in memory, and where. The places lie in the save areas of
the frame and in the frame of the caller, and no two of them overlap. -/
namespace PowerAsm.Proofs.FrameSaves
open PowerAsm.Frame FrameLayout FrameCode Memory Kept

/-- The values of registers, kept where the registers are stored. -/
def keptSpots {α : Type} (n : Nat) (value : α → BitVec (8 * n)) (l : List (α × Nat)) : List Kept :=
  l.map fun (r, o) => ⟨o, n, value r⟩

section Spots
variable {α : Type} (n : Nat) (value : α → BitVec (8 * n))

theorem mem_keptSpots {l : List (α × Nat)} {r : α} {o : Nat} (member : (r, o) ∈ l) :
    ⟨o, n, value r⟩ ∈ keptSpots n value l :=
  List.mem_map.mpr ⟨(r, o), member, rfl⟩

theorem storeAll_snoc {w : Nat} (order : ByteOrder) (base : BitVec w) (m : Memory w)
    (l : List (α × Nat)) (r : α) (o : Nat) :
    storeAll order base m (keptSpots n value (l ++ [(r, o)])) =
      store order (storeAll order base m (keptSpots n value l)) (base + BitVec.ofNat w o) n
        (value r) := by
  rw [keptSpots, List.map_append, storeAll_append]
  rfl

theorem within_spots (registers : List α) (start : Nat) :
    Within start (start + registers.length * n) (keptSpots n value (spots n registers start)) := by
  intro x member
  obtain ⟨⟨r, o⟩, known, rfl⟩ := List.mem_map.mp member
  obtain ⟨-, above, below, -⟩ := mem_spots known
  exact ⟨above, below⟩

theorem apart_spots (registers : List α) (start : Nat) :
    (keptSpots n value (spots n registers start)).Pairwise Apart := by
  induction registers generalizing start with
  | nil => exact .nil
  | cons r rest ih =>
    exact pairwise_cons (within_spots n value rest (start + n)) (.inl (Nat.le_refl _)) (ih (start + n))

end Spots

section Values
variable (f : Frame) (s : Machine f.target)

/-- The back chain, the return address and, if it is preserved, r0. -/
def keptLink : List Kept :=
  if f.preserveVolatiles then
    [⟨0, f.target.wordSize, s.gpr .sp⟩, ⟨areaStart f, f.target.wordSize, s.gpr .r0⟩,
      ⟨lrStart f, f.target.wordSize, s.lr⟩]
  else [⟨lrStart f, f.target.wordSize, s.lr⟩, ⟨0, f.target.wordSize, s.gpr .sp⟩]

def keptVolatiles : List Kept :=
  keptSpots f.target.wordSize s.gpr (volatileGprSpots f) ++
    (⟨ctrStart f, f.target.wordSize, s.ctr⟩ :: keptSpots fprSize s.fpr (volatileFprSpots f))

def keptSaved : List Kept :=
  (if 0 < f.crFields then [⟨crStart f, 4, s.cr⟩] else []) ++
    (keptSpots f.target.wordSize s.gpr (gprSpots f) ++ keptSpots fprSize s.fpr (fprSpots f))

/-- All that the prolog stores, in its order. -/
def kept : List Kept :=
  keptLink f s ++ ((if f.preserveVolatiles then keptVolatiles f s else []) ++ keptSaved f s)

end Values

section Places
variable {f : Frame} {s : Machine f.target}

theorem within_volatiles (volatiles : f.preserveVolatiles = true) :
    Within (volatileGprStart f) (fixedStart f) (keptVolatiles f s) := by
  obtain ⟨first, second, third⟩ := volatiles_ordered volatiles
  have gprs := within_spots _ s.gpr volatileGprList (volatileGprStart f)
  have fprs := within_spots fprSize s.fpr volatileFprList (volatileFprStart f)
  refine (gprs.mono (Nat.le_refl _) (by omega)).append ?_
  exact .cons (by omega) (by omega) (fprs.mono (by omega) (by omega))

theorem apart_volatiles : (keptVolatiles f s).Pairwise Apart := by
  have gprs := within_spots _ s.gpr volatileGprList (volatileGprStart f)
  have fprs := within_spots fprSize s.fpr volatileFprList (volatileFprStart f)
  have behind : Within (ctrStart f) (volatileFprStart f + volatileFprList.length * fprSize)
      (⟨ctrStart f, f.target.wordSize, s.ctr⟩ :: keptSpots fprSize s.fpr (volatileFprSpots f)) :=
    .cons (Nat.le_refl _) (Nat.le_add_right _ _)
      (fprs.mono (Nat.le_add_right _ _) (Nat.le_refl _))
  exact pairwise_append gprs behind (apart_spots _ _ _ _)
    (pairwise_cons fprs (.inl (Nat.le_refl _)) (apart_spots _ _ _ _))

theorem within_registers : Within (gprStart f) f.size
    (keptSpots f.target.wordSize s.gpr (gprSpots f) ++ keptSpots fprSize s.fpr (fprSpots f)) := by
  obtain ⟨-, second, -, gprs, fprs⟩ := areas_ordered f
  exact ((within_spots _ s.gpr f.savedGprs (gprStart f)).mono (Nat.le_refl _) gprs).append
    ((within_spots fprSize s.fpr f.savedFprs (fprStart f)).mono second fprs)

theorem apart_registers :
    (keptSpots f.target.wordSize s.gpr (gprSpots f) ++
      keptSpots fprSize s.fpr (fprSpots f)).Pairwise Apart := by
  have finish : gprStart f + f.savedGprs.length * f.target.wordSize = fprStart f := by
    rw [savedGprs, List.length_map, List.length_range]
    rfl
  have gprs := within_spots _ s.gpr f.savedGprs (gprStart f)
  rw [finish] at gprs
  exact pairwise_append gprs (within_spots fprSize s.fpr f.savedFprs (fprStart f)) (apart_spots _ _ _ _)
    (apart_spots _ _ _ _)

theorem within_saved : Within (fixedStart f) (lrStart f) (keptSaved f s) := by
  have shape := geometry f
  obtain ⟨-, second, third, -⟩ := areas_ordered f
  have fixed := shape.gprs
  have link := shape.lr.1
  refine Within.append ?_ (within_registers.mono fixed link)
  by_cases some : 0 < f.crFields
  · rw [if_pos some]
    have place := shape.cr some
    exact .cons (by omega) (by omega) within_nil
  · rw [if_neg some]
    exact within_nil

theorem apart_saved : (keptSaved f s).Pairwise Apart := by
  rw [keptSaved]
  by_cases some : 0 < f.crFields
  · rw [if_pos some]
    refine pairwise_cons within_registers ?_ apart_registers
    obtain ⟨-, before⟩ | ⟨behind, -⟩ := (geometry f).cr some
    · exact .inl before
    · exact .inr behind
  · rw [if_neg some]
    exact apart_registers

/-- What is stored after the link area and the return address. -/
theorem within_rest : Within (if f.preserveVolatiles then volatileGprStart f else areaStart f)
    (lrStart f) ((if f.preserveVolatiles then keptVolatiles f s else []) ++ keptSaved f s) := by
  have shape := geometry f
  obtain ⟨first, second, third, -⟩ := areas_ordered f
  have link := shape.lr.1
  have behind := shape.gprs
  by_cases volatiles : f.preserveVolatiles = true
  · obtain ⟨start, middle, finish⟩ := volatiles_ordered volatiles
    rw [if_pos volatiles, if_pos volatiles]
    exact ((within_volatiles volatiles).mono (Nat.le_refl _) (by omega)).append
      (within_saved.mono (by omega) (Nat.le_refl _))
  · rw [if_neg volatiles, if_neg volatiles]
    exact within_saved.mono shape.fixed (Nat.le_refl _)

theorem apart_rest :
    ((if f.preserveVolatiles then keptVolatiles f s else []) ++ keptSaved f s).Pairwise Apart := by
  by_cases volatiles : f.preserveVolatiles = true
  · rw [if_pos volatiles]
    exact pairwise_append (within_volatiles volatiles) within_saved apart_volatiles apart_saved
  · rw [if_neg volatiles]
    exact apart_saved

/-- All values lie in the frame or in the link area of the caller, and no two of them are
stored over each other. -/
theorem places_kept : Within 0 (lrStart f + f.target.wordSize) (kept f s) ∧
    (kept f s).Pairwise Apart := by
  have shape := geometry f
  have chain := shape.chain
  have link := shape.lr.1
  obtain ⟨first, second, third, -⟩ := areas_ordered f
  have behind := shape.gprs
  have start : volatileGprStart f = areaStart f + f.target.wordSize := rfl
  have within := within_rest (s := s)
  have rest := apart_rest (s := s)
  rw [kept, keptLink]
  by_cases volatiles : f.preserveVolatiles = true
  · obtain ⟨middle, last, finish⟩ := volatiles_ordered volatiles
    simp only [if_pos volatiles] at within rest ⊢
    -- From the back: the return address lies behind all the rest, then r0 and the chain before it.
    have linked : Within (volatileGprStart f) (lrStart f + f.target.wordSize)
        (⟨lrStart f, f.target.wordSize, s.lr⟩ :: (keptVolatiles f s ++ keptSaved f s)) :=
      .cons (by omega) (by omega) (within.mono (Nat.le_refl _) (by omega))
    have scratched : Within (areaStart f) (lrStart f + f.target.wordSize)
        (⟨areaStart f, f.target.wordSize, s.gpr .r0⟩ :: ⟨lrStart f, f.target.wordSize, s.lr⟩ ::
          (keptVolatiles f s ++ keptSaved f s)) :=
      .cons (by omega) (by omega) (linked.mono (by omega) (Nat.le_refl _))
    exact ⟨.cons (by omega) (by omega) (scratched.mono (by omega) (Nat.le_refl _)),
      pairwise_cons scratched (.inl (by omega)) (pairwise_cons linked (.inl (by omega))
        (pairwise_cons within (.inr (Nat.le_refl _)) rest))⟩
  · simp only [if_neg volatiles] at within rest ⊢
    have chained : Within 0 (lrStart f)
        (⟨0, f.target.wordSize, s.gpr .sp⟩ :: ([] ++ keptSaved f s)) :=
      .cons (by omega) (by omega) (within.mono (by omega) (Nat.le_refl _))
    exact ⟨.cons (by omega) (by omega) (chained.mono (by omega) (by omega)),
      pairwise_cons chained (.inr (Nat.le_refl _)) (pairwise_cons within (.inl (by omega)) rest)⟩

theorem room_kept {spare : Nat} (small : f.size + spare ≤ 32767) : Within 0 (2 ^ width f.target) (kept f s) := by
  have shape := geometry f
  have link := shape.lr.2
  refine places_kept.1.mono (Nat.le_refl _) ?_
  rcases shape.word with word | word
  · rw [width, word]
    omega
  · rw [width, word]
    omega

end Places

/-- The distances from the stack pointer that belong to the save areas of the frame, or to the
words of the caller in which the return address and the condition register are saved. -/
inductive Protected (f : Frame) (o : Nat) : Prop where
  | area (above : areaStart f ≤ o) (below : o < f.size)
  | link (above : f.size + f.target.lrSaveOffset ≤ o)
      (below : o < f.size + f.target.lrSaveOffset + f.target.wordSize)
  | condition (index : Nat) (caller : f.target.crSaveWord? = some index)
      (above : f.size + index * f.target.wordSize ≤ o)
      (below : o < f.size + index * f.target.wordSize + 4)

/-- A memory that holds what the registers contained, as seen from the stack pointer. -/
structure Held (order : ByteOrder) (f : Frame) (s : Machine f.target) (m : Memory (width f.target))
    (p : BitVec (width f.target)) : Prop where
  gprs : ∀ r o, (r, o) ∈ gprSpots f →
    load order m (p + BitVec.ofNat _ o) f.target.wordSize = s.gpr r
  fprs : ∀ r o, (r, o) ∈ fprSpots f → load order m (p + BitVec.ofNat _ o) fprSize = s.fpr r
  cr : 0 < f.crFields → load order m (p + BitVec.ofNat _ (crStart f)) 4 = s.cr
  lr : load order m (p + BitVec.ofNat _ (lrStart f)) f.target.wordSize = s.lr
  r0 : f.preserveVolatiles = true →
    load order m (p + BitVec.ofNat _ (areaStart f)) f.target.wordSize = s.gpr .r0
  volatileGprs : f.preserveVolatiles = true → ∀ r o, (r, o) ∈ volatileGprSpots f →
    load order m (p + BitVec.ofNat _ o) f.target.wordSize = s.gpr r
  volatileFprs : f.preserveVolatiles = true → ∀ r o, (r, o) ∈ volatileFprSpots f →
    load order m (p + BitVec.ofNat _ o) fprSize = s.fpr r
  ctr : f.preserveVolatiles = true →
    load order m (p + BitVec.ofNat _ (ctrStart f)) f.target.wordSize = s.ctr

section Lasting
variable {f : Frame} {s : Machine f.target} {o n : Nat} {v : BitVec (8 * n)}

theorem protected_area (above : areaStart f ≤ o) (below : o + n ≤ f.size) :
    ∀ i < n, Protected f (o + i) :=
  fun i inside => .area (by omega) (by omega)

theorem protected_cr (some : 0 < f.crFields) : ∀ i < 4, Protected f (crStart f + i) := by
  intro i inside
  have shape := geometry f
  obtain ⟨-, second, third, -⟩ := areas_ordered f
  cases caller : f.target.crSaveWord? with
  | none =>
    have own : crStart f = fixedStart f := by rw [crStart, caller]
    have one : f.crWords = 1 := by rw [crWords, caller, if_pos ⟨some, rfl⟩]
    have behind : gprStart f = fixedStart f + f.crWords * f.target.wordSize := rfl
    have fixed := shape.fixed
    have word := shape.word
    rw [one] at behind
    exact .area (by omega) (by omega)
  | some index =>
    have own : crStart f = f.size + index * f.target.wordSize := by rw [crStart, caller]
    exact .condition index caller (by omega) (by omega)

theorem mem_kept_of_saved {x : Kept} (member : x ∈ keptSaved f s) : x ∈ kept f s :=
  List.mem_append_right _ (List.mem_append_right _ member)

theorem mem_kept_of_volatile {x : Kept} (volatiles : f.preserveVolatiles = true)
    (member : x ∈ keptVolatiles f s) : x ∈ kept f s := by
  refine List.mem_append_right _ (List.mem_append_left _ ?_)
  rwa [if_pos volatiles]

variable {order : ByteOrder} {m m' : Memory (width f.target)} {p : BitVec (width f.target)}
  {spare : Nat} (small : f.size + spare ≤ 32767)
  (same : ∀ o, Protected f o → m' (p + BitVec.ofNat _ o) =
    storeAll order p m (kept f s) (p + BitVec.ofNat _ o))
include small same

theorem load_kept (member : ⟨o, n, v⟩ ∈ kept f s) (lasting : ∀ i < n, Protected f (o + i)) :
    load order m' (p + BitVec.ofNat _ o) n = v := by
  have stored := @load_storeAll _ order p m _ (room_kept small) places_kept.2 _ member
  refine (load_congr fun i inside => ?_).trans stored
  rw [BitVec.add_assoc, ← BitVec.ofNat_add]
  exact same (o + i) (lasting i inside)

/-- What the prolog stores is still there as long as the places that have to last are left
alone. -/
theorem held_kept : Held order f s m' p := by
  have shape := geometry f
  have fixed := shape.fixed
  have behind := shape.gprs
  obtain ⟨first, second, third, gprs, fprs⟩ := areas_ordered f
  have start : volatileGprStart f = areaStart f + f.target.wordSize := rfl
  have ordered := volatiles_ordered (f := f)
  constructor
  case gprs =>
    intro r o member
    obtain ⟨-, above, below, -⟩ := mem_spots member
    refine load_kept small same (mem_kept_of_saved ?_) (protected_area (by omega) (by omega))
    exact List.mem_append_right _ (List.mem_append_left _ (mem_keptSpots _ _ member))
  case fprs =>
    intro r o member
    obtain ⟨-, above, below, -⟩ := mem_spots member
    refine load_kept small same (mem_kept_of_saved ?_) (protected_area (by omega) (by omega))
    exact List.mem_append_right _ (List.mem_append_right _ (mem_keptSpots _ _ member))
  case cr =>
    intro some
    refine load_kept small same (mem_kept_of_saved ?_) (protected_cr some)
    rw [keptSaved, if_pos some]
    exact List.mem_cons_self
  case lr =>
    refine load_kept small same (List.mem_append_left _ ?_) fun i inside => ?_
    · rw [keptLink]
      split
      · exact .tail _ (.tail _ (.head _))
      · exact .head _
    · exact .link (Nat.le_add_right _ _) (Nat.add_lt_add_left inside _)
  case r0 =>
    intro volatiles
    obtain ⟨middle, last, finish⟩ := ordered volatiles
    refine load_kept small same (List.mem_append_left _ ?_)
      (protected_area (by omega) (by omega))
    rw [keptLink, if_pos volatiles]
    exact .tail _ (.head _)
  case volatileGprs =>
    intro volatiles r o member
    obtain ⟨middle, last, finish⟩ := ordered volatiles
    obtain ⟨-, above, below, -⟩ := mem_spots member
    refine load_kept small same (mem_kept_of_volatile volatiles ?_)
      (protected_area (by omega) (by omega))
    exact List.mem_append_left _ (mem_keptSpots _ _ member)
  case volatileFprs =>
    intro volatiles r o member
    obtain ⟨middle, last, finish⟩ := ordered volatiles
    obtain ⟨-, above, below, -⟩ := mem_spots member
    refine load_kept small same (mem_kept_of_volatile volatiles ?_)
      (protected_area (by omega) (by omega))
    exact List.mem_append_right _ (.tail _ (mem_keptSpots _ _ member))
  case ctr =>
    intro volatiles
    obtain ⟨middle, last, finish⟩ := ordered volatiles
    refine load_kept small same (mem_kept_of_volatile volatiles ?_)
      (protected_area (by omega) (by omega))
    exact List.mem_append_right _ (.head _)

end Lasting

end PowerAsm.Proofs.FrameSaves
