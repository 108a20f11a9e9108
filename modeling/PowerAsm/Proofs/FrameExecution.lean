import PowerAsm.Proofs.FrameSaves

/-! What the code of a frame does on the machine. The prolog moves the stack pointer down by the
size of the frame and stores, at distances from it, the values that the registers had on entry;
an epilog run where these values still lie in memory loads them back. -/
namespace PowerAsm.Proofs.FrameExecution
open PowerAsm.Frame Emission FrameLayout FrameCode FrameSaves Memory Machine

section Words
variable {t : Target} (order : ByteOrder) (s : Machine t)

theorem exec_storeWord (r : Gpr) (a : Address) :
    s.exec? order (storeWord t r a) = some (s.store order a t.wordSize (s.gpr r)) := by
  cases t with
  | ppc32 => exact congrArg (fun v => some (s.store order a 4 v)) (BitVec.setWidth_eq (s.gpr r))
  | ppc64 => exact congrArg (fun v => some (s.store order a 8 v)) (BitVec.setWidth_eq (s.gpr r))

theorem exec_loadWord (r : Gpr) (a : Address) :
    s.exec? order (loadWord t r a) = some (s.setGpr r (s.load order a t.wordSize)) := by
  cases t with
  | ppc32 => exact congrArg (fun v => some (s.setGpr r v)) (BitVec.setWidth_eq (s.load order a 4))
  | ppc64 => exact congrArg (fun v => some (s.setGpr r v)) (BitVec.setWidth_eq (s.load order a 8))

theorem exec_updateWord (r : Gpr) (d : Int64) :
    s.exec? order (updateWord t r (.onStack d)) =
      some ((s.store order (.onStack d) t.wordSize (s.gpr r)).setGpr .sp
        (s.address (.onStack d))) := by
  cases t with
  | ppc32 =>
    exact congrArg (fun v => some ((s.store order (.onStack d) 4 v).setGpr .sp _))
      (BitVec.setWidth_eq (s.gpr r))
  | ppc64 =>
    exact congrArg (fun v => some ((s.store order (.onStack d) 8 v).setGpr .sp _))
      (BitVec.setWidth_eq (s.gpr r))

theorem address_of_nat (r : Gpr) {o : Nat} (small : o < 2 ^ 63) :
    s.address ⟨r, Int64.ofNat o⟩ = s.base r + BitVec.ofNat (width t) o := by
  show s.base r + BitVec.ofInt (width t) (Int64.ofNat o).toInt = _
  rw [Int64.toInt_ofNat_of_lt small, BitVec.ofInt_natCast]

theorem address_base {r : Gpr} (used : r ≠ .r0) {o : Nat} (small : o < 2 ^ 63) :
    s.address ⟨r, Int64.ofNat o⟩ = s.gpr r + BitVec.ofNat (width t) o := by
  rw [address_of_nat s r small, Machine.base, if_neg used]

theorem address_stack {o : Nat} (small : o < 2 ^ 63) :
    s.address (stack o) = s.gpr .sp + BitVec.ofNat (width t) o :=
  address_base s (by decide) small

end Words

/-- Registers other than the stack pointer and r0, at distances that an address can hold. -/
def Plain (l : List (Gpr × Nat)) : Prop := ∀ r o, (r, o) ∈ l → r ≠ .sp ∧ r ≠ .r0 ∧ o < 2 ^ 63

section Plain
variable {f : Frame}

theorem plain_volatileGprs : ∀ r ∈ volatileGprList, r ≠ .sp ∧ r ≠ .r0 := by
  decide

theorem plain_savedGprs {target : Target} {gs : List Grant} (built : Built target gs f) {r : Gpr}
    (member : r ∈ f.savedGprs) : r ≠ .sp ∧ r ≠ .r0 := by
  obtain ⟨n, large, small, rfl⟩ := savedGprs_number built member
  have value : (Int8.ofNat n).toInt = n := Int8.toInt_ofNat_of_lt (by omega)
  constructor
  · intro same
    have one : (Int8.ofNat n).toInt = 1 := congrArg (fun r => r.number.toInt) same
    omega
  · intro same
    have zero : (Int8.ofNat n).toInt = 0 := congrArg (fun r => r.number.toInt) same
    omega

variable {spare : Nat} (small : f.size + spare ≤ 32767)
include small

theorem plain_gprSpots {target : Target} {gs : List Grant} (built : Built target gs f) :
    Plain (gprSpots f) := by
  obtain ⟨-, -, -, inside, -⟩ := areas_ordered f
  intro r o member
  obtain ⟨known, -, place, -⟩ := mem_spots member
  obtain ⟨other, used⟩ := plain_savedGprs built known
  exact ⟨other, used, by omega⟩

theorem plain_volatileGprSpots (volatiles : f.preserveVolatiles = true) :
    Plain (volatileGprSpots f) := by
  obtain ⟨-, -, inside, -⟩ := volatiles_inside volatiles
  intro r o member
  obtain ⟨known, -, place, -⟩ := mem_spots member
  obtain ⟨other, used⟩ := plain_volatileGprs r known
  exact ⟨other, used, by omega⟩

theorem near_fprSpots : ∀ r o, (r, o) ∈ fprSpots f → o < 2 ^ 63 := by
  obtain ⟨-, -, -, -, inside⟩ := areas_ordered f
  intro r o member
  obtain ⟨-, -, place, -⟩ := mem_spots member
  omega

theorem near_volatileFprSpots (volatiles : f.preserveVolatiles = true) :
    ∀ r o, (r, o) ∈ volatileFprSpots f → o < 2 ^ 63 := by
  obtain ⟨-, -, -, -, inside⟩ := volatiles_inside volatiles
  intro r o member
  obtain ⟨-, -, place, -⟩ := mem_spots member
  omega

end Plain

section Prolog
variable {t : Target} {order : ByteOrder} {s : Machine t} {p z : BitVec (width t)}
  {m : Memory (width t)}

/-- The machine with another stack pointer, another r0 and another memory. -/
def shifted (s : Machine t) (p z : BitVec (width t)) (m : Memory (width t)) : Machine t :=
  { s with gpr := fun r => if r = .sp then p else if r = .r0 then z else s.gpr r, memory := m }

theorem shifted_self (s : Machine t) : shifted s (s.gpr .sp) (s.gpr .r0) s.memory = s := by
  have same : (fun r => if r = .sp then s.gpr .sp else if r = .r0 then s.gpr .r0 else s.gpr r) =
      s.gpr := by
    funext r
    by_cases pointer : r = .sp
    · rw [if_pos pointer, pointer]
    · by_cases zero : r = .r0
      · rw [if_neg pointer, if_pos zero, zero]
      · rw [if_neg pointer, if_neg zero]
  rw [shifted, same]

theorem gpr_shifted {r : Gpr} (other : r ≠ .sp) (used : r ≠ .r0) :
    (shifted s p z m).gpr r = s.gpr r :=
  (if_neg other).trans (if_neg used)

theorem setGpr_r0 (v : BitVec (width t)) : (shifted s p z m).setGpr .r0 v = shifted s p v m := by
  have same : (fun r => if r = .r0 then v else (shifted s p z m).gpr r) =
      fun r => if r = .sp then p else if r = .r0 then v else s.gpr r := by
    funext r
    by_cases zero : r = .r0
    · subst zero
      rfl
    · by_cases pointer : r = .sp
      · subst pointer
        rfl
      · rw [if_neg zero, if_neg pointer, if_neg zero, gpr_shifted pointer zero]
  rw [setGpr, same]
  rfl

theorem setGpr_sp (q : BitVec (width t)) : (shifted s p z m).setGpr .sp q = shifted s q z m := by
  have same : (fun r => if r = .sp then q else (shifted s p z m).gpr r) =
      fun r => if r = .sp then q else if r = .r0 then z else s.gpr r := by
    funext r
    by_cases pointer : r = .sp
    · rw [if_pos pointer, if_pos pointer]
    · rw [if_neg pointer, if_neg pointer]
      exact if_neg pointer
  rw [setGpr, same]
  rfl

theorem store_shifted {o : Nat} (small : o < 2 ^ 63) (n : Nat) (v : BitVec (8 * n)) :
    (shifted s p z m).store order (stack o) n v =
      shifted s p z (Memory.store order m (p + BitVec.ofNat (width t) o) n v) := by
  rw [Machine.store, address_stack (shifted s p z m) small]
  rfl

variable {f : Frame} {s : Machine f.target} {p z : BitVec (width f.target)}
  {m : Memory (width f.target)}

theorem exec_storeGprs {l : List (Gpr × Nat)} (plain : Plain l) :
    execAll? (exec? order) (storeGprs f l) (shifted s p z m) =
      some (shifted s p z (storeAll order p m (keptSpots f.target.wordSize s.gpr l))) := by
  refine execAll_map _ (fun done => shifted s p z (storeAll order p m (keptSpots _ s.gpr done)))
    fun done x rest whole => ?_
  obtain ⟨r, o⟩ := x
  obtain ⟨other, used, small⟩ := plain r o (by rw [← whole]; exact List.mem_append_cons_self)
  rw [exec_storeWord, store_shifted small, gpr_shifted other used, storeAll_snoc]

theorem exec_storeFprs {l : List (Fpr × Nat)} (near : ∀ r o, (r, o) ∈ l → o < 2 ^ 63) :
    execAll? (exec? order) (storeFprs l) (shifted s p z m) =
      some (shifted s p z (storeAll order p m (keptSpots fprSize s.fpr l))) := by
  refine execAll_map _ (fun done => shifted s p z (storeAll order p m (keptSpots 8 s.fpr done)))
    fun done x rest whole => ?_
  obtain ⟨r, o⟩ := x
  have small := near r o (by rw [← whole]; exact List.mem_append_cons_self)
  rw [storeAll_snoc]
  exact congrArg some (store_shifted small 8 (s.fpr r))

theorem exec_storeScratch {o : Nat} (small : o < 2 ^ 63) :
    (shifted s p z m).exec? order (storeWord f.target .r0 (stack o)) =
      some (shifted s p z (Memory.store order m (p + BitVec.ofNat _ o) f.target.wordSize z)) := by
  rw [exec_storeWord, store_shifted small]
  rfl

theorem exec_loadScratch {o : Nat} (small : o < 2 ^ 63) :
    (shifted s p z m).exec? order (loadWord f.target .r0 (stack o)) =
      some (shifted s p (Memory.load order m (p + BitVec.ofNat _ o) f.target.wordSize) m) := by
  rw [exec_loadWord, setGpr_r0, Machine.load, address_stack _ small]
  rfl

theorem exec_moveFrom_lr :
    (shifted s p z m).exec? order (moveFrom .lr) = some (shifted s p s.lr m) :=
  congrArg some (setGpr_r0 s.lr)

theorem exec_moveFrom_ctr :
    (shifted s p z m).exec? order (moveFrom .ctr) = some (shifted s p s.ctr m) :=
  congrArg some (setGpr_r0 s.ctr)

/-- The stack pointer moves down by the size of the frame, and the old one is stored there. -/
theorem exec_below {spare : Nat} (small : f.size + spare ≤ 32767) :
    (shifted s p z m).exec? order (updateWord f.target .sp (below f)) =
      some (shifted s (p - BitVec.ofNat _ f.size) z
        (Memory.store order m (p - BitVec.ofNat _ f.size) f.target.wordSize p)) := by
  have down : (shifted s p z m).address (below f) = p - BitVec.ofNat _ f.size := by
    show p + BitVec.ofInt _ (-f.sizeOffset).toInt = _
    rw [neg_sizeOffset_toInt small, BitVec.ofInt_neg, BitVec.ofInt_natCast, BitVec.sub_eq_add_neg]
  rw [below] at down ⊢
  rw [exec_updateWord, Machine.store, down]
  exact congrArg some (setGpr_sp _)

theorem link_place (p : BitVec (width f.target)) :
    p - BitVec.ofNat _ f.size + BitVec.ofNat _ (lrStart f) =
      p + BitVec.ofNat _ f.target.lrSaveOffset := by
  rw [lrStart, BitVec.ofNat_add, ← BitVec.add_assoc, BitVec.sub_add_cancel]

/-- The frame of the machine is below the stack pointer of the caller. -/
def lowered (f : Frame) (s : Machine f.target) : BitVec (width f.target) :=
  s.gpr .sp - BitVec.ofNat _ f.size

theorem narrow_wide (cr : BitVec 32) : (cr.setWidth (width f.target)).setWidth (8 * 4) = cr := by
  have wide : 32 ≤ width f.target := by
    have word := (geometry f).word
    rw [width]
    omega
  rw [BitVec.setWidth_setWidth_of_le _ wide, BitVec.setWidth_eq]

/-- What the prolog leaves in r0. -/
def scratch (f : Frame) (s : Machine f.target) : BitVec (width f.target) :=
  if f.preserveVolatiles then s.gpr .r0 else if 0 < f.crFields then s.cr.setWidth _ else s.lr

section Blocks
variable {target : Target} {gs : List Grant} {spare : Nat} (small : f.size + spare ≤ 32767)
include small

theorem exec_allocate : execAll? (exec? order) (allocateCode f) s =
    some (shifted s (lowered f s) s.lr (storeAll order (lowered f s) s.memory (keptLink f s))) := by
  have started : execAll? (exec? order) (allocateCode f) (shifted s (s.gpr .sp) (s.gpr .r0) s.memory) =
      some (shifted s (lowered f s) s.lr
        (storeAll order (lowered f s) s.memory (keptLink f s))) := by
    obtain ⟨first, second, third, -⟩ := areas_ordered f
    have link := (geometry f).lr.2
    have offset : f.target.lrSaveOffset ≤ lrStart f := Nat.le_add_left _ _
    rw [allocateCode, keptLink]
    by_cases volatiles : f.preserveVolatiles = true
    · rw [if_pos volatiles, if_pos volatiles, execAll_cons (exec_below small),
        execAll_cons (exec_storeScratch (by omega)), execAll_cons exec_moveFrom_lr,
        execAll_cons (exec_storeScratch (by omega))]
      simp only [storeAll, List.foldl, BitVec.add_zero]
      rfl
    · rw [if_neg volatiles, if_neg volatiles, execAll_cons exec_moveFrom_lr,
        execAll_cons (exec_storeScratch (by omega)), execAll_cons (exec_below small)]
      simp only [storeAll, List.foldl, BitVec.add_zero, lowered, link_place]
      rfl
  rwa [shifted_self] at started

theorem exec_storeVolatiles (volatiles : f.preserveVolatiles = true) :
    execAll? (exec? order) (storeVolatilesCode f) (shifted s p z m) =
      some (shifted s p s.ctr (storeAll order p m (keptVolatiles f s))) := by
  obtain ⟨-, -, -, inside, -⟩ := volatiles_inside volatiles
  rw [storeVolatilesCode, execAll_append (exec_storeGprs (plain_volatileGprSpots small volatiles)), List.cons_append,
    execAll_cons exec_moveFrom_ctr, List.cons_append, execAll_cons (exec_storeScratch (by omega)),
    List.nil_append, exec_storeFprs (near_volatileFprSpots small volatiles), keptVolatiles, storeAll_append, storeAll_cons]

theorem exec_storeRegisters (built : Built target gs f) :
    execAll? (exec? order) (storeGprs f (gprSpots f) ++ storeFprs (fprSpots f)) (shifted s p z m) =
      some (shifted s p z (storeAll order p m
        (keptSpots f.target.wordSize s.gpr (gprSpots f) ++ keptSpots fprSize s.fpr (fprSpots f)))) := by
  rw [execAll_append (exec_storeGprs (plain_gprSpots small built)),
    exec_storeFprs (near_fprSpots small), storeAll_append]

theorem exec_storeSaved (built : Built target gs f) :
    execAll? (exec? order) (storeSavedCode f) (shifted s p z m) =
      some (shifted s p (if 0 < f.crFields then s.cr.setWidth _ else z)
        (storeAll order p m (keptSaved f s))) := by
  rw [storeSavedCode, keptSaved]
  by_cases some : 0 < f.crFields
  · have place := (geometry f).cr some
    have link := (geometry f).lr.2
    obtain ⟨-, second, third, -⟩ := areas_ordered f
    have move : (shifted s p z m).exec? order ⟨.mfcr, (.r0, ())⟩ =
        .some (shifted s p (s.cr.setWidth _) m) := congrArg Option.some (setGpr_r0 _)
    have store : (shifted s p (s.cr.setWidth _) m).exec? order ⟨.stw, (.r0, stack (crStart f), ())⟩ =
        .some (shifted s p (s.cr.setWidth _)
          (Memory.store order m (p + BitVec.ofNat _ (crStart f)) 4 s.cr)) := by
      refine (congrArg Option.some (store_shifted (by omega) 4 _)).trans ?_
      exact congrArg (fun v => Option.some (shifted s p _ (Memory.store order m _ 4 v)))
        (narrow_wide s.cr)
    rw [if_pos some, if_pos some, if_pos some, List.cons_append, execAll_cons move,
      List.cons_append, execAll_cons store, List.nil_append, exec_storeRegisters small built,
      List.singleton_append, storeAll_cons]
  · rw [if_neg some, if_neg some, if_neg some]
    exact exec_storeRegisters small built

/-- The prolog as a whole. The word in r0 is the one that was moved through it last, unless r0
is preserved. -/
theorem exec_prolog (built : Built target gs f) :
    execAll? (exec? order) (prologCode f) s =
      some (shifted s (lowered f s) (scratch f s)
        (storeAll order (lowered f s) s.memory (kept f s))) := by
  by_cases volatiles : f.preserveVolatiles = true
  · obtain ⟨first, second, third, -⟩ := areas_ordered f
    have held : Held order f s (storeAll order (lowered f s) s.memory (kept f s)) (lowered f s) :=
      held_kept small fun o lasting => rfl
    have reload (z : BitVec (width f.target)) :
        (shifted s (lowered f s) z (storeAll order (lowered f s) s.memory (kept f s))).exec? order
            (loadWord f.target .r0 (stack (areaStart f))) =
          some (shifted s (lowered f s) (s.gpr .r0)
            (storeAll order (lowered f s) s.memory (kept f s))) := by
      rw [exec_loadScratch (by omega), held.r0 volatiles]
    have whole : storeAll order (lowered f s) s.memory (kept f s) =
        storeAll order (lowered f s) (storeAll order (lowered f s)
          (storeAll order (lowered f s) s.memory (keptLink f s)) (keptVolatiles f s))
          (keptSaved f s) := by
      rw [kept, if_pos volatiles, storeAll_append, storeAll_append]
    rw [prologCode, if_pos volatiles, if_pos volatiles, execAll_append (exec_allocate small),
      execAll_append (exec_storeVolatiles small volatiles),
      execAll_append (exec_storeSaved small built), ← whole, execAll_cons (reload _), scratch,
      if_pos volatiles, execAll_nil]
  · rw [prologCode, if_neg volatiles, if_neg volatiles, execAll_append (exec_allocate small),
      List.nil_append, List.append_nil, exec_storeSaved small built, kept, if_neg volatiles,
      List.nil_append, storeAll_append, scratch, if_neg volatiles]

end Blocks

end Prolog

section Replaced
variable {α β : Type} [DecidableEq α] (g v : α → β)

/-- A register file in which the registers of a list have other contents. -/
def replaced (rs : List α) : α → β := fun r => if r ∈ rs then v r else g r

theorem replaced_nil : replaced g v [] = g := by
  funext r
  exact if_neg List.not_mem_nil

theorem replaced_of_mem {rs : List α} {r : α} (member : r ∈ rs) : replaced g v rs r = v r :=
  if_pos member

theorem replaced_of_not_mem {rs : List α} {r : α} (other : r ∉ rs) : replaced g v rs r = g r :=
  if_neg other

theorem replaced_congr {rs rs' : List α} (same : ∀ r, r ∈ rs ↔ r ∈ rs') :
    replaced g v rs = replaced g v rs' := by
  funext r
  simp only [replaced, same]

theorem replaced_snoc (rs : List α) (r : α) :
    (fun x => if x = r then v r else replaced g v rs x) = replaced g v (rs ++ [r]) := by
  funext x
  by_cases here : x = r
  · rw [if_pos here, here]
    exact (replaced_of_mem g v List.mem_append_cons_self).symm
  · have known : x ∈ rs ++ [r] ↔ x ∈ rs := by
      rw [List.mem_append, List.mem_singleton, or_iff_left here]
    rw [if_neg here]
    simp only [replaced, known]

end Replaced

section Loads
variable {order : ByteOrder} {f : Frame} {s : Machine f.target}

theorem exec_loadGprs {l : List (Gpr × Nat)} {v : Gpr → BitVec (width f.target)}
    (plain : Plain l)
    (held : ∀ r o, (r, o) ∈ l →
      Memory.load order s.memory (s.gpr .sp + BitVec.ofNat _ o) f.target.wordSize = v r) :
    execAll? (exec? order) (loadGprs f l) s =
      some { s with gpr := replaced s.gpr v (l.map Prod.fst) } := by
  have step : ∀ done x rest, done ++ x :: rest = l.reverse →
      exec? order { s with gpr := replaced s.gpr v (done.map Prod.fst) }
          (loadWord f.target x.1 (stack x.2)) =
        some { s with gpr := replaced s.gpr v ((done ++ [x]).map Prod.fst) } := by
    intro done ⟨r, o⟩ rest whole
    have listed : ∀ y ∈ done ++ (r, o) :: rest, y ∈ l := by
      intro y member
      rwa [whole, List.mem_reverse] at member
    have known := listed _ List.mem_append_cons_self
    have pointer : Gpr.sp ∉ done.map Prod.fst := by
      intro member
      obtain ⟨⟨q, place⟩, inside, same⟩ := List.mem_map.mp member
      exact (plain q place (listed _ (List.mem_append_left _ inside))).1 same
    have value := held r o known
    rw [← replaced_of_not_mem s.gpr v pointer] at value
    rw [exec_loadWord, Machine.load, address_stack _ (plain r o known).2.2, List.map_append]
    refine (congrArg (fun v => some (setGpr _ r v)) value).trans ?_
    exact congrArg (fun g => some { s with gpr := g }) (replaced_snoc s.gpr v _ r)
  have run := execAll_map _ (fun done => { s with gpr := replaced s.gpr v (done.map Prod.fst) }) step
  rw [List.map_nil, replaced_nil] at run
  refine run.trans (congrArg (fun g => some { s with gpr := g }) ?_)
  refine replaced_congr s.gpr v fun r => ?_
  rw [List.map_reverse, List.mem_reverse]

theorem exec_loadFprs {l : List (Fpr × Nat)} {v : Fpr → BitVec 64}
    (near : ∀ r o, (r, o) ∈ l → o < 2 ^ 63)
    (held : ∀ r o, (r, o) ∈ l →
      Memory.load order s.memory (s.gpr .sp + BitVec.ofNat _ o) fprSize = v r) :
    execAll? (exec? order) (loadFprs l) s = some { s with fpr := replaced s.fpr v (l.map Prod.fst) } := by
  have step : ∀ done x rest, done ++ x :: rest = l.reverse →
      exec? order { s with fpr := replaced s.fpr v (done.map Prod.fst) }
          ⟨.lfd, (x.1, stack x.2, ())⟩ =
        some { s with fpr := replaced s.fpr v ((done ++ [x]).map Prod.fst) } := by
    intro done ⟨r, o⟩ rest whole
    have known : (r, o) ∈ l := by
      rw [← List.mem_reverse, ← whole]
      exact List.mem_append_cons_self
    have value := held r o known
    rw [← address_stack s (near r o known)] at value
    rw [List.map_append]
    refine (congrArg (fun v => some (setFpr _ r v)) value).trans ?_
    exact congrArg (fun g => some { s with fpr := g }) (replaced_snoc s.fpr v _ r)
  have run := execAll_map _ (fun done => { s with fpr := replaced s.fpr v (done.map Prod.fst) }) step
  rw [List.map_nil, replaced_nil] at run
  refine run.trans (congrArg (fun g => some { s with fpr := g }) ?_)
  refine replaced_congr s.fpr v fun r => ?_
  rw [List.map_reverse, List.mem_reverse]

end Loads

section Epilog
variable {order : ByteOrder} {f : Frame} {target : Target} {gs : List Grant}

/-- The machine `s` with the registers of the frame as they were in `e`. -/
def reloaded (f : Frame) (e s : Machine f.target) : Machine f.target :=
  { s with
    gpr := replaced s.gpr e.gpr f.savedGprs
    fpr := replaced s.fpr e.fpr f.savedFprs }

/-- The machine `s` with the condition fields of the frame as they were in `e`. -/
def recovered (f : Frame) (e s : Machine f.target) : Machine f.target :=
  if 0 < f.crFields then
    { s.setGpr .r0 (e.cr.setWidth _) with cr := replaceFields s.cr e.cr f.crMask }
  else s

/-- The machine `s` with the volatile registers but r0 as they were in `e`. -/
def reloadedVolatiles {t : Target} (e s : Machine t) : Machine t :=
  { s with
    gpr := replaced (s.setGpr .r0 e.ctr).gpr e.gpr volatileGprList
    fpr := replaced s.fpr e.fpr volatileFprList
    ctr := e.ctr }

/-- The machine `s` with the stack pointer and the return address as they were in `e`. -/
def freed (f : Frame) (e s : Machine f.target) : Machine f.target :=
  shifted { s with lr := e.lr } (e.gpr .sp) (if f.preserveVolatiles then e.gpr .r0 else e.lr)
    s.memory

theorem reloaded_sp (built : Built target gs f) (e s : Machine f.target) :
    (reloaded f e s).gpr .sp = s.gpr .sp :=
  replaced_of_not_mem _ _ fun member => (plain_savedGprs built member).1 rfl

theorem recovered_gpr (e s : Machine f.target) {r : Gpr} (other : r ≠ .r0) :
    (recovered f e s).gpr r = s.gpr r := by
  rw [recovered]
  split
  · exact if_neg other
  · rfl

theorem recovered_fpr (e s : Machine f.target) : (recovered f e s).fpr = s.fpr := by
  rw [recovered]
  split <;> rfl

theorem recovered_memory (e s : Machine f.target) : (recovered f e s).memory = s.memory := by
  rw [recovered]
  split <;> rfl

theorem reloadedVolatiles_sp {t : Target} (e s : Machine t) :
    (reloadedVolatiles e s).gpr .sp = s.gpr .sp :=
  replaced_of_not_mem _ e.gpr fun member => (plain_volatileGprs _ member).1 rfl

theorem exec_moveTo_lr {s : Machine f.target} {p z : BitVec (width f.target)}
    {m : Memory (width f.target)} :
    (shifted s p z m).exec? order (moveTo .lr) = some (shifted { s with lr := z } p z m) :=
  rfl

theorem exec_above {s : Machine f.target} {p z : BitVec (width f.target)}
    {m : Memory (width f.target)} {spare : Nat} (small : f.size + spare ≤ 32767) :
    (shifted s p z m).exec? order ⟨.addi, (.sp, .sp, f.sizeOffset, ())⟩ =
      some (shifted s (p + BitVec.ofNat _ f.size) z m) := by
  have size : number f.sizeOffset = BitVec.ofNat (width f.target) f.size := by
    rw [number, sizeOffset_toInt small, BitVec.ofInt_natCast]
  rw [← size]
  exact congrArg some (setGpr_sp _)

/-- The machine `s` with all registers that the frame keeps as they were in `e`, before the
frame is freed. -/
def restored (f : Frame) (e s : Machine f.target) : Machine f.target :=
  if f.preserveVolatiles then reloadedVolatiles e (recovered f e (reloaded f e s))
  else recovered f e (reloaded f e s)

variable {e s : Machine f.target} {spare : Nat} (small : f.size + spare ≤ 32767)
  (held : Held order f e s.memory (s.gpr .sp))
include small held

theorem exec_loadRegisters (built : Built target gs f) (rest : List Instr) :
    execAll? (exec? order) (loadFprs (fprSpots f) ++ (loadGprs f (gprSpots f) ++ rest)) s =
      execAll? (exec? order) rest (reloaded f e s) := by
  have first : execAll? (exec? order) (loadFprs (fprSpots f)) s =
      some { s with fpr := replaced s.fpr e.fpr f.savedFprs } := by
    rw [exec_loadFprs (near_fprSpots small) held.fprs, fprSpots, registers_spots]
  have second := exec_loadGprs (s := { s with fpr := replaced s.fpr e.fpr f.savedFprs })
    (plain_gprSpots small built) held.gprs
  rw [gprSpots, registers_spots, ← gprSpots] at second
  rw [execAll_append first, execAll_append second, reloaded]

theorem exec_recover (some : 0 < f.crFields) :
    execAll? (exec? order) [⟨.lwz, (.r0, stack (crStart f), ())⟩, ⟨.mtcrf, (f.crMask, .r0, ())⟩] s =
      .some { s.setGpr .r0 (e.cr.setWidth _) with cr := replaceFields s.cr e.cr f.crMask } := by
  have place := (geometry f).cr some
  have link := (geometry f).lr.2
  obtain ⟨-, second, third, -⟩ := areas_ordered f
  have value := held.cr some
  rw [← address_stack s (by omega)] at value
  have load : s.exec? order ⟨.lwz, (.r0, stack (crStart f), ())⟩ =
      .some (s.setGpr .r0 (e.cr.setWidth _)) :=
    congrArg (fun v => Option.some (s.setGpr .r0 (BitVec.setWidth _ v))) value
  have move : (s.setGpr .r0 (e.cr.setWidth _)).exec? order ⟨.mtcrf, (f.crMask, .r0, ())⟩ =
      .some { s.setGpr .r0 (e.cr.setWidth _) with cr := replaceFields s.cr e.cr f.crMask } :=
    congrArg (fun v => Option.some (
      { s.setGpr .r0 (e.cr.setWidth _) with cr := replaceFields s.cr v f.crMask } : Machine _))
      (narrow_wide e.cr)
  rw [execAll_cons load, execAll_cons move, execAll_nil]

theorem exec_loadSaved (built : Built target gs f) :
    execAll? (exec? order) (loadSavedCode f) s = some (recovered f e (reloaded f e s)) := by
  have still : Held order f e (reloaded f e s).memory ((reloaded f e s).gpr .sp) := by
    rwa [reloaded_sp built]
  rw [loadSavedCode, exec_loadRegisters small held built, recovered]
  by_cases some : 0 < f.crFields
  · rw [if_pos some, if_pos some, exec_recover small still some]
  · rw [if_neg some, if_neg some, execAll_nil]

theorem exec_loadVolatiles (volatiles : f.preserveVolatiles = true) :
    execAll? (exec? order) (loadVolatilesCode f) s = some (reloadedVolatiles e s) := by
  obtain ⟨-, -, -, inside, -⟩ := volatiles_inside volatiles
  have first : execAll? (exec? order) (loadFprs (volatileFprSpots f)) s =
      some { s with fpr := replaced s.fpr e.fpr volatileFprList } := by
    rw [exec_loadFprs (near_volatileFprSpots small volatiles) (held.volatileFprs volatiles),
      volatileFprSpots, registers_spots]
  have count : exec? order { s with fpr := replaced s.fpr e.fpr volatileFprList }
      (loadWord f.target .r0 (stack (ctrStart f))) =
        some { s.setGpr .r0 e.ctr with fpr := replaced s.fpr e.fpr volatileFprList } := by
    rw [exec_loadWord, Machine.load, address_stack _ (by omega)]
    exact congrArg (fun v => some (setGpr _ .r0 v)) (held.ctr volatiles)
  have move : exec? order { s.setGpr .r0 e.ctr with fpr := replaced s.fpr e.fpr volatileFprList }
      (moveTo .ctr) =
        some { s.setGpr .r0 e.ctr with
          fpr := replaced s.fpr e.fpr volatileFprList
          ctr := e.ctr } := rfl
  have last := exec_loadGprs
    (s := { s.setGpr .r0 e.ctr with
      fpr := replaced s.fpr e.fpr volatileFprList
      ctr := e.ctr }) (plain_volatileGprSpots small volatiles) (held.volatileGprs volatiles)
  rw [volatileGprSpots, registers_spots, ← volatileGprSpots] at last
  rw [loadVolatilesCode, execAll_append first, List.cons_append, execAll_cons count,
    List.cons_append, execAll_cons move, List.nil_append, last, reloadedVolatiles]
  rfl

theorem exec_free (pointer : s.gpr .sp = lowered f e) :
    execAll? (exec? order) (freeCode f) s = some (freed f e s) := by
  have started : execAll? (exec? order) (freeCode f) (shifted s (s.gpr .sp) (s.gpr .r0) s.memory) =
      some (freed f e s) := by
    obtain ⟨first, second, third, -⟩ := areas_ordered f
    have link := (geometry f).lr.2
    have offset : f.target.lrSaveOffset ≤ lrStart f := Nat.le_add_left _ _
    have top : s.gpr .sp + BitVec.ofNat _ f.size = e.gpr .sp := by
      rw [pointer, lowered, BitVec.sub_add_cancel]
    have value := held.lr
    rw [freeCode, freed]
    by_cases volatiles : f.preserveVolatiles = true
    · rw [if_pos volatiles, if_pos volatiles, execAll_cons (exec_loadScratch (by omega)), value,
        execAll_cons exec_moveTo_lr, execAll_cons (exec_loadScratch (by omega)),
        held.r0 volatiles, execAll_cons (exec_above small), top, execAll_nil]
    · rw [pointer, lowered, link_place] at value
      rw [if_neg volatiles, if_neg volatiles, execAll_cons (exec_above small), top,
        execAll_cons (exec_loadScratch (by omega)), value, execAll_cons exec_moveTo_lr, execAll_nil]
  rwa [shifted_self] at started

/-- An epilog as a whole. Until the frame is freed, memory and stack pointer stay as they are. -/
theorem exec_epilog (built : Built target gs f) (pointer : s.gpr .sp = lowered f e) :
    execAll? (exec? order) (epilogCode f) s = some (freed f e (restored f e s)) := by
  have first := exec_loadSaved small held built
  have still : (recovered f e (reloaded f e s)).gpr .sp = s.gpr .sp :=
    (recovered_gpr e _ (by decide)).trans (reloaded_sp built e s)
  have later : Held order f e (recovered f e (reloaded f e s)).memory
      ((recovered f e (reloaded f e s)).gpr .sp) := by
    rwa [recovered_memory, still]
  rw [← still] at pointer
  rw [epilogCode, execAll_append first, restored]
  by_cases volatiles : f.preserveVolatiles = true
  · have unmoved := reloadedVolatiles_sp e (recovered f e (reloaded f e s))
    rw [if_pos volatiles, if_pos volatiles,
      execAll_append (exec_loadVolatiles small later volatiles)]
    refine exec_free small ?_ (unmoved.trans pointer)
    rw [unmoved]
    exact later
  · rw [if_neg volatiles, if_neg volatiles, List.nil_append]
    exact exec_free small later pointer

end Epilog

end PowerAsm.Proofs.FrameExecution
