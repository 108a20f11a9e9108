import PowerAsm.Proofs.FrameExecution

/-! Prologs and epilogs undo each other. Whatever a frame has handed out, the code between its
prolog and an epilog may use; when the epilog has run, the caller finds it as it was. -/
namespace PowerAsm.Proofs.FrameSymmetry
open PowerAsm.Frame Emission FrameLayout FrameCode FrameSaves FrameExecution Storage Machine

section Fields
variable {target : Target} {gs : List Grant} {f : Frame}

/-- Where a field of the condition register starts, counted in fields from the end. -/
def fieldPlace (c : CrField) : Nat := 7 - c.number.toInt.toNat

/-- The mask of a frame selects its fields as a whole and no others. -/
theorem fieldBits_crMask (built : Built target gs f) : ∀ k < 8,
    (fieldBits f.crMask).extractLsb' (4 * k) 4 =
      if 3 ≤ k ∧ k < 3 + f.crFields then 15#4 else 0#4 := by
  obtain ⟨count, mask⟩ | ⟨count, mask⟩ | ⟨count, mask⟩ | ⟨count, mask⟩ := mask_cases built <;>
    rw [count, mask] <;> decide

theorem mem_savedFields (built : Built target gs f) (c : CrField) :
    c ∈ savedFields f ↔ 3 ≤ fieldPlace c ∧ fieldPlace c < 3 + f.crFields := by
  have few := built.crFields
  rw [maxCrFields] at few
  rw [savedFields, List.mem_map]
  constructor
  · rintro ⟨i, inside, rfl⟩
    rw [List.mem_range] at inside
    have value : (Int8.ofNat (4 - i)).toInt = (4 - i : Nat) := Int8.toInt_ofNat_of_lt (by omega)
    rw [fieldPlace, value]
    omega
  · rintro ⟨above, below⟩
    rw [fieldPlace] at above below
    refine ⟨4 - c.number.toInt.toNat, List.mem_range.mpr (by omega), ?_⟩
    have value : (Int8.ofNat (4 - (4 - c.number.toInt.toNat))).toInt = c.number.toInt := by
      rw [Int8.toInt_ofNat_of_lt (by omega)]
      omega
    exact congrArg CrField.mk (Int8.toInt_inj.mp value)

section Replace
variable {cr new : BitVec 32} {mask : Int64} {k : Nat}

theorem replaceFields_selected (selected : (fieldBits mask).extractLsb' (4 * k) 4 = 15#4) :
    (replaceFields cr new mask).extractLsb' (4 * k) 4 = new.extractLsb' (4 * k) 4 := by
  have ones : ∀ j < 4, (15#4).getLsbD j = true := by decide
  apply BitVec.eq_of_getLsbD_eq
  intro j bound
  have bit := congrArg (fun v => v.getLsbD j) selected
  simp only [BitVec.getLsbD_extractLsb', ones j bound, bound, decide_true, Bool.true_and] at bit
  simp only [replaceFields, BitVec.getLsbD_extractLsb', BitVec.getLsbD_or, BitVec.getLsbD_and,
    BitVec.getLsbD_not, bit, Bool.and_true, Bool.not_true, Bool.and_false, Bool.or_false]

theorem replaceFields_other (inside : k < 8)
    (other : (fieldBits mask).extractLsb' (4 * k) 4 = 0#4) :
    (replaceFields cr new mask).extractLsb' (4 * k) 4 = cr.extractLsb' (4 * k) 4 := by
  apply BitVec.eq_of_getLsbD_eq
  intro j bound
  have low : 4 * k + j < 32 := by omega
  have bit := congrArg (fun v => v.getLsbD j) other
  simp only [BitVec.getLsbD_extractLsb', BitVec.getLsbD_zero, bound, decide_true,
    Bool.true_and] at bit
  simp only [replaceFields, BitVec.getLsbD_extractLsb', BitVec.getLsbD_or, BitVec.getLsbD_and,
    BitVec.getLsbD_not, bit, low, decide_true, Bool.and_false, Bool.false_or, Bool.not_false,
    Bool.and_true]

end Replace

/-- Moving the condition register back restores the fields of the frame and leaves the others
alone. -/
theorem field_recovered (built : Built target gs f) (e s : Machine f.target) (c : CrField) :
    (recovered f e s).field c = if c ∈ savedFields f then e.field c else s.field c := by
  have place : fieldPlace c < 8 := by
    rw [fieldPlace]
    omega
  have bits := fieldBits_crMask built (fieldPlace c) place
  have range := mem_savedFields built c
  by_cases some : 0 < f.crFields
  · rw [recovered, if_pos some]
    by_cases own : c ∈ savedFields f
    · rw [if_pos (range.mp own)] at bits
      rw [if_pos own]
      exact replaceFields_selected bits
    · rw [if_neg fun inside => own (range.mpr inside)] at bits
      rw [if_neg own]
      exact replaceFields_other place bits
  · have other : c ∉ savedFields f := by
      rw [range]
      omega
    rw [recovered, if_neg some, if_neg other]

end Fields

section Runs
variable {target : Target} {gs : List Grant} {f : Frame} {order : ByteOrder}

/-- What a prolog that runs from `s` to `s'` does to the registers: the frame lies below the
stack of the caller and starts with the old stack pointer, and only r0 is used. -/
structure Entered (order : ByteOrder) (f : Frame) (s s' : Machine f.target) : Prop where
  pointer : s'.gpr .sp = s.gpr .sp - BitVec.ofNat _ f.size
  chain : s'.load order (.onStack 0) f.target.wordSize = s.gpr .sp
  scratch : s'.gpr .r0 = if f.preserveVolatiles then s.gpr .r0
    else if 0 < f.crFields then s.cr.setWidth _ else s.lr
  gprs : ∀ r, r ≠ .sp → r ≠ .r0 → s'.gpr r = s.gpr r
  fprs : s'.fpr = s.fpr
  cr : s'.cr = s.cr
  lr : s'.lr = s.lr
  ctr : s'.ctr = s.ctr

/-- Code from `s` to `s'` that leaves the stack pointer and the places alone that have to
last. -/
structure Respects (f : Frame) (s s' : Machine f.target) : Prop where
  pointer : s'.gpr .sp = s.gpr .sp
  memory : ∀ o, Protected f o →
    s'.memory (s.gpr .sp + BitVec.ofNat _ o) = s.memory (s.gpr .sp + BitVec.ofNat _ o)

/-- What an epilog that runs from `s` to `s'` brings back from the machine `e` on entry, with
what the frame has handed out. -/
structure Returned {t : Target} (gs : List Grant) (e s s' : Machine t) : Prop where
  pointer : s'.gpr .sp = e.gpr .sp
  lr : s'.lr = e.lr
  gprs : ∀ r, .gpr r ∈ gs → s'.gpr r = e.gpr r
  fprs : ∀ r, .fpr r ∈ gs → s'.fpr r = e.fpr r
  fields : ∀ c, .field c ∈ gs → s'.field c = e.field c
  otherFields : ∀ c, .field c ∉ gs → s'.field c = s.field c
  r0 : .volatiles ∈ gs → s'.gpr .r0 = e.gpr .r0
  ctr : .volatiles ∈ gs → s'.ctr = e.ctr
  volatileGprs : .volatiles ∈ gs → ∀ n, 3 ≤ n → n ≤ 12 →
    s'.gpr ⟨Int8.ofNat n⟩ = e.gpr ⟨Int8.ofNat n⟩
  volatileFprs : .volatiles ∈ gs → ∀ n ≤ 13, s'.fpr ⟨Int8.ofNat n⟩ = e.fpr ⟨Int8.ofNat n⟩

theorem entered_prolog {spare : Nat} (small : f.size + spare ≤ 32767) (s : Machine f.target) :
    Entered order f s (shifted s (lowered f s) (scratch f s)
      (Memory.storeAll order (lowered f s) s.memory (kept f s))) where
  pointer := rfl
  chain := by
    have first : ⟨0, f.target.wordSize, s.gpr .sp⟩ ∈ kept f s := by
      refine List.mem_append_left _ ?_
      rw [keptLink]
      split
      · exact .head _
      · exact .tail _ (.head _)
    have stored := @Memory.load_storeAll _ order (lowered f s) s.memory _ (room_kept small)
      places_kept.2 _ first
    show Machine.load order _ (stack 0) _ = _
    rw [Machine.load, address_stack _ (by decide)]
    exact stored
  scratch := rfl
  gprs := fun r other used => gpr_shifted other used
  fprs := rfl
  cr := rfl
  lr := rfl
  ctr := rfl

theorem held_respected {spare : Nat} (small : f.size + spare ≤ 32767) {e s : Machine f.target}
    (respects : Respects f (shifted e (lowered f e) (scratch f e)
      (Memory.storeAll order (lowered f e) e.memory (kept f e))) s) :
    s.gpr .sp = lowered f e ∧ Held order f e s.memory (s.gpr .sp) := by
  have pointer : s.gpr .sp = lowered f e := respects.pointer
  rw [pointer]
  exact ⟨rfl, held_kept small respects.memory⟩

theorem restored_savedGpr (built : Built target gs f) (e s : Machine f.target) {r : Gpr}
    (member : r ∈ f.savedGprs) : (restored f e s).gpr r = e.gpr r := by
  have used := (plain_savedGprs built member).2
  have saved : (recovered f e (reloaded f e s)).gpr r = e.gpr r :=
    (recovered_gpr e _ used).trans (replaced_of_mem _ _ member)
  rw [restored]
  by_cases volatiles : f.preserveVolatiles = true
  · rw [if_pos volatiles]
    by_cases twice : r ∈ volatileGprList
    · exact replaced_of_mem _ _ twice
    · exact (replaced_of_not_mem _ _ twice).trans ((if_neg used).trans saved)
  · rw [if_neg volatiles]
    exact saved

theorem restored_savedFpr (e s : Machine f.target) {r : Fpr} (member : r ∈ f.savedFprs) :
    (restored f e s).fpr r = e.fpr r := by
  have saved : (recovered f e (reloaded f e s)).fpr r = e.fpr r := by
    rw [recovered_fpr]
    exact replaced_of_mem _ _ member
  rw [restored]
  by_cases volatiles : f.preserveVolatiles = true
  · rw [if_pos volatiles]
    by_cases twice : r ∈ volatileFprList
    · exact replaced_of_mem _ _ twice
    · exact (replaced_of_not_mem _ _ twice).trans saved
  · rw [if_neg volatiles]
    exact saved

theorem restored_field (built : Built target gs f) (e s : Machine f.target) (c : CrField) :
    (restored f e s).field c = if c ∈ savedFields f then e.field c else s.field c := by
  have same := field_recovered built e (reloaded f e s) c
  rw [restored]
  split
  · exact same
  · exact same

theorem mem_volatileGprs {n : Nat} (above : 3 ≤ n) (below : n ≤ 12) :
    ⟨Int8.ofNat n⟩ ∈ volatileGprList := by
  have inside : n - 3 ∈ List.range volatileGprs := by
    rw [List.mem_range, Frame.volatileGprs]
    omega
  refine List.mem_map.mpr ⟨n - 3, inside, ?_⟩
  rw [Nat.add_sub_cancel' above]

theorem mem_volatileFprs {n : Nat} (below : n ≤ 13) : ⟨Int8.ofNat n⟩ ∈ volatileFprList := by
  have inside : n ∈ List.range volatileFprs := by
    rw [List.mem_range, Frame.volatileFprs]
    omega
  exact List.mem_map.mpr ⟨n, inside, rfl⟩

theorem returned_epilog (built : Built target gs f) (e s : Machine f.target) :
    Returned gs e s (freed f e (restored f e s)) where
  pointer := rfl
  lr := rfl
  gprs := by
    intro r granted
    have member := (built.mem_gpr r).mp granted
    obtain ⟨other, used⟩ := plain_savedGprs built member
    exact (gpr_shifted other used).trans (restored_savedGpr built e s member)
  fprs := fun r granted => restored_savedFpr e s ((built.mem_fpr r).mp granted)
  fields := by
    intro c granted
    exact (restored_field built e s c).trans (if_pos ((built.mem_field c).mp granted))
  otherFields := by
    intro c other
    rw [built.mem_field c] at other
    exact (restored_field built e s c).trans (if_neg other)
  r0 := fun granted => if_pos (built.mem_volatiles.mp granted)
  ctr := by
    intro granted
    have same : (restored f e s).ctr = e.ctr := by
      rw [restored, if_pos (built.mem_volatiles.mp granted)]
      rfl
    exact same
  volatileGprs := by
    intro granted n above below
    have member := mem_volatileGprs above below
    obtain ⟨other, used⟩ := plain_volatileGprs _ member
    refine (gpr_shifted other used).trans ?_
    show (restored f e s).gpr _ = _
    rw [restored, if_pos (built.mem_volatiles.mp granted)]
    exact replaced_of_mem _ _ member
  volatileFprs := by
    intro granted n below
    show (restored f e s).fpr _ = _
    rw [restored, if_pos (built.mem_volatiles.mp granted)]
    exact replaced_of_mem _ _ (mem_volatileFprs below)

end Runs

section Writing
variable {f : Frame} {ws : List Word} {a b : Assembly} {bytes : List UInt8}

/-- Opening a frame writes its prolog and adds the frame to those of the assembler. -/
theorem enter_wrote (ran : f.emitProlog a = .ok () b) (wrote : Wrote a b bytes ws) :
    ∃ c o, f.enter a = .ok a.assembler.frames.size c ∧
      Written c.segment (bytes ++ ws.flatMap a.segment.order.bytes) ∧
      c.assembler.frames = a.assembler.frames.push o ∧ o.frame = f := by
  have reached : ¬ f.saveAreas.finish ≠ f.sizeOffset := by
    rw [saveAreas_eq, areas_end, sizeOffset, ne_eq, not_not]
  obtain ⟨log, same⟩ := wrote.assembler
  have entered : f.enter a = .ok a.assembler.frames.size ⟨b.segment, { b.assembler with
      frames := b.assembler.frames.push ⟨f, a.assembler.buffer.length a.segment, 0⟩ }⟩ := by
    simp only [enter, if_neg reached, bind_apply, offset_apply, ran, assembler_apply,
      modifyAssembler_apply, pure_apply]
    rw [same]
  refine ⟨_, ⟨f, a.assembler.buffer.length a.segment, 0⟩, entered, wrote.written, ?_, rfl⟩
  show b.assembler.frames.push _ = _
  rw [same]

theorem leave_wrote {index : Nat} {o : OpenFrame} (own : o.frame = f)
    (ran : f.emitEpilog a = .ok () b) (wrote : Wrote a b bytes ws) :
    ∃ c, leave index o a = .ok () c ∧
      Written c.segment (bytes ++ ws.flatMap a.segment.order.bytes) := by
  rw [leave, own, bind_apply, ran]
  exact ⟨_, rfl, wrote.written⟩

end Writing

/-- The words of the prolog and of every epilog of a frame. They can be written wherever the
segment has room for them; and code that respects the frame may stand between the two. -/
structure Symmetric (target : Target) (gs : List Grant) (f : Frame) (prolog epilog : List Word) :
    Prop where
  allowed : f.checkProlog target = .ok ()
  enter : ∀ a bytes, Written a.segment bytes → a.assembler.target = target →
    Room a.segment (bytes.length + 4 * prolog.length) →
    ∃ b o, f.enter a = .ok a.assembler.frames.size b ∧
      Written b.segment (bytes ++ prolog.flatMap a.segment.order.bytes) ∧
      b.assembler.frames = a.assembler.frames.push o ∧ o.frame = f
  leave : ∀ a bytes index o, Written a.segment bytes → a.assembler.target = target →
    o.frame = f → Room a.segment (bytes.length + 4 * epilog.length) →
    ∃ b, leave index o a = .ok () b ∧
      Written b.segment (bytes ++ epilog.flatMap a.segment.order.bytes)
  run : ∀ order (e : Machine f.target), ∃ entered, run? order prolog e = some entered ∧
    Entered order f e entered ∧ ∀ s, Respects f entered s →
      ∃ final, run? order epilog s = some final ∧ Returned gs e s final

/-- A frame that was built by requests, whatever they were, has a prolog and an epilog that
undo each other, as long as an instruction can name all its offsets. -/
theorem prolog_epilog_symmetric {target : Target} {requests : List Request} {gs : List Grant}
    {f : Frame} (granted : grantAll (.empty target) requests = .ok (gs, f))
    (small : f.size + 16 ≤ 32767) : ∃ prolog epilog, Symmetric target gs f prolog epilog := by
  have built : Built target gs f := (built_empty target).grantAll granted
  obtain rfl := built.target
  obtain ⟨prolog, first, writesProlog⟩ := emits_prolog built small
  obtain ⟨epilog, last, writesEpilog⟩ := emits_epilog built small
  refine ⟨prolog, epilog, ?_, ?_, ?_, ?_⟩
  · rw [checkProlog, built.unfrozen, if_neg Bool.false_ne_true, if_neg (not_not.mpr rfl)]
  · intro a bytes written target room
    obtain ⟨b, ran, wrote⟩ := writesProlog a bytes written target room
    exact enter_wrote ran wrote
  · intro a bytes index o written target own room
    obtain ⟨b, ran, wrote⟩ := writesEpilog a bytes written target room
    exact leave_wrote own ran wrote
  · intro order e
    have entered : execAll? (exec? order) (prologCode f) e = _ := exec_prolog small built
    refine ⟨_, (run_eq_execAll first e).trans entered, entered_prolog small e, fun s respects => ?_⟩
    obtain ⟨pointer, held⟩ := held_respected small respects
    have left := exec_epilog small held built pointer
    exact ⟨_, (run_eq_execAll last s).trans left, returned_epilog built e s⟩

/-- A frame with something of every kind. -/
theorem symmetric_of_each_request :
    grantAll (.empty .ppc64) [.parameterSlot, .localSlot, .conditionField, .generalRegister,
        .floatRegister, .volatileArea] =
      .ok ([.slot ⟨.sp, 48⟩, .slot ⟨.sp, 112⟩, .field ⟨4⟩, .gpr ⟨31⟩, .fpr ⟨31⟩, .volatiles],
        ⟨.ppc64, 8, 1, 1, 1, 1, true, false⟩) ∧
    Frame.size ⟨.ppc64, 8, 1, 1, 1, 1, true, false⟩ + 16 ≤ 32767 ∧
    ∃ prolog epilog, Symmetric .ppc64
      [.slot ⟨.sp, 48⟩, .slot ⟨.sp, 112⟩, .field ⟨4⟩, .gpr ⟨31⟩, .fpr ⟨31⟩, .volatiles]
      ⟨.ppc64, 8, 1, 1, 1, 1, true, false⟩ prolog epilog :=
  have granted : grantAll (.empty .ppc64) [.parameterSlot, .localSlot, .conditionField,
        .generalRegister, .floatRegister, .volatileArea] =
      .ok ([.slot ⟨.sp, 48⟩, .slot ⟨.sp, 112⟩, .field ⟨4⟩, .gpr ⟨31⟩, .fpr ⟨31⟩, .volatiles],
        ⟨.ppc64, 8, 1, 1, 1, 1, true, false⟩) := by decide
  ⟨granted, by decide, prolog_epilog_symmetric granted (by decide)⟩

end PowerAsm.Proofs.FrameSymmetry
