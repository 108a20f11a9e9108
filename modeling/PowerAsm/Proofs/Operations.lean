import PowerAsm.Frame.Prolog
import PowerAsm.Proofs.FrameLayout
import PowerAsm.Proofs.Storage
import PowerAsm.Source

/-! The operations of an assembler, and what all of them keep. Whatever is asked of an
assembler is done by writing words, filling in branches and changing what is known of
labels and frames. A property of assemblers that these steps keep therefore holds after
every operation, also after one that failed, and no operation fails because the save
areas of a frame miss its end. -/
namespace PowerAsm.Proofs.Operations
open Storage FrameLayout

/-- The state that is left when an action has succeeded or failed. -/
def after {ε σ α : Type} : EStateM.Result ε σ α → σ
  | .ok _ b => b
  | .error _ b => b

@[simp] theorem after_ok {ε σ α : Type} (v : α) (b : σ) :
    after (.ok v b : EStateM.Result ε σ α) = b := rfl

@[simp] theorem after_error {ε σ α : Type} (e : ε) (b : σ) :
    after (.error e b : EStateM.Result ε σ α) = b := rfl

/-- From a state with `P` the action leads to a state with `P`, and what it fails with
satisfies `R`. -/
structure Keeps {ε σ α : Type} (P : σ → Prop) (R : ε → Prop) (action : EStateM ε σ α) :
    Prop where
  state : ∀ a, P a → P (after (action a))
  fault : ∀ a e b, P a → action a = .error e b → R e

/-- What becomes of the state and how an action can fail are shown apart. -/
theorem keeps_of_state {ε σ α : Type} {P : σ → Prop} {R : ε → Prop} {action : EStateM ε σ α}
    (faults : Keeps (fun _ => True) R action) (state : ∀ a, P a → P (after (action a))) :
    Keeps P R action :=
  ⟨state, fun a e b _ failed => faults.fault a e b trivial failed⟩

/-- Not the fault of save areas that do not end where the frame ends. -/
def Expected (e : Fault) : Prop := ∀ reached size, e ≠ .defect (.frameLayout reached size)

theorem expected_encoding (e : EncodingError) : Expected (.encoding e) := fun _ _ same => nomatch same

theorem expected_branchRange (e : BranchRangeError) : Expected (.branchRange e) :=
  fun _ _ same => nomatch same

theorem expected_misuse (m : Misuse) : Expected (.misuse m) := fun _ _ same => nomatch same

theorem expected_outOfBounds : Expected .outOfBounds := fun _ _ same => nomatch same

/-- A result that, if there is none, is missing for a reason with `R`. -/
def FailsOnly {ε α : Type} (R : ε → Prop) (x : Except ε α) : Prop := ∀ e, x = .error e → R e

section Results
variable {ε α β : Type} {R : ε → Prop}

theorem failsOnly_error {e : ε} (allowed : R e) : FailsOnly R (.error e : Except ε α) := by
  intro e' failed
  cases failed
  exact allowed

theorem failsOnly_mapError {ε' : Type} {f : ε' → ε} (allowed : ∀ e, R (f e)) (x : Except ε' α) :
    FailsOnly R (x.mapError f) := by
  cases x with
  | ok _ => exact nofun
  | error e => exact failsOnly_error (allowed e)

theorem FailsOnly.bind {x : Except ε α} {f : α → Except ε β} (first : FailsOnly R x)
    (rest : ∀ v, FailsOnly R (f v)) : FailsOnly R (x >>= f) := by
  cases x with
  | ok v => exact rest v
  | error e => exact failsOnly_error (first e rfl)

theorem FailsOnly.ite {c : Prop} [Decidable c] {x y : Except ε α} (yes : FailsOnly R x)
    (no : FailsOnly R y) : FailsOnly R (if c then x else y) := by
  split
  · exact yes
  · exact no

end Results

section Sequences
variable {ε σ α β : Type} {P : σ → Prop} {R : ε → Prop}

theorem keeps_pure (v : α) : Keeps P R (pure v : EStateM ε σ α) where
  state := fun _ held => held
  fault := fun _ _ _ _ failed => nomatch failed

theorem keeps_throw {e : ε} (allowed : R e) : Keeps P R (throw e : EStateM ε σ α) where
  state := fun _ held => held
  fault := by
    intro a e' b held failed
    cases failed
    exact allowed

theorem keeps_get : Keeps P R (get : EStateM ε σ σ) where
  state := fun _ held => held
  fault := fun _ _ _ _ failed => nomatch failed

theorem keeps_modify {f : σ → σ} (kept : ∀ a, P a → P (f a)) :
    Keeps P R (modify f : EStateM ε σ PUnit) where
  state := kept
  fault := fun _ _ _ _ failed => nomatch failed

theorem Keeps.bind {x : EStateM ε σ α} {f : α → EStateM ε σ β} (first : Keeps P R x)
    (rest : ∀ v, Keeps P R (f v)) : Keeps P R (x >>= f) := by
  constructor
  · intro a held
    have next := first.state a held
    rw [bind_apply]
    cases ran : x a with
    | ok v b =>
      rw [ran] at next
      exact (rest v).state b next
    | error e b =>
      rw [ran] at next
      exact next
  · intro a e b held failed
    have next := first.state a held
    rw [bind_apply] at failed
    cases ran : x a with
    | ok v c =>
      rw [ran] at next failed
      exact (rest v).fault c e b next failed
    | error e' c =>
      rw [ran] at failed
      cases failed
      exact first.fault a e b held ran

theorem keeps_ofExcept {x : Except ε α} (allowed : FailsOnly R x) :
    Keeps P R (MonadExcept.ofExcept x : EStateM ε σ α) := by
  cases x with
  | ok v => exact keeps_pure v
  | error e => exact keeps_throw (allowed e rfl)

theorem Keeps.ite {c : Prop} [Decidable c] {x y : EStateM ε σ α} (yes : Keeps P R x)
    (no : Keeps P R y) : Keeps P R (if c then x else y) := by
  split
  · exact yes
  · exact no

/-- What would come after a failure does not matter. -/
theorem keeps_throw_bind {e : ε} {f : α → EStateM ε σ β} (allowed : R e) :
    Keeps P R ((throw e : EStateM ε σ α) >>= f) where
  state := fun _ held => held
  fault := (keeps_throw allowed : Keeps P R (throw e : EStateM ε σ β)).fault

theorem Keeps.forM {f : β → EStateM ε σ PUnit} (each : ∀ x, Keeps P R (f x))
    (items : List β) : Keeps P R (items.forM f) := by
  induction items with
  | nil => exact keeps_pure _
  | cons x rest ih => exact (each x).bind fun _ => ih

end Sequences

section Reading
variable {P : Assembly → Prop}

theorem keeps_assembler : Keeps P Expected Asm.assembler := keeps_get.bind fun _ => keeps_pure _

theorem keeps_target : Keeps P Expected Asm.target := keeps_assembler.bind fun _ => keeps_pure _

theorem keeps_offset : Keeps P Expected Asm.offset :=
  keeps_assembler.bind fun _ => keeps_get.bind fun _ => keeps_pure _

theorem keeps_sized {narrow wide : Asm Unit} (first : Keeps P Expected narrow)
    (second : Keeps P Expected wide) : Keeps P Expected (Asm.sized narrow wide) := by
  refine keeps_target.bind fun t => ?_
  cases t with
  | ppc32 => exact first
  | ppc64 => exact second

end Reading

/-! ### Faults of results -/

/-- An encoder fails for the operands or for the reach of a branch. -/
theorem expected_encode {l : Layout} {title : String} {k : Constants} {pc : Int64}
    {args : Args l.operands} : FailsOnly Expected (l.encode title k pc args) :=
  (failsOnly_mapError expected_branchRange _).bind fun _ => failsOnly_mapError expected_encoding _

theorem expected_slice (s : Segment) (first last : Int64) :
    FailsOnly Expected (s.slice first last) :=
  .ite nofun (failsOnly_error expected_outOfBounds)

theorem expected_checkWord (b : Buffer) (s : Segment) (offset : Int64) :
    FailsOnly Expected (b.checkWord s offset) :=
  .ite (failsOnly_error fun _ _ same => nomatch same) nofun

theorem expected_wordAt (b : Buffer) (s : Segment) (offset : Int64) :
    FailsOnly Expected (b.wordAt s offset) := by
  refine (expected_checkWord b s offset).bind fun _ => (expected_slice _ _ _).bind fun bytes => ?_
  split
  · exact nofun
  · exact failsOnly_error expected_outOfBounds

theorem expected_patchedWord (w : Word) (site : PatchSite) (dest : Int64) :
    FailsOnly Expected (Asm.patchedWord w site dest) := by
  have defect {α : Type} (d : Defect) (other : ∀ reached size, d ≠ .frameLayout reached size) :
      FailsOnly Expected (.error (.defect d) : Except Fault α) :=
    failsOnly_error fun reached size same => other reached size (Fault.defect.inj same)
  unfold Asm.patchedWord
  split
  · exact defect _ fun _ _ same => nomatch same
  · refine .ite (defect _ fun _ _ same => nomatch same) ?_
    refine .ite (defect _ fun _ _ same => nomatch same) ?_
    refine .ite (defect _ fun _ _ same => nomatch same) ?_
    exact (failsOnly_mapError expected_branchRange _).bind fun _ => nofun

/-- The storage fails in one way only. -/
theorem faults_reserve (finish : Int64) :
    Keeps (fun _ => True) Expected (Segment.reserve finish) := by
  refine keeps_get.bind fun _ => .ite (keeps_pure _) ?_
  refine keeps_get.bind fun _ => keeps_get.bind fun _ => .ite
    (keeps_throw_bind expected_outOfBounds) ?_
  refine keeps_get.bind fun _ => .ite (keeps_throw_bind expected_outOfBounds) ?_
  exact keeps_modify fun _ _ => trivial

theorem faults_store (first last : Int64) (bytes : List UInt8) :
    Keeps (fun _ => True) Expected (Segment.store first last bytes) :=
  keeps_get.bind fun _ => .ite (keeps_throw_bind expected_outOfBounds)
    (keeps_modify fun _ _ => trivial)

theorem faults_append (bytes : List UInt8) :
    Keeps (fun _ => True) Expected (Segment.append bytes) :=
  keeps_get.bind fun _ => (faults_reserve _).bind fun _ =>
    (keeps_modify fun _ _ => trivial).bind fun _ => faults_store ..

theorem keeps_onSegment {P : Segment → Prop} {α : Type} {action : SegmentM α}
    (keeps : Keeps P Expected action) :
    Keeps (fun a => P a.segment) Expected (Asm.onSegment action) where
  state := by
    intro a held
    have kept := keeps.state a.segment held
    rw [onSegment_apply]
    cases ran : action a.segment <;> rw [ran] at kept <;> exact kept
  fault := by
    intro a e b held failed
    rw [onSegment_apply] at failed
    cases ran : action a.segment with
    | ok v s =>
      rw [ran] at failed
      cases failed
    | error e' s =>
      rw [ran] at failed
      cases failed
      exact keeps.fault a.segment e s held ran

/-! ### Steps -/

/-- What every step of an assembler keeps. -/
structure Stable (P : Assembly → Prop) : Prop where
  emit : ∀ w, Keeps P Expected (Asm.emit w)
  patch : ∀ dest site, Keeps P Expected (Asm.patch dest site)
  labels : ∀ a labels, P a → P ⟨a.segment, { a.assembler with labels }⟩
  frames : ∀ a frames, P a → P ⟨a.segment, { a.assembler with frames }⟩

/-- Nothing is required of the state, but no step fails in an unexpected way. -/
theorem stable_true : Stable fun _ => True where
  emit := fun _ => keeps_offset.bind fun _ =>
    (keeps_onSegment (keeps_get.bind fun _ => faults_append _)).bind fun _ =>
    keeps_modify fun _ _ => trivial
  patch := fun dest site => keeps_assembler.bind fun _ => keeps_get.bind fun _ =>
    (keeps_ofExcept (expected_wordAt _ _ _)).bind fun w =>
    (keeps_ofExcept (expected_patchedWord w site dest)).bind fun _ =>
    (keeps_onSegment (keeps_get.bind fun _ => (keeps_ofExcept (expected_checkWord _ _ _)).bind
      fun _ => keeps_get.bind fun _ => faults_store ..)).bind fun _ =>
    keeps_modify fun _ _ => trivial
  labels := fun _ _ _ => trivial
  frames := fun _ _ _ => trivial

section Operations
variable {P : Assembly → Prop}

theorem keeps_emitEncoded (emit : ∀ w, Keeps P Expected (Asm.emit w)) {x : Except Fault Word}
    (expected : FailsOnly Expected x) : Keeps P Expected (Asm.emitEncoded x) :=
  (keeps_ofExcept expected).bind emit

theorem keeps_labelState (l : Label) : Keeps P Expected (Asm.labelState l) := by
  refine keeps_assembler.bind fun assembler => ?_
  dsimp only
  split
  · exact keeps_pure _
  · exact keeps_throw (expected_misuse _)

section Labels
variable (stable : Stable P)
include stable

theorem keeps_labels (labels : Assembler → Array LabelState) :
    Keeps P Expected (Asm.modifyAssembler fun a => { a with labels := labels a }) :=
  keeps_modify fun a held => stable.labels a (labels a.assembler) held

theorem keeps_newLabel : Keeps P Expected Asm.newLabel :=
  keeps_assembler.bind fun _ => (keeps_labels stable _).bind fun _ => keeps_pure _

theorem keeps_setLabelState (l : Label) (state : LabelState) :
    Keeps P Expected (Asm.setLabelState l state) :=
  keeps_labels stable _

theorem keeps_bind (l : Label) : Keeps P Expected (Asm.bind l) := by
  refine (keeps_labelState l).bind fun state => keeps_offset.bind fun here => ?_
  split
  · exact keeps_throw (expected_misuse _)
  · exact (keeps_setLabelState stable l _).bind fun _ =>
      (Keeps.forM (stable.patch here) _).bind fun _ => keeps_setLabelState stable l _

theorem keeps_branchTo (branch : Branch) (l : Label) : Keeps P Expected (Asm.branchTo branch l) := by
  refine (keeps_labelState l).bind fun state => keeps_offset.bind fun here => ?_
  split
  · exact keeps_emitEncoded stable.emit
      ((failsOnly_mapError expected_branchRange _).bind fun _ =>
        failsOnly_mapError expected_encoding _)
  · exact (keeps_setLabelState stable l _).bind fun _ =>
      keeps_emitEncoded stable.emit (failsOnly_mapError expected_encoding _)

end Labels

/-- What writing a word and every call with a label keep. All operations are made of these. -/
structure Lasting (P : Assembly → Prop) : Prop where
  emit : ∀ w, Keeps P Expected (Asm.emit w)
  newLabel : Keeps P Expected Asm.newLabel
  branchTo : ∀ branch l, Keeps P Expected (Asm.branchTo branch l)
  bind : ∀ l, Keeps P Expected (Asm.bind l)
  frames : ∀ a frames, P a → P ⟨a.segment, { a.assembler with frames }⟩

theorem Stable.lasting (stable : Stable P) : Lasting P :=
  ⟨stable.emit, keeps_newLabel stable, keeps_branchTo stable, keeps_bind stable, stable.frames⟩

variable (lasting : Lasting P)
include lasting

theorem keeps_instr (op : Opcode) (args : Args op.operands) :
    Keeps P Expected (Asm.instr op args) :=
  keeps_emitEncoded lasting.emit expected_encode

theorem keeps_short (s : Alias) (args : Args s.operands) : Keeps P Expected (Asm.short s args) :=
  keeps_emitEncoded lasting.emit
    ((failsOnly_mapError expected_encoding _).bind fun _ => expected_encode)

/-- An instruction that is chosen by the word size. -/
theorem keeps_instrs (narrow wide : Opcode) (first : Args narrow.operands)
    (second : Args wide.operands) :
    Keeps P Expected (Asm.sized (Asm.instr narrow first) (Asm.instr wide second)) :=
  keeps_sized (keeps_instr lasting narrow first) (keeps_instr lasting wide second)

theorem keeps_shorts (narrow wide : Alias) (first : Args narrow.operands)
    (second : Args wide.operands) :
    Keeps P Expected (Asm.sized (Asm.short narrow first) (Asm.short wide second)) :=
  keeps_sized (keeps_short lasting narrow first) (keeps_short lasting wide second)

theorem keeps_load (r : Gpr) (a : Address) : Keeps P Expected (Asm.load r a) :=
  keeps_instrs lasting ..

theorem keeps_store (r : Gpr) (a : Address) : Keeps P Expected (Asm.store r a) :=
  keeps_instrs lasting ..

theorem keeps_storeUpdateIndexed (rs ra rb : Gpr) :
    Keeps P Expected (Asm.storeUpdateIndexed rs ra rb) :=
  keeps_sized (keeps_emitEncoded lasting.emit expected_encode)
    (keeps_emitEncoded lasting.emit expected_encode)

theorem keeps_orUnlessZero (op : Opcode) (args : Gpr → Int64 → Args op.operands) (rt : Gpr)
    (v : Int64) : Keeps P Expected (Asm.orUnlessZero op args rt v) :=
  .ite (keeps_pure _) (keeps_instr lasting op _)

theorem keeps_loadUpper (rt : Gpr) (q3 q2 : Int64) : Keeps P Expected (Asm.loadUpper rt q3 q2) :=
  .ite ((keeps_short lasting ..).bind fun _ => keeps_orUnlessZero lasting ..)
    (.ite (keeps_short lasting ..) ((keeps_short lasting ..).bind fun _ => keeps_instr lasting ..))

theorem keeps_loadWide (rt : Gpr) (v : Int64) : Keeps P Expected (Asm.loadWide rt v) :=
  .ite
    ((keeps_short lasting ..).bind fun _ => (keeps_instr lasting ..).bind fun _ =>
      keeps_orUnlessZero lasting ..)
    ((keeps_loadUpper lasting ..).bind fun _ => (keeps_short lasting ..).bind fun _ =>
      (keeps_orUnlessZero lasting ..).bind fun _ => keeps_orUnlessZero lasting ..)

theorem keeps_loadConst (rt : Gpr) (v : Int64) : Keeps P Expected (Asm.loadConst rt v) :=
  keeps_target.bind fun _ => .ite (keeps_short lasting ..)
    (.ite ((keeps_short lasting ..).bind fun _ => keeps_orUnlessZero lasting ..)
      (keeps_loadWide lasting ..))

theorem keeps_compareExchange (exchange dest compare : Gpr) :
    Keeps P Expected (Asm.compareExchange exchange dest compare) := by
  refine .ite (keeps_throw_bind (expected_misuse _)) ?_
  refine lasting.newLabel.bind fun loop => lasting.newLabel.bind fun done => ?_
  refine (keeps_instr lasting ..).bind fun _ => (lasting.bind loop).bind fun _ => ?_
  refine (keeps_instrs lasting ..).bind fun _ => (keeps_instrs lasting ..).bind fun _ => ?_
  refine (lasting.branchTo ..).bind fun _ => (keeps_instrs lasting ..).bind fun _ => ?_
  refine (lasting.branchTo ..).bind fun _ => (lasting.bind done).bind fun _ => ?_
  exact keeps_instr lasting ..

theorem keeps_callCount (fn : Gpr) : Keeps P Expected (Asm.callCount fn) :=
  (keeps_short lasting ..).bind fun _ => keeps_short lasting ..

theorem keeps_callRegister (fn : Gpr) : Keeps P Expected (Asm.callRegister fn) := by
  refine keeps_target.bind fun t => ?_
  split
  · exact keeps_callCount lasting fn
  · exact (keeps_store lasting ..).bind fun _ => (keeps_load lasting ..).bind fun _ =>
      (keeps_load lasting ..).bind fun _ => (keeps_callCount lasting _).bind fun _ =>
      keeps_load lasting ..

theorem keeps_call (entry : Int64) : Keeps P Expected (Asm.call entry) :=
  .ite (keeps_throw_bind (expected_encoding _))
    (keeps_target.bind fun _ => (keeps_loadConst lasting ..).bind fun _ =>
      keeps_callRegister lasting _)

theorem keeps_fillUp (modulus : Int64) : Keeps P Expected (Asm.fillUp modulus) := by
  have word := keeps_short lasting .nop ()
  constructor
  · intro a held
    fun_induction Asm.fillUp modulus a with
    | case1 a even => exact held
    | case2 a odd b ran forward ih =>
      have next := word.state a held
      rw [ran] at next
      exact ih next
    | case3 a odd fault b ran =>
      have next := word.state a held
      rw [ran] at next
      exact next
  · intro a e b held failed
    fun_induction Asm.fillUp modulus a with
    | case1 a even => cases failed
    | case2 a odd c ran forward ih =>
      have next := word.state a held
      rw [ran] at next
      exact ih next failed
    | case3 a odd fault c ran =>
      cases failed
      exact word.fault a e b held ran

theorem keeps_align (modulus : Int64) : Keeps P Expected (Asm.align modulus) :=
  .ite (keeps_throw_bind (expected_encoding _)) (keeps_fillUp lasting _)

theorem keeps_computePadding (dst src : Gpr) (align : Int64) :
    Keeps P Expected (Asm.computePadding dst src align) :=
  .ite (keeps_throw_bind (expected_encoding _))
    ((keeps_instr lasting ..).bind fun _ => (keeps_instr lasting ..).bind fun _ =>
      keeps_instr lasting ..)

theorem keeps_copyStackWord (scratch savedSp : Gpr) (displacement : Int64) :
    Keeps P Expected (Asm.copyStackWord scratch savedSp displacement) :=
  (keeps_ofExcept (failsOnly_mapError expected_encoding _)).bind fun _ =>
    (keeps_load lasting ..).bind fun _ => keeps_store lasting ..

theorem keeps_extendFrame (required available : Gpr) :
    Keeps P Expected (Asm.extendFrame required available) := by
  refine keeps_target.bind fun t => lasting.newLabel.bind fun done => ?_
  refine (keeps_instrs lasting ..).bind fun _ => (lasting.branchTo ..).bind fun _ => ?_
  refine (keeps_short lasting ..).bind fun _ => (keeps_computePadding lasting ..).bind fun _ => ?_
  refine (keeps_instr lasting ..).bind fun _ => (keeps_short lasting ..).bind fun _ => ?_
  refine (keeps_instr lasting ..).bind fun _ => (keeps_storeUpdateIndexed lasting ..).bind fun _ => ?_
  refine (keeps_copyStackWord lasting ..).bind fun _ => ?_
  split
  · exact (keeps_copyStackWord lasting ..).bind fun _ => lasting.bind done
  · exact lasting.bind done

theorem keeps_frames (frames : Assembler → Array OpenFrame) :
    Keeps P Expected (Asm.modifyAssembler fun a => { a with frames := frames a }) :=
  keeps_modify fun a held => lasting.frames a (frames a.assembler) held

section Code
variable (f : Frame)

theorem keeps_allocate : Keeps P Expected f.allocate :=
  .ite
    ((keeps_instrs lasting ..).bind fun _ => (keeps_store lasting ..).bind fun _ =>
      (keeps_short lasting ..).bind fun _ => keeps_store lasting ..)
    ((keeps_short lasting ..).bind fun _ => (keeps_store lasting ..).bind fun _ =>
      keeps_instrs lasting ..)

theorem keeps_storeVolatiles : Keeps P Expected f.storeVolatiles :=
  (Keeps.forM (fun _ => keeps_store lasting ..) _).bind fun _ =>
    (keeps_short lasting ..).bind fun _ => (keeps_store lasting ..).bind fun _ =>
    Keeps.forM (fun _ => keeps_instr lasting ..) _

theorem keeps_storeSaved : Keeps P Expected f.storeSaved :=
  have registers : Keeps P Expected _ := (Keeps.forM (fun _ => keeps_store lasting ..) _).bind
    fun _ => Keeps.forM (fun _ => keeps_instr lasting ..) _
  .ite ((keeps_instr lasting ..).bind fun _ => (keeps_instr lasting ..).bind fun _ => registers)
    registers

theorem keeps_emitProlog : Keeps P Expected f.emitProlog := by
  have last : Keeps P Expected
      (if f.preserveVolatiles then Asm.load .r0 (.onStack f.saveAreas.r0) else pure ()) :=
    .ite (keeps_load lasting ..) (keeps_pure _)
  refine (keeps_allocate lasting f).bind fun _ => .ite ?_ ?_
  · exact (keeps_storeVolatiles lasting f).bind fun _ => (keeps_storeSaved lasting f).bind
      fun _ => last
  · exact (keeps_storeSaved lasting f).bind fun _ => last

/-- The save areas of a frame end where the frame ends, so the prolog is written. -/
theorem keeps_enter : Keeps P Expected f.enter := by
  have reached : f.saveAreas.finish = f.sizeOffset := by
    rw [saveAreas_eq, areas_end, Frame.sizeOffset]
  refine keeps_offset.bind fun offset => ?_
  simp only [if_neg (not_not_intro reached)]
  exact (keeps_emitProlog lasting f).bind fun _ => keeps_assembler.bind fun _ =>
    (keeps_frames lasting _).bind fun _ => keeps_pure _

theorem keeps_loadSaved : Keeps P Expected f.loadSaved :=
  (Keeps.forM (fun _ => keeps_instr lasting ..) _).bind fun _ =>
    (Keeps.forM (fun _ => keeps_load lasting ..) _).bind fun _ =>
    .ite ((keeps_instr lasting ..).bind fun _ => keeps_instr lasting ..) (keeps_pure _)

theorem keeps_loadVolatiles : Keeps P Expected f.loadVolatiles :=
  (Keeps.forM (fun _ => keeps_instr lasting ..) _).bind fun _ =>
    (keeps_load lasting ..).bind fun _ => (keeps_short lasting ..).bind fun _ =>
    Keeps.forM (fun _ => keeps_load lasting ..) _

theorem keeps_free : Keeps P Expected f.free :=
  .ite
    ((keeps_load lasting ..).bind fun _ => (keeps_short lasting ..).bind fun _ =>
      (keeps_load lasting ..).bind fun _ => keeps_instr lasting ..)
    ((keeps_instr lasting ..).bind fun _ => (keeps_load lasting ..).bind fun _ =>
      keeps_short lasting ..)

end Code

theorem keeps_leave (index : Nat) (o : OpenFrame) : Keeps P Expected (Frame.leave index o) := by
  have code : Keeps P Expected o.frame.emitEpilog := by
    refine (keeps_loadSaved lasting _).bind fun _ => .ite ?_ (keeps_free lasting _)
    exact (keeps_loadVolatiles lasting _).bind fun _ => keeps_free lasting _
  exact code.bind fun _ => keeps_frames lasting _

omit lasting in
theorem keeps_finalize : Keeps P Expected Asm.finalize := by
  refine Keeps.bind ?_ fun _ => Keeps.bind ?_ fun _ => ?_
  · refine keeps_assembler.bind fun _ => ?_
    dsimp only
    split
    · exact keeps_throw (expected_misuse _)
    · exact keeps_pure _
  · refine keeps_assembler.bind fun _ => ?_
    split
    · exact keeps_throw (expected_misuse _)
    · exact keeps_pure _
  · exact keeps_assembler.bind fun _ => keeps_get.bind fun _ => keeps_ofExcept (expected_slice _ _ _)

end Operations

/-! ### Everything that can be asked of an assembler -/

/-- The condition with this number. -/
def condition (code : UInt8) : Asm Condition :=
  match Condition.ofCode? code with
  | some c => pure c
  | none => throw (.unknownCondition code)

/-- Writes the prolog of a frame, unless the frame does not allow it. -/
def writeProlog (f : Frame) : Asm Nat := do
  MonadExcept.ofExcept ((f.checkProlog (← Asm.target)).mapError .misuse)
  f.enter

/-- Writes an epilog of the frame with this number. -/
def writeEpilog (index : Nat) : Asm Unit := do
  match (← Asm.assembler).frames[index]? with
  | some o => Frame.leave index o
  | none => throw .outOfBounds

/-- A request to an assembler. Frames are laid out elsewhere, so that the prolog of any
frame can be asked for. -/
inductive Operation where
  | target
  | offset
  | finalize
  | word (w : Word)
  | instr (op : Opcode) (args : Args op.operands)
  | short (s : Alias) (args : Args s.operands)
  | statement (i : Instruction) (pc : Int64)
  | source (base : Int64) (text : List UInt8)
  | newLabel
  | isBound (l : Label)
  | labelOffset (l : Label)
  | bind (l : Label)
  | branchTo (branch : Branch) (l : Label)
  | branchIf (cr : CrField) (code : UInt8) (l : Label)
  | branchBy (cr : CrField) (code : UInt8) (displacement : Int64)
  | load (rt : Gpr) (a : Address)
  | store (rs : Gpr) (a : Address)
  | storeUpdate (rs : Gpr) (a : Address)
  | loadIndexed (rt ra rb : Gpr)
  | storeIndexed (rs ra rb : Gpr)
  | storeUpdateIndexed (rs ra rb : Gpr)
  | loadReserve (rt ra rb : Gpr)
  | storeConditional (rs ra rb : Gpr)
  | compare (cr : CrField) (ra rb : Gpr)
  | compareImmediate (cr : CrField) (ra : Gpr) (si : Int64)
  | compareLogical (cr : CrField) (ra rb : Gpr)
  | compareLogicalImmediate (cr : CrField) (ra : Gpr) (ui : Int64)
  | shiftLeftImmediate (ra rs : Gpr) (n : Int64)
  | shiftRightImmediate (ra rs : Gpr) (n : Int64)
  | shiftRightAlgebraicImmediate (ra rs : Gpr) (n : Int64)
  | shiftLeft (ra rs rb : Gpr)
  | shiftRight (ra rs rb : Gpr)
  | shiftRightAlgebraic (ra rs rb : Gpr)
  | loadAddress (rt : Gpr) (a : Address)
  | subtractImmediate (rt ra : Gpr) (si : Int64)
  | loadByteAlgebraicIndexed (rt ra rb : Gpr)
  | loadHalfAlgebraicIndexed (rt ra rb : Gpr)
  | nextAddressToLink
  | loadConst (rt : Gpr) (v : Int64)
  | compareExchange (exchange dest held : Gpr)
  | callRegister (fn : Gpr)
  | call (entry : Int64)
  | unimplemented
  | align (modulus : Int64)
  | computePadding (dst src : Gpr) (modulus : Int64)
  | extendFrame (required available : Gpr)
  | prolog (f : Frame)
  | epilog (index : Nat)

namespace Operation

/-- The state after the operation, whether it succeeded or failed. -/
def perform (x : Assembly) : Operation → Assembly
  | .target => after (Asm.target x)
  | .offset => after (Asm.offset x)
  | .finalize => after (Asm.finalize x)
  | .word w => after (Asm.emit w x)
  | .instr op args => after (Asm.instr op args x)
  | .short s args => after (Asm.short s args x)
  | .statement i pc => after (Asm.statement i pc x)
  | .source base text => after (Source.assemble base text x)
  | .newLabel => after (Asm.newLabel x)
  | .isBound l => after (Asm.isBound l x)
  | .labelOffset l => after (Asm.labelOffset l x)
  | .bind l => after (Asm.bind l x)
  | .branchTo branch l => after (Asm.branchTo branch l x)
  | .branchIf cr code l => after ((do Asm.branchIf cr (← condition code) l) x)
  | .branchBy cr code d => after ((do Asm.short (.branch (← condition code)) (cr, d, ())) x)
  | .load rt a => after (Asm.load rt a x)
  | .store rs a => after (Asm.store rs a x)
  | .storeUpdate rs a => after (Asm.storeUpdate rs a x)
  | .loadIndexed rt ra rb => after (Asm.loadIndexed rt ra rb x)
  | .storeIndexed rs ra rb => after (Asm.storeIndexed rs ra rb x)
  | .storeUpdateIndexed rs ra rb => after (Asm.storeUpdateIndexed rs ra rb x)
  | .loadReserve rt ra rb => after (Asm.loadReserve rt ra rb x)
  | .storeConditional rs ra rb => after (Asm.storeConditional rs ra rb x)
  | .compare cr ra rb => after (Asm.compare cr ra rb x)
  | .compareImmediate cr ra si => after (Asm.compareImmediate cr ra si x)
  | .compareLogical cr ra rb => after (Asm.compareLogical cr ra rb x)
  | .compareLogicalImmediate cr ra ui => after (Asm.compareLogicalImmediate cr ra ui x)
  | .shiftLeftImmediate ra rs n => after (Asm.shiftLeftImmediate ra rs n x)
  | .shiftRightImmediate ra rs n => after (Asm.shiftRightImmediate ra rs n x)
  | .shiftRightAlgebraicImmediate ra rs n => after (Asm.shiftRightAlgebraicImmediate ra rs n x)
  | .shiftLeft ra rs rb => after (Asm.shiftLeft ra rs rb x)
  | .shiftRight ra rs rb => after (Asm.shiftRight ra rs rb x)
  | .shiftRightAlgebraic ra rs rb => after (Asm.shiftRightAlgebraic ra rs rb x)
  | .loadAddress rt a => after (Asm.loadAddress rt a x)
  | .subtractImmediate rt ra si => after (Asm.subtractImmediate rt ra si x)
  | .loadByteAlgebraicIndexed rt ra rb => after (Asm.loadByteAlgebraicIndexed rt ra rb x)
  | .loadHalfAlgebraicIndexed rt ra rb => after (Asm.loadHalfAlgebraicIndexed rt ra rb x)
  | .nextAddressToLink => after (Asm.nextAddressToLink x)
  | .loadConst rt v => after (Asm.loadConst rt v x)
  | .compareExchange exchange dest held => after (Asm.compareExchange exchange dest held x)
  | .callRegister fn => after (Asm.callRegister fn x)
  | .call entry => after (Asm.call entry x)
  | .unimplemented => after (Asm.unimplemented x)
  | .align modulus => after (Asm.align modulus x)
  | .computePadding dst src modulus => after (Asm.computePadding dst src modulus x)
  | .extendFrame required available => after (Asm.extendFrame required available x)
  | .prolog f => after (writeProlog f x)
  | .epilog index => after (writeEpilog index x)

/-- The state after operations one after the other, those that fail included. -/
def performAll (x : Assembly) (ops : List Operation) : Assembly := ops.foldl perform x

end Operation

section Every
variable {P : Assembly → Prop} (lasting : Lasting P)
include lasting

theorem keeps_statement (i : Instruction) (pc : Int64) :
    Keeps P (fun _ => True) (Asm.statement i pc) where
  state := by
    intro a held
    have emitted (w : Word) := (lasting.emit w).state a held
    unfold Asm.statement
    cases i.encode pc with
    | error _ => exact held
    | ok w =>
      dsimp only
      specialize emitted w
      split
      all_goals
        rename_i ran
        rw [ran] at emitted
        exact emitted
  fault := fun _ _ _ _ _ => trivial

theorem keeps_assembleLine (base : Int64) (line : Text) :
    Keeps P (fun _ => True) (Source.assembleLine base line) where
  state := by
    intro a held
    unfold Source.assembleLine
    cases Instruction.parse line with
    | error _ => exact held
    | ok i =>
      have stated := (keeps_statement lasting i
        (base + a.assembler.buffer.length a.segment)).state a held
      dsimp only
      split
      all_goals
        rename_i ran
        rw [ran] at stated
        exact stated
  fault := fun _ _ _ _ _ => trivial

theorem keeps_assembleLines (base : Int64) (number : Nat) (lines : List (Option (List UInt8))) :
    Keeps P (fun _ => True) (Source.assembleLines base number lines) where
  state := by
    intro a held
    induction lines generalizing number a with
    | nil => exact held
    | cons line rest ih =>
      cases line with
      | none => exact held
      | some bytes =>
        have written := (keeps_assembleLine lasting base
          (Source.withoutComment (Text.ofUtf8 bytes))).state a held
        unfold Source.assembleLines
        dsimp only
        split
        · exact ih (number + 1) a held
        · split
          · rename_i b ran
            rw [ran] at written
            exact ih (number + 1) b written
          · rename_i ran
            rw [ran] at written
            exact written
  fault := fun _ _ _ _ _ => trivial

omit lasting in
theorem keeps_condition (code : UInt8) : Keeps P Expected (condition code) := by
  unfold condition
  split
  · exact keeps_pure _
  · exact keeps_throw fun _ _ same => nomatch same

theorem Lasting.writeProlog (f : Frame) : Keeps P Expected (writeProlog f) :=
  keeps_target.bind fun _ => (keeps_ofExcept (failsOnly_mapError expected_misuse _)).bind fun _ =>
    keeps_enter lasting f

theorem keeps_writeEpilog (index : Nat) : Keeps P Expected (writeEpilog index) := by
  refine keeps_assembler.bind fun _ => ?_
  split
  · exact keeps_leave lasting index _
  · exact keeps_throw expected_outOfBounds

/-- Every operation keeps what the calls keep that it is made of. -/
theorem Lasting.perform (x : Assembly) (held : P x) (op : Operation) : P (op.perform x) := by
  cases op with
  | target => exact keeps_target.state x held
  | offset => exact keeps_offset.state x held
  | finalize => exact keeps_finalize.state x held
  | word w => exact (lasting.emit w).state x held
  | instr op args => exact (keeps_instr lasting op args).state x held
  | short s args => exact (keeps_short lasting s args).state x held
  | statement i pc => exact (keeps_statement lasting i pc).state x held
  | source base text => exact (keeps_assembleLines lasting base 1 _).state x held
  | newLabel => exact lasting.newLabel.state x held
  | isBound l => exact ((keeps_labelState l).bind fun _ => keeps_pure _).state x held
  | labelOffset l =>
    refine ((keeps_labelState l).bind fun state => ?_).state x held
    split
    · exact keeps_pure _
    · exact keeps_throw (expected_misuse _)
  | bind l => exact (lasting.bind l).state x held
  | branchTo branch l => exact (lasting.branchTo branch l).state x held
  | branchIf cr code l =>
    exact ((keeps_condition code).bind fun _ => lasting.branchTo ..).state x held
  | branchBy cr code d =>
    exact ((keeps_condition code).bind fun _ => keeps_short lasting ..).state x held
  | storeUpdateIndexed rs ra rb => exact (keeps_storeUpdateIndexed lasting rs ra rb).state x held
  | shiftLeftImmediate | shiftRightImmediate => exact (keeps_shorts lasting ..).state x held
  | loadAddress | subtractImmediate | nextAddressToLink => exact (keeps_instr lasting ..).state x held
  | loadByteAlgebraicIndexed | loadHalfAlgebraicIndexed =>
    exact ((keeps_instr lasting ..).bind fun _ => keeps_instr lasting ..).state x held
  | loadConst rt v => exact (keeps_loadConst lasting rt v).state x held
  | compareExchange exchange dest compare =>
    exact (keeps_compareExchange lasting exchange dest compare).state x held
  | callRegister fn => exact (keeps_callRegister lasting fn).state x held
  | call entry => exact (keeps_call lasting entry).state x held
  | unimplemented => exact (lasting.emit 0).state x held
  | align modulus => exact (keeps_align lasting modulus).state x held
  | computePadding dst src modulus =>
    exact (keeps_computePadding lasting dst src modulus).state x held
  | extendFrame required available =>
    exact (keeps_extendFrame lasting required available).state x held
  | prolog f => exact (lasting.writeProlog f).state x held
  | epilog index => exact (keeps_writeEpilog lasting index).state x held
  | load | store | storeUpdate | loadIndexed | storeIndexed | loadReserve | storeConditional
  | compare | compareImmediate | compareLogical | compareLogicalImmediate
  | shiftRightAlgebraicImmediate | shiftLeft | shiftRight | shiftRightAlgebraic =>
    exact (keeps_instrs lasting ..).state x held

theorem Lasting.performAll (x : Assembly) (held : P x) (ops : List Operation) :
    P (Operation.performAll x ops) := by
  induction ops generalizing x with
  | nil => exact held
  | cons op rest ih => exact ih (op.perform x) (lasting.perform x held op)

end Every

section Steps
variable {P : Assembly → Prop} (stable : Stable P)
include stable

/-- Every operation keeps what the steps keep. -/
theorem perform_keeps (x : Assembly) (held : P x) (op : Operation) : P (op.perform x) :=
  stable.lasting.perform x held op

theorem performAll_keeps (x : Assembly) (held : P x) (ops : List Operation) :
    P (Operation.performAll x ops) :=
  stable.lasting.performAll x held ops

end Steps

end PowerAsm.Proofs.Operations
