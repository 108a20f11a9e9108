import Mathlib.Data.List.Forall2
import PowerAsm.Proofs.Forms

/-! The encoders against a table of their fields. For every form the table gives the
argument of each field in packing order, where the field stands in the word, and the
least and greatest argument it takes. A call succeeds exactly when every argument fits;
the word then holds every argument in its place and nothing else, and a call that fails
reports the first argument that does not fit. -/
namespace PowerAsm.Proofs.Encoders
open Fields Forms Integers

/-- One field of an encoder. The field holds the argument counted in units, so that a
unit of four stands for a displacement in bytes that is stored in words. -/
structure Field where
  name : String
  argument : Int64
  unit : Int
  low : Nat
  width : Nat
  least : Int
  greatest : Int

namespace Field

/-- A field that takes every number of its width. -/
def natural (name : String) (argument : Int64) (low width : Nat) : Field :=
  ⟨name, argument, 1, low, width, 0, 2 ^ width - 1⟩

/-- A field that takes the two's complement range of its width. -/
def twosComplement (name : String) (argument : Int64) (low width : Nat) : Field :=
  ⟨name, argument, 1, low, width, -2 ^ (width - 1), 2 ^ (width - 1) - 1⟩

/-- A field of a single bit. -/
def flag (name : String) (b : Bool) (low : Nat) : Field :=
  natural name (if b then 1 else 0) low 1

/-- What the field holds. -/
def content (f : Field) : Int := f.argument.toInt / f.unit

/-- The argument is a whole number of units. -/
def Aligned (f : Field) : Prop := f.unit ∣ f.argument.toInt

def InRange (f : Field) : Prop := f.least ≤ f.argument.toInt ∧ f.argument.toInt ≤ f.greatest

def Fits (f : Field) : Prop := f.Aligned ∧ f.InRange

/-- A field that takes negative arguments is reported as a signed one. -/
def isSigned (f : Field) : Bool := decide (f.least < 0)

/-- Reading the place of the field gives the argument back, up to the width. -/
def ReadFrom (f : Field) (w : Word) : Prop :=
  ((w.extractLsb' f.low f.width).toNat : Int) = f.content % (2 ^ f.width : Nat)

/-- The two fields hold the same bits. -/
def Agrees (f g : Field) : Prop :=
  f.name = g.name ∧ f.content % (2 ^ f.width : Nat) = g.content % (2 ^ g.width : Nat)

instance (f : Field) : Decidable f.Aligned := inferInstanceAs (Decidable (_ ∣ _))
instance (f : Field) : Decidable f.InRange := inferInstanceAs (Decidable (_ ∧ _))
instance (f : Field) : Decidable f.Fits := inferInstanceAs (Decidable (_ ∧ _))

end Field

/-- A call of an encoder, with its arguments. A rotate has the primary opcode 21. -/
inductive Call where
  | formI (opcode li : Int64) (aa lk : Bool)
  | formB (opcode bo bi bd : Int64) (aa lk : Bool)
  | formD (opcode a b imm : Int64) (signed : Bool)
  | formDS (opcode a b disp xo : Int64)
  | formX (opcode a b c xo : Int64) (rc : Bool)
  | rotate (rs ra sh mb me : Int64) (rc : Bool)

namespace Call

/-- The form of the word, which tells the encoders apart. -/
def form : Call → Form
  | .formI .. => .i
  | .formB .. => .b
  | .formD .. => .d
  | .formDS .. => .ds
  | .formX .. => .x
  | .rotate .. => .m

def opcode : Call → Int64
  | .formI opcode .. | .formB opcode .. | .formD opcode .. | .formDS opcode .. => opcode
  | .formX opcode .. => opcode
  | .rotate .. => 21

/-- The name under which a call reports what does not fit. -/
def title (call : Call) : String := Format.opcodeName call.opcode

def encode (call : Call) : Except EncodingError Word :=
  match call with
  | .formI opcode li aa lk => Format.i call.title opcode li aa lk
  | .formB opcode bo bi bd aa lk => Format.b call.title opcode bo bi bd aa lk
  | .formD opcode a b imm signed => Format.d call.title opcode a b imm signed
  | .formDS opcode a b disp xo => Format.ds call.title opcode a b disp xo
  | .formX opcode a b c xo rc => Format.x call.title opcode a b c xo rc
  | .rotate rs ra sh mb me rc => Format.rotate call.title 21 rs ra sh mb me rc

/-- The word that is answered: zero where there is an error to answer. -/
def word (call : Call) : Word := call.encode.toOption.getD 0

/-- The fields in packing order. -/
def fields : Call → List Field
  | .formI opcode li aa lk =>
    [.natural "opcode" opcode 26 6, .twosComplement "LI" li 2 24, .flag "AA" aa 1, .flag "LK" lk 0]
  | .formB opcode bo bi bd aa lk =>
    [.natural "opcode" opcode 26 6, .natural "BO" bo 21 5, .natural "BI" bi 16 5,
      .twosComplement "BD" bd 2 14, .flag "AA" aa 1, .flag "LK" lk 0]
  | .formD opcode a b imm signed =>
    [.natural "opcode" opcode 26 6, .natural "A" a 21 5, .natural "B" b 16 5,
      ⟨"IMM", imm, 1, 0, 16, if signed then -32768 else 0, 65535⟩]
  | .formDS opcode a b disp xo =>
    [.natural "opcode" opcode 26 6, .natural "A" a 21 5, .natural "B" b 16 5,
      ⟨"DS", disp, 4, 2, 14, -32768, 65532⟩, .natural "XO" xo 0 2]
  | .formX opcode a b c xo rc =>
    [.natural "opcode" opcode 26 6, .natural "A" a 21 5, .natural "B" b 16 5,
      .natural "C" c 11 5, .natural "XO" xo 1 10, .flag "Rc" rc 0]
  | .rotate rs ra sh mb me rc =>
    [.natural "opcode" 21 26 6, .natural "RS" rs 21 5, .natural "RA" ra 16 5,
      .natural "SH" sh 11 5, .natural "MB" mb 6 5, .natural "ME" me 1 5, .flag "Rc" rc 0]

end Call

/-- The slot packs the field: it reports the same name, width and content, and it fits
exactly when the argument is in range. -/
structure Packs (s : Slot) (f : Field) : Prop where
  name : s.name = f.name
  bits : s.bits = f.width
  value : s.value.toInt = f.content
  word : s.word = Word.ofField s.value f.low f.width
  fits : s.fits = true ↔ f.InRange
  signed : (s.range != .unsigned) = f.isSigned

theorem packs_natural (name : String) (v : Int64) (low width : Nat) :
    Packs (.unsigned name v width low) (.natural name v low width) where
  name := rfl
  bits := rfl
  value := (Int.ediv_one _).symm
  word := rfl
  fits := by
    rw [unsigned_fits, fitsUnsigned_iff]
    simp only [Field.InRange, Field.natural]
    push_cast
    omega
  signed := rfl

theorem packs_flag (name : String) (b : Bool) (low : Nat) :
    Packs (.flag name b low) (.flag name b low) :=
  packs_natural name (if b then 1 else 0) low 1

theorem packs_twosComplement (name : String) (v : Int64) (low width : Nat) (positive : 0 < width)
    (short : width < 64) :
    Packs (.signed name v width low) (.twosComplement name v low width) where
  name := rfl
  bits := rfl
  value := (Int.ediv_one _).symm
  word := rfl
  fits := by
    rw [signed_fits, fitsSigned_iff positive short]
    simp only [Field.InRange, Field.twosComplement]
    push_cast
    omega
  signed := by
    have power : (0 : Int) < 2 ^ (width - 1) := Int.pow_pos (by omega)
    simp only [Slot.signed, Field.isSigned, Field.twosComplement]
    symm
    exact decide_eq_true (by omega)

theorem packs_immediate (imm : Int64) (signed : Bool) :
    Packs (if signed then .either "IMM" imm 16 0 else .unsigned "IMM" imm 16 0)
      ⟨"IMM", imm, 1, 0, 16, if signed then -32768 else 0, 65535⟩ := by
  cases signed with
  | false => exact packs_natural "IMM" imm 0 16
  | true =>
    refine ⟨rfl, rfl, (Int.ediv_one _).symm, rfl, ?_, rfl⟩
    simp only [if_true, either_fits, Bool.or_eq_true, fitsUnsigned_iff,
      fitsSigned_iff (v := imm) (show 0 < 16 by omega) (by omega), Field.InRange]
    omega

/-- A displacement of whole words is stored as a number of words. -/
theorem packs_displacement (disp : Int64) (aligned : disp.toInt % 4 = 0) :
    Packs (.either "DS" (disp >>> 2) 14 2) ⟨"DS", disp, 4, 2, 14, -32768, 65532⟩ := by
  have shifted : (disp >>> 2).toInt = disp.toInt / 4 := toInt_shiftRight disp 2 (by omega)
  refine ⟨rfl, rfl, shifted, rfl, ?_, rfl⟩
  simp only [either_fits, Bool.or_eq_true, fitsUnsigned_iff,
    fitsSigned_iff (v := disp >>> 2) (show 0 < 14 by omega) (by omega), Field.InRange, shifted]
  omega

/-- The place of a field, with what it holds. -/
def Field.place (f : Field) : Placed := ⟨f.low, f.width, Int64.ofInt f.content⟩

namespace Packs
variable {s : Slot} {f : Field}

theorem word_eq (packs : Packs s f) : s.word = f.place.word := by
  rw [packs.word, Placed.word, Field.place, ← packs.value, Int64.ofInt_toInt]

theorem holds_iff (packs : Packs s f) (w : Word) : f.place.Holds w ↔ f.ReadFrom w := by
  rw [Field.place, Forms.holds_iff, ← packs.value, Int64.ofInt_toInt, packs.value]
  rfl

end Packs

private theorem foldl_words {slots : List Slot} {fs : List Field}
    (packed : List.Forall₂ Packs slots fs) (start : Word) :
    slots.foldl (fun w s => w ||| s.word) start = start ||| words (fs.map Field.place) := by
  induction packed generalizing start with
  | nil => simp [words]
  | cons head _ ih =>
    rw [List.foldl_cons, ih, head.word_eq, BitVec.or_assoc]
    rfl

/-- The fields divide a word among themselves. -/
structure Divides (fs : List Field) : Prop where
  inside : ∀ p ∈ fs.map Field.place, p.low + p.width ≤ 32
  apart : (fs.map Field.place).Pairwise Placed.Apart
  whole : masks (fs.map Field.place) = BitVec.allOnes 32

theorem pack_fields_ok_iff {op : String} {slots : List Slot} {fs : List Field} {w : Word}
    (packed : List.Forall₂ Packs slots fs) (divides : Divides fs) :
    pack op slots = .ok w ↔ (∀ f ∈ fs, f.InRange) ∧ ∀ f ∈ fs, f.ReadFrom w := by
  have made : slots.foldl (fun w s => w ||| s.word) 0#32 = words (fs.map Field.place) := by
    rw [foldl_words packed, BitVec.zero_or]
  rw [pack_eq_ok_iff_holds _ made divides.inside divides.apart divides.whole]
  clear made divides
  induction packed with
  | nil => simp
  | cons head _ ih =>
    simp only [List.map_cons, List.forall_mem_cons, head.fits, head.holds_iff]
    tauto

/-- A pack that fails reports the first field that is out of range. -/
theorem pack_fields_error {op : String} {slots : List Slot} {fs : List Field} {e : EncodingError}
    (packed : List.Forall₂ Packs slots fs) (failed : pack op slots = .error e) :
    ∃ before f after s, fs = before ++ f :: after ∧ (∀ g ∈ before, g.InRange) ∧ ¬ f.InRange ∧
      Packs s f ∧ e = s.violation op := by
  induction packed with
  | nil => cases failed
  | @cons s f slots fs head _ ih =>
    by_cases fits : s.fits = true
    · have rest : pack op slots = .error e := by
        unfold pack at failed ⊢
        rw [List.find?_cons_of_neg (by simp [fits])] at failed
        cases found : slots.find? (fun s => !s.fits) with
        | none => simp [found] at failed
        | some t => simpa [found] using failed
      obtain ⟨before, g, after, t, split, good, bad, packs, report⟩ := ih rest
      refine ⟨f :: before, g, after, t, by rw [split]; rfl, ?_, bad, packs, report⟩
      exact List.forall_mem_cons.mpr ⟨head.fits.mp fits, good⟩
    · refine ⟨[], f, fs, s, rfl, by simp, fun inside => fits (head.fits.mpr inside), head, ?_⟩
      unfold pack at failed
      rw [List.find?_cons_of_pos (by simpa using fits)] at failed
      exact (Except.error.inj failed).symm

/-- The fields of every form divide the word. -/
theorem fields_divide (call : Call) : Divides call.fields := by
  cases call <;> constructor <;>
    simp [Call.fields, Field.natural, Field.twosComplement, Field.flag, Field.place, Placed.Apart,
      masks, Placed.mask]

/-- Every bit of the word belongs to a field. -/
theorem fields_cover (call : Call) {i : Nat} (short : i < 32) :
    ∃ f ∈ call.fields, f.low ≤ i ∧ i < f.low + f.width := by
  cases call <;>
    simp only [Call.fields, Field.natural, Field.twosComplement, Field.flag, List.mem_cons,
      List.not_mem_nil, or_false, exists_eq_or_imp, exists_eq_left] <;>
    omega

/-- Two calls of one encoder have the same fields at the same places. -/
theorem fields_alike {call call' : Call} (same : call'.form = call.form) :
    List.Forall₂ (fun f g : Field => f.name = g.name ∧ f.low = g.low ∧ f.width = g.width)
      call.fields call'.fields := by
  cases call <;> cases call' <;> cases same <;>
    simp [Call.fields, Field.natural, Field.twosComplement, Field.flag]

/-- Arguments that are all aligned are packed by slots for their fields. -/
theorem encode_eq_pack (call : Call) (aligned : ∀ f ∈ call.fields, f.Aligned) :
    ∃ slots, List.Forall₂ Packs slots call.fields ∧ call.encode = pack call.title slots := by
  cases call with
  | formI opcode li aa lk =>
    exact ⟨_, .cons (packs_natural ..) <|
      .cons (packs_twosComplement _ _ _ _ (by omega) (by omega)) <| .cons (packs_flag ..) <|
      .cons (packs_flag ..) .nil, rfl⟩
  | formB opcode bo bi bd aa lk =>
    exact ⟨_, .cons (packs_natural ..) <| .cons (packs_natural ..) <| .cons (packs_natural ..) <|
      .cons (packs_twosComplement _ _ _ _ (by omega) (by omega)) <| .cons (packs_flag ..) <|
      .cons (packs_flag ..) .nil, rfl⟩
  | formD opcode a b imm signed =>
    exact ⟨_, .cons (packs_natural ..) <| .cons (packs_natural ..) <| .cons (packs_natural ..) <|
      .cons (packs_immediate ..) .nil, rfl⟩
  | formDS opcode a b disp xo =>
    have divides := aligned ⟨"DS", disp, 4, 2, 14, -32768, 65532⟩ (by simp [Call.fields])
    have whole : disp.toInt % 4 = 0 := Int.emod_eq_zero_of_dvd divides
    exact ⟨_, .cons (packs_natural ..) <| .cons (packs_natural ..) <| .cons (packs_natural ..) <|
      .cons (packs_displacement disp whole) <| .cons (packs_natural ..) .nil,
      if_neg (not_not_intro whole)⟩
  | formX opcode a b c xo rc =>
    exact ⟨_, .cons (packs_natural ..) <| .cons (packs_natural ..) <| .cons (packs_natural ..) <|
      .cons (packs_natural ..) <| .cons (packs_natural ..) <| .cons (packs_flag ..) .nil, rfl⟩
  | rotate rs ra sh mb me rc =>
    exact ⟨_, .cons (packs_natural ..) <| .cons (packs_natural ..) <| .cons (packs_natural ..) <|
      .cons (packs_natural ..) <| .cons (packs_natural ..) <| .cons (packs_natural ..) <|
      .cons (packs_flag ..) .nil, rfl⟩

/-- Only a displacement can be misaligned, and it is reported whatever the other fields
hold. -/
theorem encode_misaligned (call : Call) {f : Field} (member : f ∈ call.fields)
    (off : ¬ f.Aligned) :
    f.name = "DS" ∧ call.encode = .error ⟨call.title, .misalignedDisplacement f.argument⟩ := by
  cases call <;>
    simp only [Call.fields, List.mem_cons, List.not_mem_nil, or_false] at member
  case formDS opcode a b disp xo =>
    rcases member with rfl | rfl | rfl | rfl | rfl
    case inr.inr.inr.inl =>
      exact ⟨rfl, if_pos fun whole => off (Int.dvd_of_emod_eq_zero whole)⟩
    all_goals exact absurd (Int.one_dvd _) off
  all_goals
    rcases member with rfl | rfl | rfl | rfl | rfl | rfl | rfl <;> exact absurd (Int.one_dvd _) off

theorem encode_ok_iff (call : Call) (w : Word) :
    call.encode = .ok w ↔ (∀ f ∈ call.fields, f.Fits) ∧ ∀ f ∈ call.fields, f.ReadFrom w := by
  by_cases aligned : ∀ f ∈ call.fields, f.Aligned
  · obtain ⟨slots, packed, encoded⟩ := encode_eq_pack call aligned
    rw [encoded, pack_fields_ok_iff packed (fields_divide call)]
    refine and_congr_left fun _ => forall₂_congr fun f member => ?_
    exact (and_iff_right (aligned f member)).symm
  · obtain ⟨f, member, off⟩ : ∃ f ∈ call.fields, ¬ f.Aligned := by
      simpa using aligned
    rw [(encode_misaligned call member off).2]
    refine iff_of_false (by simp) fun fits => off (fits.1 f member).1

/-- Two words of one encoder are equal exactly when their fields hold the same bits. -/
theorem words_eq_iff {call call' : Call} {w w' : Word} (same : call'.form = call.form)
    (encoded : call.encode = .ok w) (encoded' : call'.encode = .ok w') :
    w = w' ↔ List.Forall₂ Field.Agrees call.fields call'.fields := by
  obtain ⟨fits, read⟩ := (encode_ok_iff call w).mp encoded
  obtain ⟨-, read'⟩ := (encode_ok_iff call' w').mp encoded'
  have alike := fields_alike same
  constructor
  · rintro rfl
    refine List.forall₂_iff_zip.mpr ⟨alike.length_eq, fun {f g} pair => ?_⟩
    obtain ⟨names, lows, widths⟩ := List.forall₂_zip alike pair
    obtain ⟨member, member'⟩ := List.of_mem_zip pair
    refine ⟨names, ?_⟩
    rw [← read f member, ← read' g member', lows, widths]
  · intro agree
    -- The second word holds the fields of the first call, and only one word does.
    have held : ∀ f ∈ call.fields, f.ReadFrom w' := by
      intro f member
      obtain ⟨i, short, rfl⟩ := List.mem_iff_getElem.mp member
      have short' : i < call'.fields.length := alike.length_eq ▸ short
      obtain ⟨-, lows, widths⟩ := List.forall₂_iff_get.mp alike |>.2 i short short'
      obtain ⟨-, contents⟩ := List.forall₂_iff_get.mp agree |>.2 i short short'
      have other := read' _ (List.get_mem call'.fields ⟨i, short'⟩)
      simp only [List.get_eq_getElem] at lows widths contents other
      rw [Field.ReadFrom, contents, lows, widths]
      exact other
    exact Except.ok.inj (encoded.symm.trans ((encode_ok_iff call w').mpr ⟨fits, held⟩))

/-- What a failed call reports: a misaligned displacement before anything else, and
otherwise the first field in packing order that is out of range. -/
def ReportsFirst (call : Call) (e : EncodingError) : Prop :=
  e.op = call.title ∧
    ((∃ f ∈ call.fields, ¬ f.Aligned ∧ e.field = f.name ∧ e.value = f.argument) ∨
      (∀ f ∈ call.fields, f.Aligned) ∧ ∃ before f after, call.fields = before ++ f :: after ∧
        (∀ g ∈ before, g.InRange) ∧ ¬ f.InRange ∧ e.field = f.name ∧ e.value.toInt = f.content ∧
        e.bits = f.width ∧ e.signed = f.isSigned)

theorem error_reports_first {call : Call} {e : EncodingError} (failed : call.encode = .error e) :
    ReportsFirst call e := by
  by_cases aligned : ∀ f ∈ call.fields, f.Aligned
  · obtain ⟨slots, packed, encoded⟩ := encode_eq_pack call aligned
    rw [encoded] at failed
    obtain ⟨before, f, after, s, split, good, bad, packs, rfl⟩ := pack_fields_error packed failed
    exact ⟨rfl, .inr ⟨aligned, before, f, after, split, good, bad, packs.name, packs.value,
      packs.bits, packs.signed⟩⟩
  · obtain ⟨f, member, off⟩ : ∃ f ∈ call.fields, ¬ f.Aligned := by
      simpa using aligned
    obtain ⟨name, report⟩ := encode_misaligned call member off
    obtain rfl : e = _ := Except.error.inj (failed.symm.trans report)
    exact ⟨rfl, .inl ⟨f, member, off, name.symm, rfl⟩⟩

/-- Every encoder accepts exactly the arguments that fit their fields. The word of an
accepted call holds each argument in its field and no other bit, so that two words of one
encoder are equal exactly when the arguments agree field by field; a call that is not
accepted answers zero and names the first field that is violated. -/
theorem encode_exactly_fields (call : Call) :
    ((∃ w, call.encode = .ok w) ↔ ∀ f ∈ call.fields, f.Fits) ∧
    (∀ w, call.encode = .ok w →
      (∀ f ∈ call.fields, f.ReadFrom w) ∧
      (∀ i, w.getLsbD i = true → ∃ f ∈ call.fields, f.low ≤ i ∧ i < f.low + f.width) ∧
      ∀ (call' : Call) (w' : Word), call'.form = call.form → call'.encode = .ok w' →
        (w = w' ↔ List.Forall₂ Field.Agrees call.fields call'.fields)) ∧
    ∀ e, call.encode = .error e → call.word = 0 ∧ ReportsFirst call e := by
  refine ⟨⟨?_, ?_⟩, ?_, ?_⟩
  · rintro ⟨w, encoded⟩
    exact ((encode_ok_iff call w).mp encoded).1
  · intro fits
    cases encoded : call.encode with
    | ok w => exact ⟨w, rfl⟩
    | error e =>
      -- A report is about a field that does not fit, and there is none.
      rcases (error_reports_first encoded).2 with
        ⟨f, member, off, -⟩ | ⟨-, before, f, after, split, -, bad, -⟩
      · exact absurd (fits f member).1 off
      · exact absurd (fits f (by rw [split]; simp)).2 bad
  · intro w encoded
    refine ⟨((encode_ok_iff call w).mp encoded).2, ?_, ?_⟩
    · intro i set
      exact fields_cover call (BitVec.lt_of_getLsbD set)
    · intro call' w' same encoded'
      exact words_eq_iff same encoded encoded'
  · intro e failed
    exact ⟨by rw [Call.word, failed]; rfl, error_reports_first failed⟩

/-- The lowest displacement is accepted, and one byte above it the displacement is
reported even though the opcode is out of range as well. -/
theorem encode_exactly_fields_lowest :
    (∃ w, (Call.formDS 62 31 1 (-32768) 1).encode = .ok w) ∧
      ReportsFirst (.formDS 64 31 1 (-32767) 1)
        ⟨Format.opcodeName 64, .misalignedDisplacement (-32767)⟩ :=
  ⟨(encode_exactly_fields (.formDS 62 31 1 (-32768) 1)).1.mpr (by decide),
    ((encode_exactly_fields (.formDS 64 31 1 (-32767) 1)).2.2 _ rfl).2⟩

end PowerAsm.Proofs.Encoders
