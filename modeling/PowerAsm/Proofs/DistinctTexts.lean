import PowerAsm.Instruction.GoSyntax
import PowerAsm.Proofs.Disassembly

/-! Texts in Go syntax. Many mnemonics share an opcode there, and their operands are turned round,
left as they are or moved to the end. No two decoded instructions have the same text all the same:
every operand can be told from its text, and where mnemonics share an opcode the kinds of their
operands, in the order in which they are written, differ. -/
namespace PowerAsm.Proofs.DistinctTexts
open Numeral Numerals Table Aliases Decoding InstructionText Disassembly

/-- An operand, or a special register that only the mnemonic names. -/
inductive Item where
  | operand (o : Operand)
  | link
  | count
deriving DecidableEq

namespace Item

def text : Item → Text
  | .operand o => GoSyntax.operand o
  | .link => GoSyntax.linkRegister
  | .count => GoSyntax.countRegister

/-- What the item is, without its value, as a number. -/
def sort : Item → Nat
  | .operand o => o.kind.code.toNat
  | .link => 7
  | .count => 8

def InRange : Item → Prop
  | .operand o => InstructionText.InRange o
  | .link | .count => True

end Item

/-- The opcode of a mnemonic. -/
def opcode (m : Mnemonic) : Text :=
  match GoSyntax.opcodeName? m with
  | some name => name
  | none => Text.upper m.name

/-- The first operand moved to the end, and the others turned round unless it is a condition
field. -/
def turned : List Operand → List Operand
  | [] => []
  | first :: rest => (if first.kind = .conditionField then rest else rest.reverse) ++ [first]

/-- The operands of a mnemonic in source, destination order. -/
def arranged (m : Mnemonic) (operands : List Operand) : List Operand :=
  if m.leadsTo ∨ GoSyntax.isStore m then operands else turned operands

/-- The special register that a mnemonic moves from. -/
def specialSource : Mnemonic → List Item
  | .short .mflr => [.link]
  | .short .mfctr => [.count]
  | _ => []

/-- The special register that a mnemonic moves to. -/
def specialDestination : Mnemonic → List Item
  | .short .mtlr => [.link]
  | .short .mtctr => [.count]
  | _ => []

/-- Everything that follows the opcode. -/
def items (m : Mnemonic) (operands : List Operand) : List Item :=
  specialSource m ++ (arranged m operands).map .operand ++ specialDestination m

/-- An operand of this kind. -/
def sample : OperandKind → Operand
  | .register => .register 0
  | .floatRegister => .floatRegister 0
  | .conditionField => .conditionField 0
  | .immediate => .immediate 0
  | .memory => .memory 0 0
  | .target => .target 0
  | .other n => .other n

/-- What a line shows of a mnemonic whose operands are of these types: the opcode, as a number, and
what follows it. -/
def signature (use : Mnemonic × List OperandType) : Nat × List Nat :=
  (code (opcode use.1), (items use.1 (use.2.map fun t => sample t.kind)).map Item.sort)

/-- The mnemonics with the types of their operands. -/
def allUses : List (Mnemonic × List OperandType) :=
  Mnemonic.all.flatMap fun m => m.shapes.map fun types => (m, types)

theorem signatures_differ : (allUses.map signature).Nodup := by
  decide +kernel

theorem opcodes_plain : ∀ m ∈ Mnemonic.all,
    Plain (opcode m) ∧ opcode m ≠ Text.ofString "WORD" := by
  decide +kernel

/-- The registers that instructions have, and the special ones. -/
def registers : List Item :=
  (List.range 32).map (fun n => .operand (.register (Int64.ofNat n))) ++
    (List.range 32).map (fun n => .operand (.floatRegister (Int64.ofNat n))) ++
    (List.range 8).map (fun n => .operand (.conditionField (Int64.ofNat n))) ++ [.link, .count]

theorem registers_differ : (registers.map fun i => code i.text).Nodup := by
  decide +kernel

/-- The text of anything but a register starts with such a glyph. -/
def isNumeric (g : Glyph) : Bool := g == .char '$' || g == .char '-' || (digit? g).any (· < 10)

theorem registers_plain : ∀ i ∈ registers, Plain i.text ∧
    i.text.head?.all (!isNumeric ·) = true := by
  decide +kernel

section Order
variable {m : Mnemonic} {operands operands' : List Operand}

theorem mem_arranged {o : Operand} : o ∈ arranged m operands ↔ o ∈ operands := by
  unfold arranged
  split
  · rfl
  · cases operands with
    | nil => rfl
    | cons first rest =>
      rw [turned]
      split <;> simp [or_comm]

theorem arranged_single (m : Mnemonic) (o : Operand) : arranged m [o] = [o] := by
  simp [arranged, turned]

theorem turned_injective (same : turned operands = turned operands') : operands = operands' := by
  cases operands with
  | nil =>
    cases operands' with
    | nil => rfl
    | cons first rest => cases List.append_ne_nil_of_right_ne_nil _ (by simp) same.symm
  | cons first rest =>
    cases operands' with
    | nil => cases List.append_ne_nil_of_right_ne_nil _ (by simp) same
    | cons first' rest' =>
      obtain ⟨others, last⟩ := List.append_inj' same rfl
      cases last
      split at others
      · rw [others]
      · rw [List.reverse_inj.mp others]

theorem arranged_injective (same : arranged m operands = arranged m operands') :
    operands = operands' := by
  unfold arranged at same
  split at same
  · exact same
  · exact turned_injective same

theorem items_injective (same : items m operands = items m operands') : operands = operands' := by
  have wrapped := List.append_cancel_left (List.append_cancel_right same)
  exact arranged_injective ((List.map_inj_right fun _ _ => Item.operand.inj).mp wrapped)

theorem items_inRange (inRange : ∀ o ∈ operands, InRange o) :
    ∀ item ∈ items m operands, item.InRange := by
  have source : ∀ item ∈ specialSource m, item.InRange := by
    unfold specialSource
    split <;> simp [Item.InRange]
  have destination : ∀ item ∈ specialDestination m, item.InRange := by
    unfold specialDestination
    split <;> simp [Item.InRange]
  refine List.forall_mem_append.mpr ⟨List.forall_mem_append.mpr ⟨source, ?_⟩, destination⟩
  exact List.forall_mem_map.mpr fun o member => inRange o (mem_arranged.mp member)

section Kinds
variable {f : Operand → Operand} (kept : ∀ o, (f o).kind = o.kind)
include kept

/-- The order depends on the kinds of the operands only. -/
theorem arranged_map : arranged m (operands.map f) = (arranged m operands).map f := by
  unfold arranged
  split
  · rfl
  · cases operands with
    | nil => rfl
    | cons first rest =>
      simp only [List.map_cons, turned, kept, List.map_append, List.map_nil]
      split <;> simp

theorem items_sort :
    (items m (operands.map f)).map Item.sort = (items m operands).map Item.sort := by
  simp [items, arranged_map kept, Item.sort, kept]

end Kinds

theorem kind_sample (k : OperandKind) : (sample k).kind = k := by
  cases k <;> rfl

/-- What a line shows of operands is told from their types. -/
theorem sorts_eq {types : List OperandType}
    (kinds : operands.map Operand.kind = types.map OperandType.kind) :
    (items m operands).map Item.sort =
      (items m (types.map fun t => sample t.kind)).map Item.sort := by
  have samples : types.map (fun t => sample t.kind) = operands.map fun o => sample o.kind := by
    have both := congrArg (List.map sample) kinds
    rw [List.map_map, List.map_map] at both
    exact both.symm
  rw [samples, items_sort fun o => kind_sample o.kind]

theorem mnemonic_unique {m' : Mnemonic} {types types' : List OperandType}
    (shape : types ∈ m.shapes) (shape' : types' ∈ m'.shapes)
    (kinds : operands.map Operand.kind = types.map OperandType.kind)
    (kinds' : operands'.map Operand.kind = types'.map OperandType.kind)
    (name : opcode m = opcode m') (same : items m operands = items m' operands') : m = m' := by
  have listed {m : Mnemonic} {types : List OperandType} (shape : types ∈ m.shapes) :
      (m, types) ∈ allUses :=
    List.mem_flatMap.mpr ⟨m, mnemonic_mem_all m, List.mem_map_of_mem shape⟩
  have shown : signature (m, types) = signature (m', types') := by
    simp only [signature, name, ← sorts_eq kinds, ← sorts_eq kinds', same]
  exact congrArg Prod.fst (eq_of_pairwise (List.pairwise_map.mp signatures_differ) (listed shape)
    (listed shape') (not_not_intro shown) (not_not_intro shown.symm))

end Order

/-- The register with this text. -/
def register? (t : Text) : Option Item := registers.find? (·.text == t)

/-- The item with this text. -/
def read? (t : Text) : Option Item :=
  match register? t with
  | some item => some item
  | none =>
    if t.head? = some (.char '$') then
      (Numeral.read t.tail).toOption.map fun v => .operand (.immediate v)
    else if t.getLast? = some (.char ')') then
      match Text.cutAt (· == .char '(') t with
      | (disp, some base) =>
        match (Numeral.read disp).toOption, register? base.dropLast with
        | some disp, some (.operand (.register base)) => some (.operand (.memory disp base))
        | _, _ => none
      | _ => none
    else (Numeral.read t).toOption.map fun v => .operand (.target v)

theorem register?_text {item : Item} (member : item ∈ registers) :
    register? item.text = some item := by
  cases found : register? item.text with
  | none => simpa using List.find?_eq_none.mp found item member
  | some other =>
    have same : other.text = item.text :=
      beq_iff_eq.mp (List.find?_some (p := fun i : Item => i.text == item.text) found)
    have codes : code other.text = code item.text := by rw [same]
    exact congrArg some (eq_of_pairwise (List.pairwise_map.mp registers_differ)
      (List.mem_of_find?_eq_some found) member (not_not_intro codes) (not_not_intro codes.symm))

theorem register?_numeric {g : Glyph} {rest : Text} (numeric : isNumeric g = true) :
    register? (g :: rest) = none := by
  refine List.find?_eq_none.mpr fun item member same => ?_
  have head := (registers_plain item member).2
  rw [beq_iff_eq.mp same] at head
  simp [numeric] at head

/-- Numbers start with a sign or a digit. -/
theorem numeric_start {g : Glyph} (start : g = .char '-' ∨ ∃ d < 10, g = figure d) :
    isNumeric g = true ∧ g ≠ .char '$' := by
  have figures : ∀ d < 10, isNumeric (figure d) = true ∧ figure d ≠ .char '$' := by decide
  rcases start with rfl | ⟨d, below, rfl⟩
  · decide
  · exact figures d below

/-- What is no register is a number, an address or a place in memory. -/
theorem item_cases (item : Item) (inRange : item.InRange) :
    item ∈ registers ∨ (∃ v, item = .operand (.immediate v)) ∨
      (∃ address, item = .operand (.target address)) ∨
      ∃ disp base, item = .operand (.memory disp base) ∧ .operand (.register base) ∈ registers := by
  have general {n : Int64} (inRange : InRange (.register n)) : ∃ k < 32, Int64.ofNat k = n :=
    exists_ofNat 32 inRange.1 (Int.lt_add_one_of_le inRange.2)
  cases item with
  | link | count => exact .inl (by simp [registers])
  | operand o =>
    cases o with
    | register n | floatRegister n => exact .inl (by simpa [registers] using general inRange)
    | conditionField n =>
      have field := exists_ofNat 8 inRange.1 (Int.lt_add_one_of_le inRange.2)
      exact .inl (by simpa [registers] using field)
    | immediate v => exact .inr (.inl ⟨v, rfl⟩)
    | target address => exact .inr (.inr (.inl ⟨address, rfl⟩))
    | memory disp base =>
      exact .inr (.inr (.inr ⟨disp, base, rfl, by simpa [registers] using general inRange⟩))
    | other n => exact inRange.elim

theorem memory_text (disp base : Int64) : (Item.operand (.memory disp base)).text =
    decimal disp.toInt ++ .char '(' :: ((Item.operand (.register base)).text ++ [.char ')']) := by
  simp [Item.text, GoSyntax.operand, Text.ofString]

theorem read?_memory (disp : Int64) {base : Int64}
    (member : .operand (.register base) ∈ registers) :
    read? (Item.operand (.memory disp base)).text = some (.operand (.memory disp base)) := by
  obtain ⟨g, rest, start, shape⟩ := decimal_start disp.toInt
  obtain ⟨numeric, unmarked⟩ := numeric_start start
  have text := memory_text disp base
  have closed : (Item.operand (.memory disp base)).text.getLast? = some (.char ')') :=
    List.getLast?_concat
  have opened : Text.cutAt (· == .char '(') (Item.operand (.memory disp base)).text =
      (decimal disp.toInt, some ((Item.operand (.register base)).text ++ [.char ')'])) := by
    rw [text]
    exact cutAt_append _ (decimal_unopened disp.toInt) rfl
  rw [shape, List.cons_append] at text
  have none : register? (Item.operand (.memory disp base)).text = none := by
    rw [text]
    exact register?_numeric numeric
  have head : (Item.operand (.memory disp base)).text.head? ≠ some (.char '$') := by
    rw [text]
    simpa using unmarked
  simp only [read?, none, if_neg head, if_pos closed, opened, read_decimal, List.dropLast_concat,
    register?_text member, Except.toOption]

/-- Every item is read from its text. -/
theorem read?_text (item : Item) (inRange : item.InRange) : read? item.text = some item := by
  rcases item_cases item inRange with
    member | ⟨v, rfl⟩ | ⟨address, rfl⟩ | ⟨disp, base, rfl, member⟩
  · rw [read?, register?_text member]
  · have text : (Item.operand (.immediate v)).text = .char '$' :: decimal v.toInt := rfl
    rw [read?, text, register?_numeric (by decide), List.head?_cons, if_pos rfl, List.tail_cons,
      read_decimal]
    rfl
  · obtain ⟨g, rest, start, shape⟩ := hexadecimal_start address.toInt
    obtain ⟨numeric, unmarked⟩ := numeric_start start
    have text : (Item.operand (.target address)).text = hexadecimal address.toInt := rfl
    rw [read?, text, if_neg (last_hexadecimal _), read_hexadecimal, shape,
      register?_numeric numeric, List.head?_cons, if_neg (by simpa using unmarked)]
    rfl
  · exact read?_memory disp member

theorem plain_item (item : Item) (inRange : item.InRange) : Plain item.text := by
  rcases item_cases item inRange with
    member | ⟨v, rfl⟩ | ⟨address, rfl⟩ | ⟨disp, base, rfl, member⟩
  · exact (registers_plain item member).1
  · exact plain_append (s := "$") (by decide) (plain_decimal _)
  · exact plain_hexadecimal _
  · rw [memory_text]
    refine plain_append (plain_decimal _) (plain_append (s := [.char '(']) (by decide) ?_)
    exact plain_append (registers_plain _ member).1 (by decide)

theorem texts_injective {xs ys : List Item} (inRange : ∀ item ∈ xs, item.InRange)
    (inRange' : ∀ item ∈ ys, item.InRange) (same : xs.map Item.text = ys.map Item.text) : xs = ys := by
  have back {zs : List Item} (inRange : ∀ item ∈ zs, item.InRange) :
      (zs.map Item.text).map read? = zs.map some := by
    rw [List.map_map]
    exact List.map_congr_left fun item member => read?_text item (inRange item member)
  have both := congrArg (List.map read?) same
  rw [back inRange, back inRange'] at both
  exact (List.map_inj_right fun _ _ => Option.some.inj).mp both

/-- The fields of a line as they stand between commas. -/
def fields : List Text → Option (List Text)
  | [] => none
  | first :: rest => some (first :: rest.map (.char ' ' :: ·))

theorem fields_injective {texts texts' : List Text} (same : fields texts = fields texts') :
    texts = texts' := by
  cases texts with
  | nil =>
    cases texts' with
    | nil => rfl
    | cons first rest => cases same
  | cons first rest =>
    cases texts' with
    | nil => cases same
    | cons first' rest' =>
      obtain ⟨rfl, others⟩ := List.cons.inj (Option.some.inj same)
      rw [(List.map_inj_right fun _ _ blank => (List.cons.inj blank).2).mp others]

/-- A line is cut into its opcode and its fields. -/
theorem cut_line {op : Text} {texts : List Text} (plain : Plain op) (parts : ∀ t ∈ texts, Plain t) :
    (Text.cutAt (· == .char ' ') (Instruction.line op texts)).map id
      (Option.map (Text.splitAt (· == .char ','))) = (op, fields texts) := by
  have gapless : ∀ g ∈ op, (g == .char ' ') = false := by
    intro g member
    apply beq_eq_false_iff_ne.mpr
    rintro rfl
    exact absurd (plain _ member) (by decide)
  cases texts with
  | nil =>
    have line : Instruction.line op [] = op := rfl
    rw [line, cutAt_none gapless]
    rfl
  | cons first rest =>
    have line : Instruction.line op (first :: rest) =
        op ++ .char ' ' :: Text.join ", " (first :: rest) := by
      simp [Instruction.line, Text.ofString]
    have commas := splitAt_join [] first rest (by simp)
      fun t member g inside => plain_not_comma g (parts t member g inside)
    rw [line, cutAt_append _ gapless rfl]
    exact congrArg (fun pieces => (op, some pieces)) commas

theorem line_injective {op op' : Text} {texts texts' : List Text} (plain : Plain op)
    (plain' : Plain op') (parts : ∀ t ∈ texts, Plain t) (parts' : ∀ t ∈ texts', Plain t)
    (same : Instruction.line op texts = Instruction.line op' texts') : op = op' ∧ texts = texts' := by
  have cut := cut_line plain parts
  rw [same, cut_line plain' parts'] at cut
  obtain ⟨name, rest⟩ := Prod.mk.inj cut
  exact ⟨name.symm, (fields_injective rest).symm⟩

theorem kind_write (t : OperandType) (v : t.Value) : (t.write v).kind = t.kind := by
  cases t <;> rfl

theorem kinds_toOperands (types : List OperandType) (args : Args types) :
    (Args.toOperands types args).map Operand.kind = types.map OperandType.kind := by
  induction types with
  | nil => rfl
  | cons t ts ih => exact congrArg₂ List.cons (kind_write t args.1) (ih args.2)

/-- An alias is written with operands of one of its shapes. -/
theorem kinds_shorten (a : Alias) (args : Args a.operands) :
    ∃ types ∈ a.shapes, (a.shorten (Args.toOperands a.operands args)).map Operand.kind =
      types.map OperandType.kind := by
  cases a with
  | branch c =>
    obtain ⟨cr, dest, ⟨⟩⟩ := args
    simp only [Alias.operands, Args.toOperands, OperandType.write, Alias.shorten]
    split
    · exact ⟨[.target], by simp [Alias.shapes], rfl⟩
    · exact ⟨[.crField, .target], by simp [Alias.shapes, Alias.operands], rfl⟩
  | _ => exact ⟨_, List.mem_singleton.mpr rfl, kinds_toOperands _ args⟩

/-- A mnemonic is the one of this instruction, which has operands of one of its shapes. -/
structure Uses (m : Mnemonic) (i : Instruction) : Prop where
  named : i.op = Text.ofString m.name
  shape : ∃ types ∈ m.shapes, i.operands.map Operand.kind = types.map OperandType.kind
  inRange : ∀ o ∈ i.operands, InRange o

theorem uses_decode {w : Word} {pc : Int64} {i : Instr}
    (found : Instr.ofWord? Opcode.all w pc = some i) : ∃ m, Uses m (.decode w pc) := by
  have inRange := (wellFormed_decode found).inRange
  cases short : i.simplify with
  | none =>
    refine ⟨.base i.op, ?_, ⟨i.op.operands, List.mem_singleton.mpr rfl, ?_⟩, inRange⟩
    · rw [decode_plain found short]
      rfl
    · rw [decode_plain found short]
      exact kinds_toOperands _ i.args
  | some u =>
    refine ⟨.short u.head, ?_, ?_, inRange⟩
    · rw [decode_short found short]
      rfl
    · rw [decode_short found short]
      exact kinds_shorten u.head u.args

section Text
variable {m : Mnemonic} {i : Instruction}

theorem opcodeName_name (m : Mnemonic) : GoSyntax.opcodeName m.name = opcode m := by
  rw [GoSyntax.opcodeName, ofName?_name, Option.bind_some]
  rfl

theorem ordered_name (m : Mnemonic) (operands : List Operand) :
    GoSyntax.ordered m.name operands = arranged m operands := by
  unfold GoSyntax.ordered arranged
  rw [isBranch_name, ofName?_name, Option.any_some]
  split
  · rfl
  · cases operands with
    | nil => rfl
    | cons first rest => cases first <;> simp [turned, Operand.kind]

theorem operands?_eq (uses : Uses m i) :
    GoSyntax.operands? i = some ((items m i.operands).map Item.text) := by
  obtain ⟨named, ⟨types, shape, kinds⟩, -⟩ := uses
  have ordered : some ((GoSyntax.ordered i.op i.operands).map GoSyntax.operand) =
      some (([] ++ (arranged m i.operands).map Item.operand ++ []).map Item.text) := by
    rw [named, ordered_name, List.nil_append, List.append_nil, List.map_map]
    rfl
  -- A special register is named beside the only operand.
  have only (single : types = [.gpr]) : ∃ o, i.operands = [o] := by
    have length := congrArg List.length kinds
    rw [single, List.length_map] at length
    exact List.length_eq_one_iff.mp length
  rw [GoSyntax.operands?, named, ofName?_name]
  cases m with
  | word | base op => exact named ▸ ordered
  | short a =>
    cases a with
    | mflr | mfctr | mtlr | mtctr =>
      obtain ⟨o, operands⟩ := only (List.mem_singleton.mp shape)
      rw [operands, items, arranged_single]
      rfl
    | _ => exact named ▸ ordered

theorem text?_known (known : i.isKnown = true) (uses : Uses m i) :
    GoSyntax.text? i =
      some (Instruction.line (opcode m) ((items m i.operands).map Item.text)) := by
  rw [GoSyntax.text?, if_pos known, operands?_eq uses, uses.named, opcodeName_name, Option.map_some]

end Text

section Distinct
variable {w w' : Word} {pc : Int64}

theorem text?_unknown (none : Instr.ofWord? Opcode.all w pc = none) :
    GoSyntax.text? (.decode w pc) =
      some (Instruction.line (Text.ofString "WORD") [.char '$' :: Instruction.wordText w]) := by
  rw [decode_unknown none]
  simp [GoSyntax.text?, Instruction.isKnown, Instruction.line, Text.join, Text.ofString]

theorem plain_word (w : Word) : ∀ t ∈ [Glyph.char '$' :: Instruction.wordText w], Plain t :=
  List.forall_mem_singleton.mpr (plain_append (s := "$") (by decide) (plain_wordText w))

theorem plain_items {m : Mnemonic} {i : Instruction} (uses : Uses m i) :
    ∀ t ∈ (items m i.operands).map Item.text, Plain t :=
  List.forall_mem_map.mpr fun item member => plain_item item (items_inRange uses.inRange item member)

/-- A word that is no instruction has no text of an instruction. -/
theorem known_ne_unknown {i : Instr} (found : Instr.ofWord? Opcode.all w pc = some i)
    (none : Instr.ofWord? Opcode.all w' pc = none) :
    GoSyntax.text? (.decode w pc) ≠ GoSyntax.text? (.decode w' pc) := by
  obtain ⟨m, uses⟩ := uses_decode found
  obtain ⟨plain, other⟩ := opcodes_plain m (mnemonic_mem_all m)
  rw [text?_known (isKnown_decode found) uses, text?_unknown none]
  intro same
  exact other (line_injective plain (by decide) (plain_items uses) (plain_word w')
    (Option.some.inj same)).1

theorem unknown_injective (none : Instr.ofWord? Opcode.all w pc = none)
    (none' : Instr.ofWord? Opcode.all w' pc = Option.none)
    (same : GoSyntax.text? (.decode w pc) = GoSyntax.text? (.decode w' pc)) : w = w' := by
  rw [text?_unknown none, text?_unknown none'] at same
  have texts := (line_injective (by decide) (by decide) (plain_word w) (plain_word w')
    (Option.some.inj same)).2
  have read := read_wordText w
  rw [(List.cons.inj (List.cons.inj texts).1).2, read_wordText] at read
  have values := congrArg Int64.toInt (Except.ok.inj read)
  have bound := w.isLt
  have bound' := w'.isLt
  rw [Int64.toInt_ofNat_of_lt (by omega), Int64.toInt_ofNat_of_lt (by omega)] at values
  exact BitVec.eq_of_toNat_eq (Int.ofNat_inj.mp values).symm

theorem known_injective {i i' : Instr} (found : Instr.ofWord? Opcode.all w pc = some i)
    (found' : Instr.ofWord? Opcode.all w' pc = some i')
    (same : GoSyntax.text? (.decode w pc) = GoSyntax.text? (.decode w' pc)) :
    (Instruction.decode w pc).op = (Instruction.decode w' pc).op ∧
      (Instruction.decode w pc).operands = (Instruction.decode w' pc).operands := by
  obtain ⟨m, uses⟩ := uses_decode found
  obtain ⟨m', uses'⟩ := uses_decode found'
  rw [text?_known (isKnown_decode found) uses, text?_known (isKnown_decode found') uses'] at same
  obtain ⟨name, texts⟩ := line_injective (opcodes_plain m (mnemonic_mem_all m)).1
    (opcodes_plain m' (mnemonic_mem_all m')).1 (plain_items uses) (plain_items uses')
    (Option.some.inj same)
  have shown := texts_injective (items_inRange uses.inRange) (items_inRange uses'.inRange) texts
  obtain ⟨types, shape, kinds⟩ := uses.shape
  obtain ⟨types', shape', kinds'⟩ := uses'.shape
  obtain rfl := mnemonic_unique shape shape' kinds kinds' name shown
  exact ⟨uses.named.trans uses'.named.symm, items_injective shown⟩

/-- The bits of a word that its instruction uses are a word of the instruction. -/
theorem isWord_used {i : Instr} (found : Instr.ofWord? Opcode.all w pc = some i) :
    i.op.isWord (w &&& ~~~unusedBits (Instruction.decode w pc).base) = true := by
  obtain ⟨belongs, -⟩ := (ofWord?_instr_eq_some_iff w pc i).mp found
  rw [base_known found, unusedBits_name]
  exact ((encodeAs_eq_ok_iff i.op.title i.op _ pc _).mp (encodeAs_read i.op.title pc belongs)).1

/-- A mnemonic and its operands decide the word, but for its unused bits. -/
theorem used_eq (op : (Instruction.decode w pc).op = (Instruction.decode w' pc).op)
    (operands : (Instruction.decode w pc).operands = (Instruction.decode w' pc).operands) :
    w &&& ~~~unusedBits (Instruction.decode w pc).base =
      w' &&& ~~~unusedBits (Instruction.decode w' pc).base := by
  have encoded := encode_decode w pc
  rw [← encode_written, op, operands, encode_written, encode_decode] at encoded
  exact (Except.ok.inj encoded).symm

end Distinct

/-- Every decoded instruction has a text, and instructions that have the same text have the same
mnemonic, also that of the table, and the same operands. Their words then differ in unused bits
only. -/
theorem go_texts_distinct (pc : Int64) :
    (∀ w, (GoSyntax.text? (.decode w pc)).isSome = true) ∧
    ∀ w w', GoSyntax.text? (.decode w pc) = GoSyntax.text? (.decode w' pc) →
      (Instruction.decode w pc).op = (Instruction.decode w' pc).op ∧
      (Instruction.decode w pc).base = (Instruction.decode w' pc).base ∧
      (Instruction.decode w pc).operands = (Instruction.decode w' pc).operands ∧
      w &&& ~~~unusedBits (Instruction.decode w pc).base =
        w' &&& ~~~unusedBits (Instruction.decode w pc).base := by
  constructor
  · intro w
    cases found : Instr.ofWord? Opcode.all w pc with
    | none => rw [text?_unknown found, Option.isSome_some]
    | some i =>
      obtain ⟨m, uses⟩ := uses_decode found
      rw [text?_known (isKnown_decode found) uses, Option.isSome_some]
  · intro w w' same
    cases found : Instr.ofWord? Opcode.all w pc with
    | none =>
      cases found' : Instr.ofWord? Opcode.all w' pc with
      | none =>
        obtain rfl := unknown_injective found found' same
        exact ⟨rfl, rfl, rfl, rfl⟩
      | some i' => exact absurd same.symm (known_ne_unknown found' found)
    | some i =>
      cases found' : Instr.ofWord? Opcode.all w' pc with
      | none => exact absurd same (known_ne_unknown found found')
      | some i' =>
        obtain ⟨op, operands⟩ := known_injective found found' same
        have used := used_eq op operands
        have entry : i.op = i'.op := isWord_unique (isWord_used found) (used ▸ isWord_used found')
        have base : (Instruction.decode w pc).base = (Instruction.decode w' pc).base := by
          rw [base_known found, base_known found', entry]
        exact ⟨op, base, operands, base ▸ used⟩

/-- A return has the same text whatever stands in its unused bits. -/
theorem go_texts_distinct_return :
    GoSyntax.text? (.decode 0x4E80F820 0) = GoSyntax.text? (.decode 0x4E800020 0) ∧
    (0x4E80F820 : Word) &&& ~~~unusedBits (Instruction.decode 0x4E80F820 0).base =
      0x4E800020 &&& ~~~unusedBits (Instruction.decode 0x4E80F820 0).base := by
  have same : GoSyntax.text? (.decode 0x4E80F820 0) = GoSyntax.text? (.decode 0x4E800020 0) := by
    decide +kernel
  exact ⟨same, ((go_texts_distinct 0).2 _ _ same).2.2.2⟩

end PowerAsm.Proofs.DistinctTexts
