import PowerAsm.Instruction.Parser
import PowerAsm.Proofs.Numerals

/-! Instructions that are written down are read again. An operand is read as it was
written, but for a branch target, which is a number until the mnemonic is known to be that
of a branch. -/
namespace PowerAsm.Proofs.InstructionText
open Numeral Numerals

/-- A visible character of the basic set that neither separates operands nor starts a
comment. -/
def isPlain : Glyph → Bool
  | .char c => 0x21 ≤ c.toNat && c.toNat ≤ 0x7E && c != ',' && c != '#'
  | .stray _ => false

def Plain (t : Text) : Prop := ∀ g ∈ t, isPlain g = true

instance (t : Text) : Decidable (Plain t) := inferInstanceAs (Decidable (∀ g ∈ t, _))

theorem plain_append {s t : Text} (first : Plain s) (second : Plain t) : Plain (s ++ t) := by
  intro g member
  rcases List.mem_append.mp member with before | after
  · exact first g before
  · exact second g after

theorem plain_digits (base n : Nat) (large : 1 < base) (small : base ≤ 16) :
    Plain (digits base n) := by
  have figures : ∀ d < 16, isPlain (figure d) = true := by decide
  intro g member
  obtain ⟨d, below, rfl⟩ := digits_figures base n large g member
  exact figures d (by omega)

theorem plain_sign {t : Text} (plain : Plain t) (negative : Prop) [Decidable negative] :
    Plain (if negative then .char '-' :: t else t) := by
  split
  · exact plain_append (s := [.char '-']) (by simp [Plain, isPlain]) plain
  · exact plain

theorem plain_decimal (v : Int) : Plain (decimal v) :=
  plain_sign (plain_digits 10 _ (by decide) (by decide)) _

theorem plain_hexadecimal (v : Int) : Plain (hexadecimal v) :=
  plain_sign (plain_append (s := "0x") (by decide) (plain_digits 16 _ (by decide) (by decide))) _

/-- The numbers of an operand are those of registers. -/
def InRange : Operand → Prop
  | .register n | .floatRegister n | .memory _ n => 0 ≤ n.toInt ∧ n.toInt ≤ 31
  | .conditionField n => 0 ≤ n.toInt ∧ n.toInt ≤ 7
  | .immediate _ | .target _ => True
  | .other _ => False

theorem plain_text (o : Operand) (inRange : InRange o) : Plain o.text := by
  cases o with
  | register n => exact plain_append (s := "r") (by decide) (plain_decimal _)
  | floatRegister n => exact plain_append (s := "f") (by decide) (plain_decimal _)
  | conditionField n => exact plain_append (s := "cr") (by decide) (plain_decimal _)
  | immediate v => exact plain_decimal _
  | memory disp base =>
    have opening : Plain "(r" := by decide
    have closing : Plain ")" := by decide
    exact plain_append (plain_append (plain_append (plain_decimal _) opening) (plain_decimal _)) closing
  | target address => exact plain_hexadecimal _
  | other n => exact inRange.elim

theorem not_blank_of_plain : ∀ g : Glyph, isPlain g = true → g.isBlank = false
  | .stray _, plain => by cases plain
  | .char c, plain => by
    simp only [isPlain, Bool.and_eq_true, decide_eq_true_eq] at plain
    simp only [Glyph.isBlank, isBlank, Bool.or_eq_false_iff, Bool.and_eq_false_iff,
      decide_eq_false_iff_not, beq_eq_false_iff_ne]
    omega

theorem plain_not_comma (g : Glyph) (plain : isPlain g = true) : (g == .char ',') = false := by
  apply beq_eq_false_iff_ne.mpr
  rintro rfl
  exact absurd plain (by decide)

private theorem dropWhile_of_head {t : Text} (first : ∀ g ∈ t.head?, g.isBlank = false) :
    t.dropWhile Glyph.isBlank = t := by
  cases t with
  | nil => rfl
  | cons g rest => rw [List.dropWhile_cons_of_neg (by simp [first g rfl])]

/-- A text without blanks at its ends is not changed by trimming. -/
theorem trim_eq_self {t : Text} (first : ∀ g ∈ t.head?, g.isBlank = false)
    (last : ∀ g ∈ t.getLast?, g.isBlank = false) : t.trim = t := by
  have reversed : ∀ g ∈ t.reverse.head?, g.isBlank = false := by
    rwa [List.head?_reverse]
  rw [Text.trim, Text.trimLeft, dropWhile_of_head first, Text.trimRight,
    dropWhile_of_head reversed, List.reverse_reverse]

theorem trim_plain {t : Text} (plain : Plain t) : t.trim = t :=
  trim_eq_self (fun g member => not_blank_of_plain g (plain g (List.mem_of_head? member)))
    (fun g member => not_blank_of_plain g (plain g (List.mem_of_getLast? member)))

theorem trim_blank_plain {t : Text} (plain : Plain t) : Text.trim (.char ' ' :: t) = t := by
  have skipped : Text.trimLeft (.char ' ' :: t) = Text.trimLeft t := rfl
  rw [Text.trim, skipped]
  exact trim_plain plain

theorem splitAt_none {p : Glyph → Bool} {t : Text} (none : ∀ g ∈ t, p g = false) :
    Text.splitAt p t = [t] := by
  induction t with
  | nil => rfl
  | cons g rest ih =>
    simp only [Text.splitAt, none g (by simp), ih fun g member => none g (by simp [member]),
      Bool.false_eq_true, ↓reduceIte]

theorem splitAt_append {p : Glyph → Bool} {t : Text} {g : Glyph} (rest : Text)
    (none : ∀ g ∈ t, p g = false) (mark : p g = true) :
    Text.splitAt p (t ++ g :: rest) = t :: Text.splitAt p rest := by
  induction t with
  | nil => simp only [List.nil_append, Text.splitAt, mark, ↓reduceIte]
  | cons first t ih =>
    simp only [List.cons_append, Text.splitAt, none first (by simp),
      ih fun g member => none g (by simp [member]), Bool.false_eq_true, ↓reduceIte]

theorem cutAt_none {p : Glyph → Bool} {t : Text} (none : ∀ g ∈ t, p g = false) :
    Text.cutAt p t = (t, Option.none) := by
  have dropped : t.dropWhile (fun g => !p g) = [] := by
    rw [← List.append_nil t, List.dropWhile_append_of_pos (by simpa using none)]
    rfl
  rw [Text.cutAt, dropped]

theorem cutAt_append {p : Glyph → Bool} {t : Text} {g : Glyph} (rest : Text)
    (none : ∀ g ∈ t, p g = false) (mark : p g = true) :
    Text.cutAt p (t ++ g :: rest) = (t, some rest) := by
  have before : ∀ g ∈ t, (!p g) = true := by
    intro g member
    simp [none g member]
  have dropped : (t ++ g :: rest).dropWhile (fun g => !p g) = g :: rest := by
    rw [List.dropWhile_append_of_pos before, List.dropWhile_cons_of_neg (by simp [mark])]
  have taken : (t ++ g :: rest).takeWhile (fun g => !p g) = t := by
    rw [List.takeWhile_append_of_pos before, List.takeWhile_cons_of_neg (by simp [mark]),
      List.append_nil]
  rw [Text.cutAt, dropped, taken]

theorem join_cons_cons (separator first second : Text) (rest : List Text) :
    Text.join separator (first :: second :: rest) =
      first ++ separator ++ Text.join separator (second :: rest) := by
  simp [Text.join, List.intersperse]

/-- Joined texts without commas are split at the commas between them, with a blank left
before all but the first. -/
theorem splitAt_join (blanks first : Text) (rest : List Text)
    (clean : ∀ g ∈ blanks, (g == .char ',') = false)
    (none : ∀ t ∈ first :: rest, ∀ g ∈ t, (g == .char ',') = false) :
    Text.splitAt (· == .char ',') (blanks ++ Text.join ", " (first :: rest)) =
      (blanks ++ first) :: rest.map (.char ' ' :: ·) := by
  have start : ∀ g ∈ blanks ++ first, (g == .char ',') = false := by
    intro g member
    rcases List.mem_append.mp member with before | after
    · exact clean g before
    · exact none first (by simp) g after
  induction rest generalizing blanks first with
  | nil =>
    have single : Text.join ", " [first] = first := by simp [Text.join]
    rw [single]
    exact splitAt_none start
  | cons second rest ih =>
    have shape : blanks ++ Text.join ", " (first :: second :: rest) =
        (blanks ++ first) ++ .char ',' :: ([.char ' '] ++ Text.join ", " (second :: rest)) := by
      rw [join_cons_cons]
      simp [Text.ofString]
    have others : ∀ t ∈ second :: rest, ∀ g ∈ t, (g == .char ',') = false :=
      fun t member => none t (List.mem_cons_of_mem _ member)
    rw [shape, splitAt_append _ start rfl, ih [.char ' '] second (by decide) others]
    · rfl
    · intro g member
      rcases List.mem_append.mp member with before | after
      · simp_all
      · exact others second (by simp) g after

theorem join_ne_nil {first : Text} (rest : List Text) (filled : first ≠ []) :
    Text.join ", " (first :: rest) ≠ [] := by
  cases rest with
  | nil => simpa [Text.join] using filled
  | cons second rest =>
    rw [join_cons_cons]
    simp [filled]

private theorem join_head {first : Text} (rest : List Text) (filled : first ≠ [])
    (plain : Plain first) : ∀ g ∈ (Text.join ", " (first :: rest)).head?, g.isBlank = false := by
  obtain ⟨g, tail, rfl⟩ := List.exists_cons_of_ne_nil filled
  have start : (Text.join ", " ((g :: tail) :: rest)).head? = some g := by
    cases rest with
    | nil => simp [Text.join]
    | cons second rest =>
      rw [join_cons_cons]
      rfl
  rw [start]
  intro _ same
  cases same
  exact not_blank_of_plain g (plain g (by simp))

private theorem join_last (first : Text) (rest : List Text)
    (parts : ∀ t ∈ first :: rest, t ≠ [] ∧ Plain t) :
    ∀ g ∈ (Text.join ", " (first :: rest)).getLast?, g.isBlank = false := by
  induction rest generalizing first with
  | nil =>
    intro g member
    simp only [Text.join, List.intersperse, List.flatten_cons, List.flatten_nil,
      List.append_nil] at member
    exact not_blank_of_plain g ((parts first (by simp)).2 g (List.mem_of_getLast? member))
  | cons second rest ih =>
    have filled := join_ne_nil rest (parts second (by simp)).1
    rw [join_cons_cons, List.getLast?_append, Option.or_of_isSome (by simp [filled])]
    exact ih second fun t member => parts t (by simp [member])

/-- Joined operands have no blanks at their ends. -/
theorem trim_join (first : Text) (rest : List Text)
    (parts : ∀ t ∈ first :: rest, t ≠ [] ∧ Plain t) :
    (Text.join ", " (first :: rest)).trim = Text.join ", " (first :: rest) :=
  trim_eq_self (join_head rest (parts first (by simp)).1 (parts first (by simp)).2)
    (join_last first rest parts)

/-- Neither have they after a mnemonic. -/
theorem trim_line (op first : Text) (rest : List Text) (named : op ≠ [])
    (solid : ∀ g ∈ op, g.isBlank = false) (parts : ∀ t ∈ first :: rest, t ≠ [] ∧ Plain t) :
    Text.trim (op ++ .char ' ' :: Text.join ", " (first :: rest)) =
      op ++ .char ' ' :: Text.join ", " (first :: rest) := by
  apply trim_eq_self
  · obtain ⟨g, tail, rfl⟩ := List.exists_cons_of_ne_nil named
    intro _ same
    cases same
    exact solid g (by simp)
  · have filled := join_ne_nil rest (parts first (by simp)).1
    rw [List.append_cons, List.getLast?_append, Option.or_of_isSome (by simp [filled])]
    exact join_last first rest parts

/-- The operand as it is read before the mnemonic is known to be that of a branch. -/
def untargeted : Operand → Operand
  | .target address => .immediate address
  | o => o

theorem decimal_ne_nil (v : Int) : decimal v ≠ [] := by
  unfold decimal
  split
  · simp
  · exact digits_ne_nil 10 _ (by decide)

theorem isPrefixOf_letters (letters : String) (t : Text) :
    (Text.ofString letters).isPrefixOf (letters ++ t) = true :=
  List.isPrefixOf_iff_prefix.mpr (List.prefix_append _ _)

theorem parseRegister_text (letters : String) (last : Int) (n : Int64) (above : 0 ≤ n.toInt)
    (below : n.toInt ≤ last) :
    Operand.parseRegister letters last (letters ++ decimal n.toInt) = .ok n := by
  simp only [Operand.parseRegister, List.drop_left, readDecimal?_decimal, isPrefixOf_letters, above, below,
    and_self, ↓reduceIte, Int64.ofInt_toInt]

theorem parseImmediate_of_read {t : Text} {v : Int64} (filled : t ≠ [])
    (value : Numeral.read t = .ok v) : Operand.parseImmediate t = .ok v := by
  have some : t.isEmpty = false := by simp [filled]
  simp only [Operand.parseImmediate, some, value, Bool.false_eq_true, ↓reduceIte]

/-- Digits do not end in a parenthesis. -/
theorem last_digits (s : Text) (base n : Nat) (large : 1 < base) (small : base ≤ 16) :
    (s ++ digits base n).getLast? ≠ some (.char ')') := by
  have figures : ∀ d < 16, figure d ≠ .char ')' := by decide
  rw [List.getLast?_append, Option.or_of_isSome (by simp [digits_ne_nil base n large])]
  intro last
  obtain ⟨d, below, same⟩ := digits_figures base n large _ (List.mem_of_getLast? last)
  exact figures d (by omega) same.symm

theorem last_decimal (s : Text) (v : Int) : (s ++ decimal v).getLast? ≠ some (.char ')') := by
  unfold decimal
  split
  · rw [List.append_cons]
    exact last_digits _ 10 _ (by decide) (by decide)
  · exact last_digits _ 10 _ (by decide) (by decide)

theorem last_hexadecimal (v : Int) : (hexadecimal v).getLast? ≠ some (.char ')') := by
  simp only [hexadecimal]
  split
  · rw [← List.cons_append]
    exact last_digits _ 16 _ (by decide) (by decide)
  · exact last_digits _ 16 _ (by decide) (by decide)

theorem decimal_unopened (v : Int) : ∀ g ∈ decimal v, (g == .char '(') = false := by
  have figures : ∀ d < 10, figure d ≠ .char '(' := by decide
  have digit : ∀ g ∈ digits 10 v.natAbs, (g == .char '(') = false := by
    intro g member
    obtain ⟨d, below, rfl⟩ := digits_figures 10 v.natAbs (by decide) g member
    exact beq_eq_false_iff_ne.mpr (figures d below)
  unfold decimal
  split
  · exact List.forall_mem_cons.mpr ⟨by decide, digit⟩
  · exact digit

theorem hexadecimal_start (v : Int) :
    ∃ g rest, (g = .char '-' ∨ ∃ d < 10, g = figure d) ∧ hexadecimal v = g :: rest := by
  by_cases negative : v < 0
  · exact ⟨.char '-', _, .inl rfl, if_pos negative⟩
  · exact ⟨figure 0, _, .inr ⟨0, by decide, rfl⟩, if_neg negative⟩

theorem decimal_start (v : Int) :
    ∃ g rest, (g = .char '-' ∨ ∃ d < 10, g = figure d) ∧ decimal v = g :: rest := by
  by_cases negative : v < 0
  · exact ⟨.char '-', digits 10 v.natAbs, .inl rfl, by rw [decimal, if_pos negative]⟩
  · cases shape : digits 10 v.natAbs with
    | nil => exact absurd shape (digits_ne_nil 10 _ (by decide))
    | cons g rest =>
      have figures := digits_figures 10 v.natAbs (by decide) g (by simp [shape])
      exact ⟨g, rest, .inr figures, by rw [decimal, if_neg negative, shape]⟩

/-- A text that starts like a number and does not end in a parenthesis is a number. -/
theorem parse_number {g : Glyph} {rest : Text} {v : Int64}
    (start : g = .char '-' ∨ ∃ d < 10, g = figure d)
    (last : (g :: rest).getLast? ≠ some (.char ')'))
    (value : Numeral.read (g :: rest) = .ok v) :
    Operand.parse (g :: rest) = .ok (.immediate v) := by
  have letters : g ≠ .char 'c' ∧ g ≠ .char 'r' ∧ g ≠ .char 'f' := by
    have figures : ∀ d < 10, figure d ≠ .char 'c' ∧ figure d ≠ .char 'r' ∧ figure d ≠ .char 'f' := by
      decide
    rcases start with rfl | ⟨d, below, rfl⟩
    · decide
    · exact figures d below
  have unlike (c : Char) (tail : Text) (differs : g ≠ .char c) :
      List.isPrefixOf (.char c :: tail) (g :: rest) = false := by
    rw [List.isPrefixOf, beq_eq_false_iff_ne.mpr differs.symm, Bool.false_and]
  have condition := unlike 'c' [.char 'r'] letters.1
  have general := unlike 'r' [] letters.2.1
  have float := unlike 'f' [] letters.2.2
  have filled : List.isEmpty (g :: rest) = false := rfl
  have number := parseImmediate_of_read (List.cons_ne_nil g rest) value
  unfold Operand.parse
  rw [filled, if_neg (by decide), if_neg last, show Text.ofString "cr" = [.char 'c', .char 'r'] from rfl,
    condition, if_neg (by decide), show Text.ofString "r" = [.char 'r'] from rfl, general,
    if_neg (by decide), show Text.ofString "f" = [.char 'f'] from rfl, float, if_neg (by decide), number]
  rfl

/-- An operand is read as it was written. -/
theorem parse_text (o : Operand) (inRange : InRange o) :
    Operand.parse o.text = .ok (untargeted o) := by
  cases o with
  | register n =>
    have read := parseRegister_text "r" 31 n inRange.1 inRange.2
    show Operand.parse ("r" ++ decimal n.toInt) = .ok (.register n)
    unfold Operand.parse
    rw [if_neg (by simp [decimal_ne_nil]), if_neg (last_decimal _ _), if_neg nofun,
      if_pos (isPrefixOf_letters _ _), read]
    rfl
  | floatRegister n =>
    have read := parseRegister_text "f" 31 n inRange.1 inRange.2
    show Operand.parse ("f" ++ decimal n.toInt) = .ok (.floatRegister n)
    unfold Operand.parse
    rw [if_neg (by simp [decimal_ne_nil]), if_neg (last_decimal _ _), if_neg nofun, if_neg nofun,
      if_pos (isPrefixOf_letters _ _), read]
    rfl
  | conditionField n =>
    have read := parseRegister_text "cr" 7 n inRange.1 inRange.2
    show Operand.parse ("cr" ++ decimal n.toInt) = .ok (.conditionField n)
    unfold Operand.parse
    rw [if_neg (by simp [decimal_ne_nil]), if_neg (last_decimal _ _),
      if_pos (isPrefixOf_letters _ _), read]
    rfl
  | immediate v =>
    obtain ⟨g, rest, start, shape⟩ := decimal_start v.toInt
    show Operand.parse (decimal v.toInt) = .ok (.immediate v)
    rw [shape]
    refine parse_number start ?_ ?_
    · rw [← shape]
      exact last_decimal [] v.toInt
    · rw [← shape]
      exact read_decimal v
  | memory disp base =>
    have number := parseImmediate_of_read (decimal_ne_nil disp.toInt) (read_decimal disp)
    have register := parseRegister_text "r" 31 base inRange.1 inRange.2
    have shape : (Operand.memory disp base).text =
        decimal disp.toInt ++ .char '(' :: (Text.ofString "r" ++ decimal base.toInt ++ [.char ')']) := by
      simp [Operand.text, Text.ofString]
    have opened : Text.cutAt (· == .char '(') (Operand.memory disp base).text =
        (decimal disp.toInt, some (Text.ofString "r" ++ decimal base.toInt ++ [.char ')'])) := by
      rw [shape]
      exact cutAt_append _ (decimal_unopened disp.toInt) rfl
    have closed : (Operand.memory disp base).text.getLast? = some (.char ')') :=
      List.getLast?_concat
    unfold Operand.parse Operand.parseMemory
    rw [if_neg (by rw [shape]; simp), if_pos closed, opened]
    simp only [List.dropLast_concat, number, register]
    rfl
  | target address =>
    obtain ⟨g, rest, start, shape⟩ := hexadecimal_start address.toInt
    show Operand.parse (hexadecimal address.toInt) = .ok (.immediate address)
    rw [shape]
    refine parse_number start ?_ ?_
    · rw [← shape]
      exact last_hexadecimal address.toInt
    · rw [← shape]
      exact read_hexadecimal address
  | other n => exact inRange.elim

/-- An instruction that can be written down: its mnemonic has no blanks, its operands have
the numbers of registers, and a branch target stands last after the mnemonic of a branch,
where no other number stands. -/
structure WellFormed (op : Text) (operands : List Operand) : Prop where
  named : op ≠ []
  solid : ∀ g ∈ op, g.isBlank = false
  inRange : ∀ o ∈ operands, InRange o
  inner : ∀ o ∈ operands.dropLast, ∀ address, o ≠ .target address
  last : ∀ o ∈ operands.getLast?,
    if Instruction.isBranch op then ∀ v, o ≠ .immediate v else ∀ address, o ≠ .target address

theorem untargeted_eq_self {o : Operand} (plain : ∀ address, o ≠ .target address) :
    untargeted o = o := by
  cases o with
  | target address => exact absurd rfl (plain address)
  | _ => rfl

theorem asTarget_untargeted {o : Operand} (plain : ∀ v, o ≠ .immediate v) :
    Operand.asTarget (untargeted o) = o := by
  cases o with
  | immediate v => exact absurd rfl (plain v)
  | _ => rfl

/-- The last operand of a branch is made a target again. -/
theorem retarget {op : Text} {operands : List Operand} (formed : WellFormed op operands) :
    (if Instruction.isBranch op then
        Instruction.modifyLast Operand.asTarget (operands.map untargeted)
      else operands.map untargeted) = operands := by
  rcases List.eq_nil_or_concat operands with rfl | ⟨front, o, rfl⟩
  · split <;> rfl
  · have front_same : front.map untargeted = front := by
      rw [List.map_congr_left (g := id), List.map_id]
      intro o member
      exact untargeted_eq_self (formed.inner o (by simpa using member))
    have at_end := formed.last o (by simp)
    by_cases branch : Instruction.isBranch op = true
    · rw [if_pos branch] at at_end ⊢
      simp [Instruction.modifyLast, front_same, asTarget_untargeted at_end]
    · rw [if_neg branch] at at_end ⊢
      simp [front_same, untargeted_eq_self at_end]

theorem mapM_parse (operands : List Operand) (inRange : ∀ o ∈ operands, InRange o) :
    (operands.map Operand.text).mapM Operand.parse = .ok (operands.map untargeted) := by
  induction operands with
  | nil => rfl
  | cons o rest ih =>
    rw [List.map_cons, List.mapM_cons, parse_text o (inRange o (by simp)),
      ih fun o member => inRange o (by simp [member])]
    rfl

theorem text_ne_nil (o : Operand) : o.text ≠ [] := by
  cases o with
  | immediate v => exact decimal_ne_nil _
  | target address =>
    obtain ⟨g, rest, -, shape⟩ := hexadecimal_start address.toInt
    show hexadecimal address.toInt ≠ []
    simp [shape]
  | memory disp base => simp [Operand.text, decimal_ne_nil]
  | _ => simp [Operand.text, Text.ofString]

/-- A mnemonic and operand texts without commas are read one by one. -/
theorem parse_texts {op : Text} {texts : List Text} {operands : List Operand} (named : op ≠ [])
    (solid : ∀ g ∈ op, g.isBlank = false) (parts : ∀ t ∈ texts, t ≠ [] ∧ Plain t)
    (read : texts.mapM Operand.parse = .ok operands) :
    Instruction.parse (Instruction.line op texts) =
      .ok (Instruction.written op (if Instruction.isBranch op then
        Instruction.modifyLast Operand.asTarget operands else operands)) := by
  have gapless : ∀ g ∈ op, Instruction.isGap g = false := by
    intro g member
    have visible := solid g member
    simp only [Instruction.isGap, Bool.or_eq_false_iff, beq_eq_false_iff_ne]
    constructor <;> rintro rfl <;> exact absurd visible (by decide)
  have filled : op.isEmpty = false := by simp [named]
  cases texts with
  | nil =>
    rw [List.mapM_nil] at read
    cases read
    have trimmed : op.trim = op :=
      trim_eq_self (fun g member => solid g (List.mem_of_head? member))
        (fun g member => solid g (List.mem_of_getLast? member))
    have line : Instruction.line op [] = op := rfl
    have nothing : (if Instruction.isBranch op then
        Instruction.modifyLast Operand.asTarget [] else []) = [] := by
      split <;> rfl
    rw [line, nothing]
    simp [Instruction.parse, trimmed, filled, cutAt_none gapless]
    rfl
  | cons first rest =>
    have line : Instruction.line op (first :: rest) =
        op ++ .char ' ' :: Text.join ", " (first :: rest) := by
      simp [Instruction.line, Text.ofString]
    have cut := cutAt_append (Text.join ", " (first :: rest)) gapless
      (show Instruction.isGap (.char ' ') = true from rfl)
    have fields : Text.splitAt (· == .char ',') (Text.join ", " (first :: rest)) =
        first :: rest.map (.char ' ' :: ·) :=
      splitAt_join [] first rest (by simp)
        fun t member g inside => plain_not_comma g ((parts t member).2 g inside)
    have trimmed : (first :: rest.map (.char ' ' :: ·)).map Text.trim = first :: rest := by
      rw [List.map_cons, trim_plain (parts first (by simp)).2, List.map_map]
      congr 1
      rw [List.map_congr_left (g := id), List.map_id]
      intro t member
      exact trim_blank_plain (parts t (by simp [member])).2
    have operandsRead : (first :: rest.map (.char ' ' :: ·)).mapM
        (fun field => Operand.parse field.trim) = .ok operands := by
      rw [← read, ← trimmed, List.mapM_map]
      rfl
    have full : (Text.join ", " (first :: rest)).isEmpty = false := by
      simp [join_ne_nil _ (parts first (by simp)).1]
    have someText : (op ++ .char ' ' :: Text.join ", " (first :: rest)).isEmpty = false := by
      simp
    rw [line]
    unfold Instruction.parse
    rw [trim_line op first rest named solid parts]
    simp only [cut, Option.getD_some, trim_join first rest parts, full, someText, fields,
      operandsRead, Bool.false_eq_true, ↓reduceIte]
    rfl

/-- An instruction that is written down is read again. -/
theorem parse_line {op : Text} {operands : List Operand} (formed : WellFormed op operands) :
    Instruction.parse (Instruction.line op (operands.map Operand.text)) =
      .ok (Instruction.written op operands) := by
  have parts : ∀ t ∈ operands.map Operand.text, t ≠ [] ∧ Plain t :=
    List.forall_mem_map.mpr fun o member => ⟨text_ne_nil o, plain_text o (formed.inRange o member)⟩
  rw [parse_texts formed.named formed.solid parts (mapM_parse operands formed.inRange),
    retarget formed]

end PowerAsm.Proofs.InstructionText
