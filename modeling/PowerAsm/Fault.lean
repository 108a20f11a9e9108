import PowerAsm.Form
import PowerAsm.Frame.Request
import PowerAsm.Register
import PowerAsm.Word

/-! Everything that can go wrong while code is assembled, by cause. `EncodingError`
and `BranchRangeError` are about a single instruction, `Misuse` is about the order of
requests, `Defect` is about code that was changed behind the back of the assembler,
and `Fault` collects them. -/
namespace PowerAsm
open Numeral

/-- Why an instruction has no encoding. -/
inductive EncodingProblem where
  /-- The value of a field does not fit the width of the field. -/
  | width (field : String) (value : Int64) (bits : Nat) (signed : Bool)
  | misalignedDisplacement (displacement : Int64)
  | notRotate (opcode : Int64)
  | invalidBase (number : Int64)
  | zeroBase
  | shiftAmount (amount limit : Int64)
  | misalignedEntry (entry : Int64)
  | alignment (modulus : Int64)
  | notPowerOfTwo (align : Int64)
deriving DecidableEq, Repr

/-- An instruction that cannot be encoded. -/
structure EncodingError where
  /-- The name of the instruction. -/
  op : String
  problem : EncodingProblem
deriving DecidableEq, Repr

namespace EncodingError

/-- The operand at fault. -/
def field (e : EncodingError) : String :=
  match e.problem with
  | .width field _ _ _ => field
  | .misalignedDisplacement _ => "DS"
  | .notRotate _ => "opcode"
  | .invalidBase _ | .zeroBase => "base"
  | .shiftAmount _ _ => "n"
  | .misalignedEntry _ => "entry"
  | .alignment _ => "modulus"
  | .notPowerOfTwo _ => "align"

/-- The value of the operand at fault. -/
def value (e : EncodingError) : Int64 :=
  match e.problem with
  | .width _ value _ _ => value
  | .misalignedDisplacement v | .notRotate v | .invalidBase v | .shiftAmount v _
  | .misalignedEntry v | .alignment v | .notPowerOfTwo v => v
  | .zeroBase => 0

/-- The width of the field at fault, zero when no width is at fault. -/
def bits (e : EncodingError) : Nat :=
  match e.problem with
  | .width _ _ bits _ => bits
  | _ => 0

/-- Whether the field at fault is signed. -/
def signed (e : EncodingError) : Bool :=
  match e.problem with
  | .width _ _ _ signed => signed
  | _ => false

/-- What is wrong, without the name of the instruction. -/
def reason (e : EncodingError) : Text :=
  match e.problem with
  | .width field value bits signed =>
    field ++ " " ++ decimal value.toInt ++ " does not fit in " ++ decimal bits ++ "-bit "
      ++ (if signed then "signed" else "unsigned") ++ " field"
  | .misalignedDisplacement v => "displacement " ++ decimal v.toInt ++ " is not a multiple of 4"
  | .notRotate v => "opcode " ++ decimal v.toInt ++ " is not a rotate form (want 21 or 30)"
  | .invalidBase v => "invalid base register " ++ decimal v.toInt
  | .zeroBase => "r0 cannot be used as a base register"
  | .shiftAmount n limit =>
    "shift amount " ++ decimal n.toInt ++ " out of range [0, " ++ decimal limit.toInt ++ "]"
  | .misalignedEntry v => "call target " ++ hexadecimal v.toInt ++ " is not word aligned"
  | .alignment v => "invalid alignment " ++ decimal v.toInt
  | .notPowerOfTwo v => "alignment " ++ decimal v.toInt ++ " is not a power of two"

def message (e : EncodingError) : Text := e.op ++ ": " ++ e.reason

end EncodingError

/-- A branch that cannot reach its target. -/
structure BranchRangeError where
  source : Int64
  dest : Int64
  /-- The width of the displacement field, in words. -/
  bits : Nat
deriving DecidableEq, Repr

def BranchRangeError.message (e : BranchRangeError) : Text :=
  let way := "branch from " ++ hexadecimal e.source.toInt ++ " to " ++ hexadecimal e.dest.toInt
  if (e.dest - e.source).toInt % 4 = 0 then
    way ++ " does not fit in " ++ decimal e.bits ++ "-bit displacement"
  else way ++ " is not word aligned"

/-- A request that comes at the wrong time or to the wrong place. -/
inductive Misuse where
  | foreignLabel (label : Int64)
  | unboundLabel (label : Int64)
  /-- A label that is bound at `first` was to be bound again at `second`. -/
  | reboundLabel (label first second : Int64)
  /-- Branches wait for a label that nothing bound. -/
  | danglingLabel (label branches : Nat) (first : Int64)
  | exchangeOperands (exchange dest compare : Gpr)
  /-- A frame was opened at `offset` and never closed. -/
  | openFrame (offset : Int64)
  | frozenFrame (request : Frame.Request)
  | lateParameter (locals : Nat)
  | exhausted (request : Frame.Request)
  | secondProlog
  | targetMismatch (frame assembler : String)
  | foreignEpilog
deriving DecidableEq, Repr

def Misuse.message : Misuse → Text
  | .foreignLabel l => "label " ++ decimal l.toInt ++ " was not created by this assembler"
  | .unboundLabel l => "label " ++ decimal l.toInt ++ " is not bound"
  | .reboundLabel l first second =>
    "label " ++ decimal l.toInt ++ " bound twice (at " ++ hexadecimal first.toInt ++ " and "
      ++ hexadecimal second.toInt ++ ")"
  | .danglingLabel l branches first =>
    "label " ++ decimal l ++ " is unbound but referenced by " ++ decimal branches
      ++ " branch(es), first at " ++ hexadecimal first.toInt
  | .exchangeOperands exchange dest compare =>
    "cmpxchg operands " ++ exchange.name ++ ", " ++ dest.name ++ ", " ++ compare.name
      ++ " must be distinct and not r0"
  | .openFrame offset => "frame opened at " ++ hexadecimal offset.toInt ++ " has no epilog"
  | .frozenFrame request =>
    "frame: " ++ request.name ++ " requested after the prolog was emitted"
  | .lateParameter locals =>
    "frame: parameter slot requested after " ++ decimal locals ++ " local slot(s)"
  | .exhausted request =>
    "frame: no non-volatile " ++ (match request with
      | .conditionField => "condition register fields"
      | .generalRegister => "general registers"
      | .floatRegister => "float registers"
      | other => other.name) ++ " left"
  | .secondProlog => "frame: prolog emitted twice"
  | .targetMismatch frame assembler =>
    "frame: " ++ frame ++ " frame used with a " ++ assembler ++ " assembler"
  | .foreignEpilog => "frame: epilog emitted on a different assembler than its prolog"

/-- Code or a request that no correct caller produces. -/
inductive Defect where
  | wordOffset (offset length : Int64)
  /-- The word at a patch site is no branch. -/
  | notBranch (opcode : Nat) (site : Int64)
  | formMismatch (site : Int64) (recorded held : Form)
  | absoluteBranch (site : Int64)
  /-- The displacement at a patch site is not zero. -/
  | patchCollision (site : Int64) (held : Word)
  | unknownCondition (code : UInt8)
  | frameLayout (reached size : Int64)
deriving DecidableEq, Repr

def Defect.message : Defect → Text
  | .wordOffset offset length =>
    "BUG: word offset " ++ decimal offset.toInt ++ " out of range for buffer of length "
      ++ decimal length.toInt
  | .notBranch opcode site =>
    "BUG: opcode " ++ decimal opcode ++ " at patch site " ++ hexadecimal site.toInt
      ++ " is not a branch"
  | .formMismatch site recorded held =>
    "BUG: patch site " ++ hexadecimal site.toInt ++ " recorded as " ++ recorded.name
      ++ "-form but holds " ++ held.name ++ "-form"
  | .absoluteBranch site =>
    "BUG: patch site " ++ hexadecimal site.toInt ++ " holds an absolute branch"
  | .patchCollision site held =>
    "BUG: patch collision at " ++ hexadecimal site.toInt ++ ": displacement field already "
      ++ hexadecimal held.toNat
  | .unknownCondition code => "BUG: unknown condition " ++ decimal code.toNat
  | .frameLayout reached size =>
    "BUG: frame layout ends at " ++ decimal reached.toInt ++ " but frame size is "
      ++ decimal size.toInt

/-- Why a request to an assembler failed. -/
inductive Fault where
  | encoding (e : EncodingError)
  | branchRange (e : BranchRangeError)
  | misuse (m : Misuse)
  | defect (d : Defect)
  /-- Something was used that is not there: storage outside a code segment, or the word
  size of a frame without a target. -/
  | outOfBounds
deriving DecidableEq, Repr

/-- The text of a fault. Using what is not there has none. -/
def Fault.message? : Fault → Option Text
  | .encoding e => some e.message
  | .branchRange e => some e.message
  | .misuse m => some m.message
  | .defect d => some d.message
  | .outOfBounds => none

/-- Condition numbers come from callers and may stand for no condition. -/
def Fault.unknownCondition (code : UInt8) : Fault := .defect (.unknownCondition code)

end PowerAsm
