/-! Text as it is read from a file. A text is a list of characters in which the
bytes that encode no character are kept as they are, so that reading and writing
never lose anything and every later rule (trimming, quoting, splitting) works on
whole characters. -/
namespace PowerAsm

/-- One unit of text: a character, or a byte that belongs to no character. -/
inductive Glyph where
  | char (c : Char)
  | stray (byte : UInt8)
deriving DecidableEq, Repr, Inhabited

abbrev Text := List Glyph

namespace Text

def ofString (s : String) : Text := s.toList.map Glyph.char

instance : Coe String Text := ⟨ofString⟩

/-- The text as a string. A stray byte shows as the replacement character. -/
def toString (t : Text) : String :=
  String.ofList (t.map fun
    | .char c => c
    | .stray _ => '�')

/-- The bytes of a text: every character in its encoding, every stray byte as itself. -/
def utf8 (t : Text) : List UInt8 :=
  t.flatMap fun
    | .char c => String.utf8EncodeChar c
    | .stray b => [b]

/-- The parts, with the separator between every two neighbours. -/
def join (separator : Text) (parts : List Text) : Text :=
  List.flatten (parts.intersperse separator)

/-- The six bits carried by a continuation byte. -/
def continuation? (b : UInt8) : Option Nat :=
  if 0x80 ≤ b.toNat ∧ b.toNat < 0xC0 then some (b.toNat - 0x80) else none

/-- What a leading byte announces: the bits it carries itself, how many
continuation bytes follow, and the least character that needs that many. -/
def announced (lead : Nat) : Nat × Nat × Nat :=
  if lead < 0xE0 then (lead - 0xC0, 1, 0x80)
  else if lead < 0xF0 then (lead - 0xE0, 2, 0x800)
  else (lead - 0xF0, 3, 0x10000)

/-- The character that the first bytes encode, with the number of bytes it takes.
Overlong forms, surrogates and values past the last character encode nothing. -/
def leadingChar? : List UInt8 → Option (Char × Nat)
  | [] => none
  | b :: rest =>
    let lead := b.toNat
    if lead < 0x80 then some (Char.ofNat lead, 1)
    else if lead < 0xC0 then none
    else
      let (bits, count, least) := announced lead
      let tail := rest.take count
      if tail.length < count then none
      else do
        let value ← tail.foldlM (fun v c => (continuation? c).map (v * 64 + ·)) bits
        if least ≤ value ∧ value.isValidChar then some (Char.ofNat value, count + 1) else none

/-- Reads bytes of which the first `skip` belong to a character already read. -/
def ofUtf8Skipping : Nat → List UInt8 → Text
  | _, [] => []
  | skip + 1, _ :: rest => ofUtf8Skipping skip rest
  | 0, b :: rest =>
    match leadingChar? (b :: rest) with
    | some (c, width) => .char c :: ofUtf8Skipping (width - 1) rest
    | none => .stray b :: ofUtf8Skipping 0 rest

/-- The text that the bytes hold. -/
def ofUtf8 (bytes : List UInt8) : Text := ofUtf8Skipping 0 bytes

end Text
end PowerAsm
