import PowerAsm.Text.Numeral
import PowerAsm.Text.Printable

/-! Quoted text, as it appears in messages: printable characters as they are,
everything else as an escape. -/
namespace PowerAsm.Text

/-- The escape letters of the control characters that have one. -/
def controlEscape? (c : Char) : Option Char :=
  match c.toNat with
  | 0x07 => some 'a'
  | 0x08 => some 'b'
  | 0x09 => some 't'
  | 0x0A => some 'n'
  | 0x0B => some 'v'
  | 0x0C => some 'f'
  | 0x0D => some 'r'
  | _ => none

/-- One glyph inside quotes. -/
def escape : Glyph → Text
  | .stray b => "\\x" ++ Numeral.hexByte b
  | .char c =>
    if c = '"' ∨ c = '\\' then [.char '\\', .char c]
    else if isPrintable c then [.char c]
    else
      match controlEscape? c with
      | some letter => [.char '\\', .char letter]
      | none =>
        let code := Numeral.digits 16 c.toNat
        if c.toNat < 0x20 ∨ c.toNat = 0x7F then "\\x" ++ Numeral.zeroPadded 2 code
        else if c.toNat < 0x10000 then "\\u" ++ Numeral.zeroPadded 4 code
        else "\\U" ++ Numeral.zeroPadded 8 code

/-- The text between double quotes. -/
def quoted (t : Text) : Text := .char '"' :: t.flatMap escape ++ [.char '"']

end PowerAsm.Text
