import PowerAsm.Text.Glyph

/-! White space, and the trimming of it from both ends of a text. -/
namespace PowerAsm

/-- The characters with the White_Space property. The zero-width space and the
byte order mark do not have it. -/
def isBlank (c : Char) : Bool :=
  let n := c.toNat
  (0x09 ≤ n && n ≤ 0x0D) || n == 0x20 || n == 0x85 || n == 0xA0 || n == 0x1680
    || (0x2000 ≤ n && n ≤ 0x200A) || n == 0x2028 || n == 0x2029 || n == 0x202F
    || n == 0x205F || n == 0x3000

/-- A stray byte is never blank. -/
def Glyph.isBlank : Glyph → Bool
  | .char c => PowerAsm.isBlank c
  | .stray _ => false

namespace Text

def trimLeft (t : Text) : Text := t.dropWhile Glyph.isBlank

def trimRight (t : Text) : Text := (t.reverse.dropWhile Glyph.isBlank).reverse

/-- The text without the white space at its two ends. -/
def trim (t : Text) : Text := trimRight (trimLeft t)

/-- The longest start of the text without a glyph that meets `p`, and what follows
that glyph. The second part is absent when no glyph meets `p`. -/
def cutAt (p : Glyph → Bool) (t : Text) : Text × Option Text :=
  match t.dropWhile (fun g => !p g) with
  | [] => (t, none)
  | _ :: rest => (t.takeWhile (fun g => !p g), some rest)

/-- The pieces between the glyphs that meet `p`; a text without such a glyph is
one piece. -/
def splitAt (p : Glyph → Bool) : Text → List Text
  | [] => [[]]
  | g :: rest =>
    if p g then [] :: splitAt p rest
    else
      match splitAt p rest with
      | [] => [[g]]
      | piece :: pieces => (g :: piece) :: pieces

end Text
end PowerAsm
