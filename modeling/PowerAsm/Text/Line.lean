/-! The lines of a source. A line ends at a line feed or at the end of the source,
a carriage return before that end is dropped, and a line that does not fit the
reading buffer together with its line feed is refused. -/
namespace PowerAsm.Line

/-- The size of the buffer a line and its line feed have to fit in. -/
def bufferSize : Nat := 65536

/-- The pieces between line feeds, in order. `start` holds the bytes of the current
piece, last first. Nothing after the last line feed is no piece. -/
def pieces (start : List UInt8) : List UInt8 → List (List UInt8)
  | [] => if start.isEmpty then [] else [start.reverse]
  | b :: rest => if b = 0x0A then start.reverse :: pieces [] rest else pieces (b :: start) rest

/-- A piece without the carriage return it may end in. -/
def dropReturn (piece : List UInt8) : List UInt8 :=
  if piece.getLast? = some 0x0D then piece.dropLast else piece

/-- A line, or `none` where the source holds a line that is too long. -/
def ofPiece (piece : List UInt8) : Option (List UInt8) :=
  if piece.length < bufferSize then some (dropReturn piece) else none

/-- The lines of a source. -/
def split (source : List UInt8) : List (Option (List UInt8)) :=
  (pieces [] source).map ofPiece

end PowerAsm.Line
