import PowerAsm.Assembler.Basic
import PowerAsm.Listing

/-! The log of an assembler as text: a listing line for every word that was written,
and a marked one for every word that was patched. -/
namespace PowerAsm

/-- The line of an event in code that is loaded at `base`, with the line feed. -/
def Event.logLine (order : ByteOrder) (base : Int64) : Event → Text
  | .emitted offset w => Listing.line order (base + offset) w ++ "\n"
  | .patched offset w => "patch " ++ Listing.line order (base + offset) w ++ "\n"

/-- The lines of events, in order. -/
def Event.logText (order : ByteOrder) (base : Int64) (events : List Event) : Text :=
  events.flatMap (logLine order base)

end PowerAsm
