import PowerAsm.Frame.Basic

/-! Where a frame keeps the registers it saves. All places are offsets from the stack
pointer after the frame was allocated. -/
namespace PowerAsm.Frame

structure SaveAreas where
  r0 : Int64
  /-- r3, with r4 to r12 behind it. -/
  volatileGprs : Int64
  ctr : Int64
  /-- f0, with f1 to f13 behind it. -/
  volatileFprs : Int64
  cr : Int64
  /-- The lowest general register of the frame, with the others behind it. -/
  gprs : Int64
  /-- The lowest floating point register of the frame, with the others behind it. -/
  fprs : Int64
  /-- The end of the last area. -/
  finish : Int64
deriving DecidableEq, Repr

/-- The areas one behind the other, from the end of the locals on. An area that the
frame does not have takes no room. -/
def saveAreas (f : Frame) : SaveAreas :=
  let word := f.target.wordSize
  let r0 := (f.target.linkAreaWords + f.paramWords + f.locals) * word + f.padding
  let volatileGprs := r0 + word
  let ctr := volatileGprs + Frame.volatileGprs * word
  let volatileFprs := ctr + word
  let afterVolatiles := if f.preserveVolatiles then volatileFprs + Frame.volatileFprs * fprSize else r0
  let cr :=
    match f.target.crSaveWord? with
    | none => afterVolatiles
    | some index => f.size + index * word
  let gprs := afterVolatiles + f.crWords * word
  let fprs := gprs + f.gprs * word
  let finish := fprs + f.fprs * fprSize
  { r0 := Int64.ofNat r0
    volatileGprs := Int64.ofNat volatileGprs
    ctr := Int64.ofNat ctr
    volatileFprs := Int64.ofNat volatileFprs
    cr := Int64.ofNat cr
    gprs := Int64.ofNat gprs
    fprs := Int64.ofNat fprs
    finish := Int64.ofNat finish }

/-- The condition fields of the frame as a mask whose most significant bit is cr0. -/
def crMask (f : Frame) : Int64 :=
  (List.range f.crFields).foldl (fun mask i => mask ||| (0x80 >>> Int64.ofNat (4 - i))) 0

/-- The general registers of the frame, the lowest first. -/
def savedGprs (f : Frame) : List Gpr :=
  (List.range f.gprs).map fun i => ⟨Int8.ofNat (32 - f.gprs + i)⟩

/-- The floating point registers of the frame, the lowest first. -/
def savedFprs (f : Frame) : List Fpr :=
  (List.range f.fprs).map fun i => ⟨Int8.ofNat (32 - f.fprs + i)⟩

/-- r3 to r12. -/
def volatileGprList : List Gpr := (List.range volatileGprs).map fun i => ⟨Int8.ofNat (3 + i)⟩

/-- f0 to f13. -/
def volatileFprList : List Fpr := (List.range volatileFprs).map fun i => ⟨Int8.ofNat i⟩

end PowerAsm.Frame

namespace PowerAsm

/-- A frame whose prolog was emitted. -/
structure OpenFrame where
  frame : Frame
  /-- The offset of the prolog. -/
  offset : Int64
  epilogs : Nat
deriving DecidableEq, Repr

namespace OpenFrame

/-- The size in bytes. -/
def size (o : OpenFrame) : Nat := o.frame.size

def sizeInWords (o : OpenFrame) : Nat := o.size / o.frame.target.wordSize

/-- Whether an epilog was emitted. -/
def isClosed (o : OpenFrame) : Bool := 0 < o.epilogs

end OpenFrame
end PowerAsm
