import Stencil.Declaration.Read
import Stencil.Position

/-
Scanning finds the envelopes of a text from left to right and reads each as a declaration. The first
that cannot be read stops the scan, and the fault says where it is.
-/
namespace Stencil

structure Options where
  reach : Reach := .greedy
  lenient : Bool := false
  deriving DecidableEq, Repr

structure Occurrence where
  declaration : Declaration
  offset : Nat
  length : Nat
  deriving DecidableEq

namespace Occurrence

def name (o : Occurrence) : Text := o.declaration.name

def stop (o : Occurrence) : Nat := o.offset + o.length

end Occurrence

structure Scan.Fault where
  position : Position
  cause : Declaration.Fault
  deriving DecidableEq, Repr

def Scan.Fault.message (fault : Scan.Fault) : Text :=
  "Invalid placeholder at ".toList ++ fault.position.text ++ ": ".toList ++ fault.cause.message

namespace Scan

/-- Reads the envelopes of a text that starts at a byte offset; a fault has the offset of its
envelope. -/
def occurrences (lenient : Bool) (start : Nat) :
    List Envelope.Piece → Except (Nat × Declaration.Fault) (List Occurrence)
  | [] => .ok []
  | piece :: pieces =>
    let offset := start + piece.gap.bytes
    let length := piece.envelope.bytes
    match Declaration.read lenient piece.envelope with
    | .error cause => .error (offset, cause)
    | .ok declaration =>
      (occurrences lenient (offset + length) pieces).map (⟨declaration, offset, length⟩ :: ·)

end Scan

def scan (options : Options) (text : Text) : Except Scan.Fault (List Occurrence) :=
  match Scan.occurrences options.lenient 0 (Envelope.cut options.reach text).1 with
  | .ok found => .ok found
  | .error (offset, cause) => .error ⟨Position.atOffset text offset, cause⟩

end Stencil
