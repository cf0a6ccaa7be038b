import Stencil.Declaration.Fault
import Stencil.Envelope
import Stencil.Literal
import Stencil.Property

/-
Reading a declaration. The properties stand between the marks with a comma between any two, also
where a comma is inside quotes. Faults are looked for in a fixed order, whatever the order of the
properties; of several properties with one key the first counts.
-/
namespace Stencil

namespace Declaration

/-- What remains without the marks. They are taken off by their length, wherever in the text its
envelope is. -/
def inner? (text : Text) : Option Text :=
  if Envelope.isIn text then text.slice? openMark.bytes (text.bytes - closeMark.bytes) else none

def readProperty (segment : Text) : Except Fault Property :=
  match Property.ofText? segment with
  | none => .error (.malformedProperty segment)
  | some property => .ok property

def readProperties : List Text → Except Fault (List Property)
  | [] => .ok []
  | segment :: segments => do
    let property ← readProperty segment
    let properties ← readProperties segments
    return property :: properties

/-- Reads an embedded literal. A lenient reader drops one that is not of the declared kind. -/
def readLiteral (lenient : Bool) (name : Text) (kind : Kind) (literal : Text) :
    Except Fault (Option Value) :=
  let verdict := Verdict.of kind literal
  if verdict.valid then .ok (kind.read? literal)
  else if lenient then .ok none
  else .error (.kindMismatch name kind verdict.detected)

def readEmbedded (lenient : Bool) (name : Text) (kind : Kind) :
    Option Text → Except Fault (Option Value)
  | none => .ok none
  | some literal => readLiteral lenient name kind literal

def readName (text : Text) (properties : List Property) : Except Fault Text :=
  match Property.lookup? Key.name.text properties with
  | none => .error (.missingName text)
  | some quoted =>
    let name := quoted.unquote?.getD quoted
    if name.isIdentifier then .ok name else .error (.invalidName name)

def readKind (properties : List Property) : Except Fault Kind :=
  match Property.lookup? Key.kind.text properties with
  | none => .ok .unknown
  | some tag =>
    match Kind.ofTag? tag with
    | none => .error (.unknownKind tag)
    | some kind => .ok kind

def requireValue (text : Text) (value fallback : Option Text) : Except Fault Unit :=
  if value.isNone && fallback.isNone then .error (.missingValue text) else .ok ()

def ofProperties (lenient : Bool) (text : Text) (properties : List Property) :
    Except Fault Declaration := do
  let name ← readName text properties
  let kind ← readKind properties
  let value := Property.lookup? Key.value.text properties
  let fallback := Property.lookup? Key.fallback.text properties
  requireValue text value fallback
  let value ← readEmbedded lenient name kind value
  let fallback ← readEmbedded lenient name kind fallback
  return { name, kind, value, fallback }

def read (lenient : Bool) (text : Text) : Except Fault Declaration :=
  match inner? text with
  | none => .error (.notPlaceholder text)
  | some inner => do
    let properties ← readProperties (inner.split ',')
    ofProperties lenient text properties

end Declaration
end Stencil
