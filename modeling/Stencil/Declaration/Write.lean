import Stencil.Declaration
import Stencil.Envelope

/-
The written form of a declaration: an envelope around its properties in a fixed order. Absent values
are left out, and present ones are always written.
-/
namespace Stencil.Declaration

def writeProperty (key : Key) (value : Text) : Text := key.text ++ ':' :: ' ' :: value

def writeProperties (d : Declaration) : List Text :=
  writeProperty .name d.name :: writeProperty .kind d.kind.tag ::
    ((d.value.map fun value => writeProperty .value value.literal).toList ++
      (d.fallback.map fun value => writeProperty .fallback value.literal).toList)

def write (d : Declaration) : Text :=
  openMark ++ Text.join ", ".toList d.writeProperties ++ closeMark

end Stencil.Declaration
