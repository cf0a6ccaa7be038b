import Stencil.Document
import Stencil.Source

/-
Rendering puts values in place of the occurrences of a document: the value of the source, or else
the embedded value, or else the fallback. An occurrence without any of the three stays as it is.
The text is worked over from left to right, so each replacement moves what follows it.
-/
namespace Stencil

namespace Declaration

def resolve (d : Declaration) (source : Lookup) : Option Value :=
  source.resolve d.name <|> d.value <|> d.fallback

/-- Neither an embedded value nor one in the source; a fallback does not count. -/
def lacksValue (d : Declaration) (source : Lookup) : Bool :=
  d.value.isNone && !source.contains d.name

end Declaration

namespace Render

inductive Fault where
  | missingVariables (names : List Text)
  | kindMismatch (name : Text) (expected : Kind) (value : Value)
  deriving DecidableEq

def Fault.message : Fault → Text
  | .missingVariables names =>
    "Variables in template without value: ".toList ++ Text.join [','] names
  | .kindMismatch name _ value =>
    "Cannot assign ".toList ++ value.text ++ " to variable ".toList ++ name

def missing (source : Lookup) (occurrences : List Occurrence) : List Text :=
  ((occurrences.filter (·.declaration.lacksValue source)).map (·.name)).eraseDups

/-- The text as far as it has been worked over, and by how many bytes the part before the next
occurrence has grown. -/
structure Pass where
  working : Text
  shift : Int
  deriving DecidableEq

namespace Pass

def place (pass : Pass) (o : Occurrence) : Nat := (o.offset + pass.shift).toNat

def replace (reach : Reach) (pass : Pass) (offset : Nat) (value : Text) : Pass :=
  match pass.working.cutAt? offset with
  | none => pass
  | some (before, rest) =>
    match Envelope.atStart? reach rest with
    | none => pass
    | some (envelope, after) =>
      ⟨before ++ value ++ after, pass.shift + value.bytes - envelope.bytes⟩

def step (reach : Reach) (source : Lookup) (pass : Pass) (o : Occurrence) : Except Fault Pass :=
  match o.declaration.resolve source with
  | none => .ok pass
  | some value =>
    if o.declaration.admits value then .ok (pass.replace reach (pass.place o) value.text)
    else .error (.kindMismatch o.name o.declaration.kind value)

end Pass

def substitute (document : Document) (source : Lookup) : Except Fault Text := do
  let pass ← document.occurrences.foldlM (Pass.step document.options.reach source)
    ⟨document.text, 0⟩
  return pass.working

end Render

def render (strict : Bool) (document : Document) (source : Lookup) : Except Render.Fault Text :=
  let missing := Render.missing source document.occurrences
  if strict && !missing.isEmpty then .error (.missingVariables missing)
  else Render.substitute document source

end Stencil
