import Stencil.Scan

/-
A document is a template text with the occurrences scanned out of it. Loading a text replaces
both, or fails and yields no document.
-/
namespace Stencil

structure Document where
  text : Text := []
  occurrences : List Occurrence := []
  options : Options := {}
  deriving DecidableEq

namespace Document

def empty (options : Options) : Document := { options }

def reload (document : Document) (text : Text) : Except Scan.Fault Document :=
  (scan document.options text).map fun occurrences => { document with text, occurrences }

def load (options : Options) (text : Text) : Except Scan.Fault Document :=
  (empty options).reload text

def byName? (document : Document) (name : Text) : Option Occurrence :=
  document.occurrences.find? (·.name = name)

def names (document : Document) : List Text := (document.occurrences.map (·.name)).eraseDups

theorem name_mem {document : Document} {o : Occurrence} (member : o ∈ document.occurrences) :
    o.name ∈ document.names := by
  rw [names, List.mem_eraseDups]
  exact List.mem_map_of_mem member

def declarations (document : Document) : List Declaration :=
  document.occurrences.map (·.declaration)

/-- The occurrences of a fragment that name a variable of the document, at their offsets in the
fragment. -/
def findIn (document : Document) (fragment : Text) : Except Scan.Fault (List Occurrence) :=
  (scan document.options fragment).map fun found =>
    found.filter fun o => document.names.contains o.name

def spanOf (document : Document) (o : Occurrence) : Span :=
  Span.covering document.text o.offset o.length

end Document
end Stencil
