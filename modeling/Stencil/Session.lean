import Stencil.Render

/-
A session works on one document. Each operation yields a new document or a fault, and after a
fault the session goes on with the document it had.
-/
namespace Stencil

inductive Document.Fault where
  | noText
  | scan (fault : Scan.Fault)
  | declaration (fault : Declaration.Fault)
  | render (fault : Render.Fault)
  deriving DecidableEq

def Document.Fault.message : Document.Fault → Text
  | .noText => "Document::load() cannot be called without text".toList
  | .scan fault => fault.message
  | .declaration fault => fault.message
  | .render fault => fault.message

def Document.Fault.declaration? : Document.Fault → Option Declaration.Fault
  | .scan fault => some fault.cause
  | .declaration fault => some fault
  | .noText | .render _ => none

namespace Document

def ofText? : Option Text → Except Fault Document
  | none => .error .noText
  | some text => (load {} text).mapError .scan

inductive Operation where
  | load (text : Text)
  | replace (options : Options) (text : Text)
  | fromText (text : Option Text)
  | rerender (strict : Bool) (source : Lookup)

def apply (document : Document) : Operation → Except Fault Document
  | .load text => (document.reload text).mapError .scan
  | .replace options text => (Document.load options text).mapError .scan
  | .fromText text => ofText? text
  | .rerender strict source =>
    match render strict document source with
    | .error fault => .error (.render fault)
    | .ok text => (document.reload text).mapError .scan

/-- The document after an operation, and the fault if it failed. -/
def step (document : Document) (operation : Operation) : Document × Option Fault :=
  match document.apply operation with
  | .ok changed => (changed, none)
  | .error fault => (document, some fault)

def run (document : Document) (operations : List Operation) : Document :=
  operations.foldl (fun current operation => (current.step operation).1) document

end Document
end Stencil
