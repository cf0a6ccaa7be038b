import Stencil.Value

/-
Sources supply values for names when a template is rendered. A chain asks its members in order,
and chains may be nested.
-/
namespace Stencil

def Text.precedes : Text → Text → Bool
  | [], _ => true
  | _ :: _, [] => false
  | c :: a, d :: b => if c = d then precedes a b else c.toNat < d.toNat

/-- Names with values, newest first: of several values for a name the newest counts. -/
abbrev Bindings := List (Text × Value)

namespace Bindings

def get? (bindings : Bindings) (name : Text) : Option Value :=
  (bindings.find? (·.1 = name)).map (·.2)

def has (bindings : Bindings) (name : Text) : Bool := bindings.any (·.1 = name)

def ofPairs (pairs : List (Text × Value)) : Bindings := pairs.reverse

def visible : Bindings → Bindings
  | [] => []
  | pair :: older => pair :: (visible older).filter (·.1 ≠ pair.1)

def sorted (bindings : Bindings) : List (Text × Value) :=
  bindings.visible.mergeSort fun a b => a.1.precedes b.1

theorem get_isSome (bindings : Bindings) (name : Text) :
    (bindings.get? name).isSome = bindings.has name := by
  induction bindings with
  | nil => rfl
  | cons pair older ih =>
    by_cases same : pair.1 = name
    · simp [get?, has, same]
    · simpa [get?, has, same] using ih

end Bindings

structure Lookup where
  resolve : Text → Option Value
  contains : Text → Bool := fun name => (resolve name).isSome

inductive Source where
  | table (bindings : Bindings)
  | resolver (bindings : Bindings)
  | chain (members : List Source)

namespace Source

mutual
def resolve (name : Text) : Source → Option Value
  | .table bindings => bindings.get? name
  | .resolver bindings => bindings.get? name
  | .chain members => resolveFirst name members

def resolveFirst (name : Text) : List Source → Option Value
  | [] => none
  | source :: others => resolve name source <|> resolveFirst name others
end

mutual
/-- A table looks for the name itself; a resolver has a name when it resolves it. -/
def contains (name : Text) : Source → Bool
  | .table bindings => bindings.has name
  | .resolver bindings => (bindings.get? name).isSome
  | .chain members => containsAny name members

def containsAny (name : Text) : List Source → Bool
  | [] => false
  | source :: others => contains name source || containsAny name others
end

def lookup (source : Source) : Lookup where
  resolve name := source.resolve name
  contains name := source.contains name

end Source
end Stencil
