import Stencil.Source

/-
However chains are nested, a source is searched as the list of its tables from left to right. It
resolves a name as the first table that has it does, and contains exactly the names it resolves.
-/
namespace Stencil.Source

mutual
/-- The tables of a source in the order in which they are asked. -/
def leaves : Source → List Bindings
  | .table bindings => [bindings]
  | .resolver bindings => [bindings]
  | .chain members => leavesAll members

def leavesAll : List Source → List Bindings
  | [] => []
  | source :: others => leaves source ++ leavesAll others
end

def Has (source : Source) (name : Text) : Prop :=
  ∃ bindings ∈ source.leaves, ∃ value, (name, value) ∈ bindings

mutual
theorem resolve_leaves (name : Text) : (source : Source) →
    source.resolve name = source.leaves.findSome? fun bindings => bindings.get? name
  | .table bindings => by simp [resolve, leaves]
  | .resolver bindings => by simp [resolve, leaves]
  | .chain members => resolveFirst_leaves name members

theorem resolveFirst_leaves (name : Text) : (members : List Source) →
    resolveFirst name members =
      (leavesAll members).findSome? fun bindings => bindings.get? name
  | [] => rfl
  | source :: others => by
    rw [resolveFirst, leavesAll, List.findSome?_append, resolve_leaves name source,
      resolveFirst_leaves name others]
    exact Option.orElse_eq_or
end

mutual
theorem contains_leaves (name : Text) : (source : Source) →
    source.contains name = source.leaves.any fun bindings => bindings.has name
  | .table bindings => by simp [contains, leaves]
  | .resolver bindings => by simp [contains, leaves, Bindings.get_isSome]
  | .chain members => containsAny_leaves name members

theorem containsAny_leaves (name : Text) : (members : List Source) →
    containsAny name members = (leavesAll members).any fun bindings => bindings.has name
  | [] => rfl
  | source :: others => by
    rw [containsAny, leavesAll, List.any_append, contains_leaves name source,
      containsAny_leaves name others]
end

theorem contains_eq_resolves (source : Source) (name : Text) :
    source.contains name = (source.resolve name).isSome := by
  rw [contains_leaves, resolve_leaves, Bool.eq_iff_iff, List.findSome?_isSome_iff, List.any_eq_true]
  simp only [Bindings.get_isSome]

theorem contains_iff {source : Source} {name : Text} : source.contains name ↔ source.Has name := by
  simp [contains_leaves, Has, Bindings.has]

instance (source : Source) (name : Text) : Decidable (source.Has name) :=
  decidable_of_iff _ contains_iff

end Stencil.Source
