import Stencil.Proofs.Declaration.Grammar
import Stencil.Proofs.Source
import Stencil.Render

/-
A chain of sources is as good as one table. However it is nested, the tables in it are asked from
left to right, and merging them into one, where the earlier of two values for a name stays, gives
the same answers and so the same renderings.
-/
namespace Stencil

namespace Bindings

theorem has_of_get {bindings : Bindings} {name : Text} {value : Value}
    (given : bindings.get? name = some value) : bindings.has name := by
  rw [← get_isSome, given, Option.isSome_some]

theorem get_eq_none {bindings : Bindings} {name : Text} :
    bindings.get? name = none ↔ ¬ bindings.has name := by
  rw [← get_isSome, Option.not_isSome_iff_eq_none]

/-- Both tables in one; the second is only asked for names that the first does not have. -/
def merge (first second : Bindings) : Bindings :=
  first ++ second.filter fun pair => !first.has pair.1

def mergeAll (tables : List Bindings) : Bindings := tables.foldr merge []

theorem get_append (first second : Bindings) (name : Text) :
    (first ++ second : Bindings).get? name = (first.get? name).or (second.get? name) := by
  rw [get?, List.find?_append, Option.map_or]
  rfl

theorem get_filter {second : Bindings} {name : Text} {p : Text × Value → Bool}
    (keeps : ∀ pair : Text × Value, pair.1 = name → p pair) :
    Bindings.get? (second.filter p) name = second.get? name := by
  have same : (fun pair : Text × Value => p pair && decide (pair.1 = name)) =
      fun pair => decide (pair.1 = name) := by
    funext pair
    by_cases here : pair.1 = name
    · simp [here, keeps pair here]
    · simp [here]
  rw [get?, get?, List.find?_filter]
  simp only [same, Bool.decide_and, Bool.decide_eq_true]

theorem get_merge (first second : Bindings) (name : Text) :
    (first.merge second).get? name = (first.get? name).or (second.get? name) := by
  rw [merge, get_append]
  cases given : first.get? name with
  | some value => rfl
  | none =>
    have absent := get_eq_none.mp given
    apply get_filter
    intro pair same
    simp [same, absent]

theorem get_mergeAll (tables : List Bindings) (name : Text) :
    (mergeAll tables).get? name = tables.findSome? fun table => table.get? name := by
  induction tables with
  | nil => rfl
  | cons table tables ih =>
    rw [mergeAll, List.foldr_cons, get_merge, ← mergeAll, ih, List.findSome?_cons]
    cases table.get? name <;> rfl

end Bindings

namespace Source

def merged (source : Source) : Bindings := Bindings.mergeAll source.leaves

theorem resolve_merged (source : Source) (name : Text) :
    source.resolve name = source.merged.get? name := by
  rw [resolve_leaves, merged, Bindings.get_mergeAll]

theorem contains_merged (source : Source) (name : Text) :
    source.contains name = source.merged.has name := by
  rw [contains_eq_resolves, resolve_merged, Bindings.get_isSome]

theorem lookup_merged (source : Source) : source.lookup = (table source.merged).lookup := by
  simp only [lookup, resolve_merged, contains_merged, resolve, contains]

theorem resolve_leftmost {source : Source} {name : Text} {value : Value} :
    source.resolve name = some value ↔ ∃ leaf,
      Leftmost (fun bindings => bindings.has name) source.leaves leaf ∧
        leaf.get? name = some value := by
  rw [resolve_leaves, List.findSome?_eq_some_iff]
  constructor
  · intro found
    obtain ⟨earlier, leaf, later, split, given, before⟩ := found
    refine ⟨leaf, ⟨earlier, later, split, Bindings.has_of_get given, ?_⟩, given⟩
    intro bindings member
    exact Bindings.get_eq_none.mp (before bindings member)
  · intro found
    obtain ⟨leaf, ⟨earlier, later, split, -, before⟩, given⟩ := found
    refine ⟨earlier, leaf, later, split, given, ?_⟩
    intro bindings member
    exact Bindings.get_eq_none.mpr (before bindings member)

end Source

/-- The first table that has a name decides, and a source has the names that it resolves. -/
theorem nested_chain_is_one_table (source : Source) :
    (∀ name value, source.resolve name = some value ↔ ∃ leaf,
      Leftmost (fun bindings => bindings.has name) source.leaves leaf ∧
        leaf.get? name = some value) ∧
    (∀ name, source.contains name ↔ ∃ value, source.resolve name = some value) ∧
    let one := Source.table source.merged
    (∀ name, source.resolve name = one.resolve name ∧
      source.contains name = one.contains name) ∧
    ∀ strict document,
      render strict document source.lookup = render strict document one.lookup := by
  refine ⟨fun name value => Source.resolve_leftmost, ?_, ?_, ?_⟩
  · intro name
    rw [Source.contains_eq_resolves, Option.isSome_iff_exists]
  · intro name
    exact ⟨source.resolve_merged name, source.contains_merged name⟩
  · intro strict document
    rw [source.lookup_merged]

-- An empty chain has no say, and of two values for a name the one further left counts.
example :
    let left := Source.chain [.chain [], .chain [.resolver [(['b'], .null)]]]
    let source := Source.chain [left, .table [(['a'], .boolean true), (['b'], .boolean false)]]
    source.resolve ['b'] = some .null ∧
      source.merged = [(['b'], .null), (['a'], .boolean true)] := by
  decide

end Stencil
