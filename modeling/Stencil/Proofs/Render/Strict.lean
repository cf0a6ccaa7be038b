import Mathlib.Data.List.Induction
import Mathlib.Data.List.Nodup
import Stencil.Proofs.Render.Misfit
import Stencil.Proofs.Source

/-
Strict rendering asks beforehand for a value for every occurrence, of its own or from the source,
and lists the variables without one. When there are none it renders like any other rendering, and
then no fallback is used.
-/
namespace Stencil

variable {α : Type} [BEq α] [LawfulBEq α]

theorem eraseDups_known {xs : List α} {x : α} (known : x ∈ xs) :
    (xs ++ [x]).eraseDups = xs.eraseDups := by
  simp [List.eraseDups_append, List.removeAll, known]

theorem eraseDups_fresh {xs : List α} {x : α} (fresh : x ∉ xs) :
    (xs ++ [x]).eraseDups = xs.eraseDups ++ [x] := by
  simp [List.eraseDups_append, List.removeAll, fresh, List.eraseDups_cons]

theorem eraseDups_nodup (xs : List α) : xs.eraseDups.Nodup := by
  induction xs using List.reverseRecOn with
  | nil => simp
  | append_singleton xs x ih =>
    by_cases known : x ∈ xs
    · rwa [eraseDups_known known]
    · have fresh : x ∉ xs.eraseDups := by rwa [List.mem_eraseDups]
      rw [eraseDups_fresh known, ← List.concat_eq_append]
      exact (List.nodup_concat _ _).mpr ⟨fresh, ih⟩

namespace Render

open Envelope

def Unprovided (source : Source) (o : Occurrence) : Prop :=
  o.declaration.value = none ∧ ¬ source.Has o.name

instance (source : Source) (o : Occurrence) : Decidable (Unprovided source o) :=
  inferInstanceAs (Decidable (_ ∧ _))

/-- The names of the occurrences with a property, each once, in the order in which they first occur
with it. -/
structure Lists (p : Occurrence → Prop) (occurrences : List Occurrence) (names : List Text) :
    Prop where
  once : names.Nodup
  members : ∀ name, name ∈ names ↔ ∃ o ∈ occurrences, p o ∧ o.name = name
  ordered : names.Pairwise fun a b => ∃ o ∈ occurrences, p o ∧ o.name = a ∧
    ∀ other ∈ occurrences, p other → other.name = b → o.offset < other.offset

theorem names_ordered {occurrences : List Occurrence}
    (ascending : occurrences.Pairwise fun a b => a.offset < b.offset) :
    (occurrences.map (·.name)).eraseDups.Pairwise fun a b =>
      ∃ o ∈ occurrences, o.name = a ∧ ∀ other ∈ occurrences, other.name = b →
        o.offset < other.offset := by
  induction occurrences using List.reverseRecOn with
  | nil => simp
  | append_singleton occurrences last ih =>
    obtain ⟨front, -, behind⟩ := List.pairwise_append.mp ascending
    have ahead (o : Occurrence) (member : o ∈ occurrences) : o.offset < last.offset :=
      behind o member last (List.mem_singleton_self last)
    have widen {a b : Text} (before : ∃ o ∈ occurrences, o.name = a ∧
        ∀ other ∈ occurrences, other.name = b → o.offset < other.offset) :
        ∃ o ∈ occurrences ++ [last], o.name = a ∧
          ∀ other ∈ occurrences ++ [last], other.name = b → o.offset < other.offset := by
      obtain ⟨o, member, named, first⟩ := before
      refine ⟨o, List.mem_append_left _ member, named, ?_⟩
      intro other within same
      rcases List.mem_append.mp within with old | new
      · exact first other old same
      · rw [List.mem_singleton.mp new]
        exact ahead o member
    rw [List.map_append, List.map_singleton]
    by_cases known : last.name ∈ occurrences.map (·.name)
    · rw [eraseDups_known known]
      exact (ih front).imp widen
    · rw [eraseDups_fresh known]
      refine List.pairwise_append.mpr ⟨(ih front).imp widen, List.pairwise_singleton .., ?_⟩
      intro a old b new
      rw [List.mem_eraseDups] at old
      obtain ⟨o, member, named⟩ := List.mem_map.mp old
      refine widen ⟨o, member, named, ?_⟩
      intro other within same
      rw [List.mem_singleton.mp new] at same
      exact absurd (same ▸ List.mem_map_of_mem within) known

theorem filter_lists {occurrences : List Occurrence}
    (ascending : occurrences.Pairwise fun a b => a.offset < b.offset) (p : Occurrence → Bool) :
    Lists (fun o => p o) occurrences ((occurrences.filter p).map (·.name)).eraseDups := by
  refine ⟨eraseDups_nodup _, ?_, ?_⟩
  · intro name
    simp [List.mem_eraseDups, and_assoc]
  · refine (names_ordered (ascending.filter p)).imp ?_
    intro a b before
    obtain ⟨o, member, named, first⟩ := before
    obtain ⟨within, holds⟩ := List.mem_filter.mp member
    refine ⟨o, within, holds, named, ?_⟩
    intro other inside good same
    exact first other (List.mem_filter.mpr ⟨inside, good⟩) same

theorem lacksValue_iff {source : Source} {o : Occurrence} :
    o.declaration.lacksValue source.lookup ↔ Unprovided source o := by
  rw [Declaration.lacksValue, Unprovided, ← Source.contains_iff]
  simp [Source.lookup, Occurrence.name]

theorem render_strict (document : Document) (source : Lookup) :
    render true document source =
      if missing source document.occurrences = [] then render false document source
      else .error (.missingVariables (missing source document.occurrences)) := by
  simp only [render, Bool.true_and, Bool.false_and, Bool.not_eq_true', List.isEmpty_eq_false_iff]
  split <;> simp_all

section Loaded

variable {options : Options} {text : Text} {document : Document}

theorem missing_lists (loaded : Document.load options text = .ok document) (source : Source) :
    Lists (Unprovided source) document.occurrences
      (missing source.lookup document.occurrences) := by
  have listed := filter_lists (Document.occurrences_ascending loaded)
    fun o => o.declaration.lacksValue source.lookup
  simp only [lacksValue_iff] at listed
  exact listed

theorem missing_eq_nil (loaded : Document.load options text = .ok document) (source : Source) :
    missing source.lookup document.occurrences = [] ↔
      ∀ o ∈ document.occurrences, ¬ Unprovided source o := by
  rw [List.eq_nil_iff_forall_not_mem]
  simp only [(missing_lists loaded source).members]
  constructor
  · intro none o member lacks
    exact none o.name ⟨o, member, lacks, rfl⟩
  · intro provided name listed
    obtain ⟨o, member, lacks, -⟩ := listed
    exact provided o member lacks

end Loaded

theorem provided_iff {source : Source} {o : Occurrence} :
    ¬ Unprovided source o ↔
      (source.resolve o.name).isSome ∨ o.declaration.value.isSome := by
  rw [Unprovided, ← Source.contains_iff, Source.contains_eq_resolves, not_and_or, not_not, or_comm,
    ← ne_eq, ← Option.isSome_iff_ne_none]

/-- The value for an occurrence when fallbacks do not count. -/
def Gives (source : Source) (o : Occurrence) (value : Value) : Prop :=
  source.resolve o.name = some value ∨
    source.resolve o.name = none ∧ o.declaration.value = some value

theorem provided_gives {source : Source} {o : Occurrence} (provided : ¬ Unprovided source o) :
    ∃ value, o.declaration.resolve source.lookup = some value ∧ Gives source o value := by
  have searched : o.declaration.resolve source.lookup =
      (source.resolve o.name <|> o.declaration.value <|> o.declaration.fallback) := rfl
  rw [searched]
  have some := provided_iff.mp provided
  cases given : source.resolve o.name with
  | some value => exact ⟨value, rfl, Or.inl given⟩
  | none =>
    rw [given] at some
    cases own : o.declaration.value with
    | some value => exact ⟨value, rfl, Or.inr ⟨given, own⟩⟩
    | none => simp [own] at some

section Loaded

variable {options : Options} {text : Text} {document : Document} {source : Source}

theorem render_strict_missing (loaded : Document.load options text = .ok document)
    {names : List Text} :
    render true document source.lookup = .error (.missingVariables names) ↔
      names ≠ [] ∧ names = missing source.lookup document.occurrences := by
  rw [render_strict]
  split
  · next none =>
    constructor
    · intro failed
      obtain ⟨o, -, value, -, same, -⟩ := render_first_misfit loaded failed
      cases same
    · intro listed
      exact absurd (listed.2.trans none) listed.1
  · next some =>
    rw [Except.error.injEq, Fault.missingVariables.injEq]
    constructor
    · intro same
      exact ⟨same ▸ some, same.symm⟩
    · intro listed
      exact listed.2.symm

/-- The fault names the variables; without one nothing but the fallbacks is different. -/
theorem strict_rendering_asks_for_values (loaded : Document.load options text = .ok document)
    (source : Source) :
    ((∃ names, render true document source.lookup = .error (.missingVariables names)) ↔
      ∃ o ∈ document.occurrences, Unprovided source o) ∧
    (∀ names, render true document source.lookup = .error (.missingVariables names) →
      Lists (Unprovided source) document.occurrences names) ∧
    ((∀ o ∈ document.occurrences, ¬ Unprovided source o) →
      render true document source.lookup = render false document source.lookup ∧
      ∀ output, render true document source.lookup = .ok output →
        ∃ given : Occurrence → Value,
          (∀ o ∈ document.occurrences, Gives source o (given o)) ∧
            output = refill options.reach text
              (document.occurrences.map fun o => (given o).text)) := by
  refine ⟨?_, ?_, ?_⟩
  · have none := missing_eq_nil loaded source
    simp only [render_strict_missing loaded]
    constructor
    · intro failed
      obtain ⟨names, some, rfl⟩ := failed
      rw [ne_eq, none] at some
      simpa using some
    · intro lacking
      obtain ⟨o, member, lacks⟩ := lacking
      refine ⟨_, ?_, rfl⟩
      intro empty
      exact none.mp empty o member lacks
  · intro names failed
    obtain ⟨-, rfl⟩ := (render_strict_missing loaded).mp failed
    exact missing_lists loaded source
  · intro provided
    have alike : render true document source.lookup = render false document source.lookup := by
      rw [render_strict, if_pos ((missing_eq_nil loaded source).mpr provided)]
    refine ⟨alike, ?_⟩
    intro output rendered
    exact render_refills loaded rendered fun o member => provided_gives (provided o member)

end Loaded

theorem missing_before_mismatched :
    let document : Document := ⟨"$\x7b\x7bname: b, defaultValue: 1\x7d\x7d\n".toList ++
        "$\x7b\x7bname: a, type: NUMBER, value: 2\x7d\x7d\n".toList ++
        "$\x7b\x7bname: c, defaultValue: 3\x7d\x7d\n".toList ++
        "$\x7b\x7bname: b, defaultValue: 4\x7d\x7d".toList,
      [⟨⟨['b'], .unknown, none, some (.raw ['1'])⟩, 0, 29⟩,
        ⟨⟨['a'], .number, some (.number (.ofDecimal ⟨false, 2, 0⟩)), none⟩, 30, 36⟩,
        ⟨⟨['c'], .unknown, none, some (.raw ['3'])⟩, 67, 29⟩,
        ⟨⟨['b'], .unknown, none, some (.raw ['4'])⟩, 97, 29⟩], {}⟩
    let wrong := Source.chain [.chain [], .table [(['a'], .boolean true)]]
    let full := Source.chain [.chain [.table [(['b'], .string ['x'])], .resolver []],
      .resolver [(['b'], .null), (['c'], .null)]]
    Document.load {} document.text = .ok document ∧
      (∃ o ∈ document.occurrences, Unprovided wrong o) ∧
      render true document wrong.lookup = .error (.missingVariables [['b'], ['c']]) ∧
      Lists (Unprovided wrong) document.occurrences [['b'], ['c']] ∧
      render false document full.lookup = .ok "x\n2\nnull\nx".toList ∧
      render true document full.lookup = .ok "x\n2\nnull\nx".toList ∧
      ∃ given : Occurrence → Value, (∀ o ∈ document.occurrences, Gives full o (given o)) ∧
        "x\n2\nnull\nx".toList =
          refill .greedy document.text (document.occurrences.map fun o => (given o).text) := by
  intro document wrong full
  have loaded : Document.load {} document.text = .ok document := by decide +kernel
  have failed : render true document wrong.lookup = .error (.missingVariables [['b'], ['c']]) := by
    decide +kernel
  have provided : ∀ o ∈ document.occurrences, ¬ Unprovided full o := by decide +kernel
  have rendered : render false document full.lookup = .ok "x\n2\nnull\nx".toList := by
    decide +kernel
  obtain ⟨lacking, listed, -⟩ := strict_rendering_asks_for_values loaded wrong
  obtain ⟨-, -, otherwise⟩ := strict_rendering_asks_for_values loaded full
  obtain ⟨alike, given⟩ := otherwise provided
  have strict := alike.trans rendered
  exact ⟨loaded, lacking.mp ⟨_, failed⟩, failed, listed _ failed, rendered, strict, given _ strict⟩

end Render
end Stencil
