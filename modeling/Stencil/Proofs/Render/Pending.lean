import Mathlib.Algebra.BigOperators.Group.List.Basic
import Mathlib.Algebra.Ring.Int.Defs
import Stencil.Proofs.Envelope.Again
import Stencil.Proofs.Render.Splice
import Stencil.Proofs.Session

/-
The loop with a list of pending occurrences: each replacement moves the offsets of all later ones,
and the envelope to replace is searched for again at the moved offset. It does the same as the loop
that only remembers how far the text has moved. No offset is ever cut off at the start of the text,
and at each the text goes on as the template does, so the search finds the envelope of the scan.
-/
namespace Stencil

def Text.replaceRange? (start stop : Nat) (text new : Text) : Option Text :=
  if start ≤ stop then do
    let (before, rest) ← cutAt? start text
    let (_, after) ← cutAt? (stop - start) rest
    return before ++ new ++ after
  else none

theorem Text.replaceRange_middle (before middle after new : Text) :
    replaceRange? before.bytes (before.bytes + middle.bytes) (before ++ (middle ++ after)) new =
      some (before ++ new ++ after) := by
  have width : before.bytes + middle.bytes - before.bytes = middle.bytes := by omega
  simp [replaceRange?, width, cutAt_bytes]

namespace Occurrence

/-- Moved by some bytes, but not beyond the start of the text. -/
def moved (delta : Int) (o : Occurrence) : Occurrence :=
  { o with offset := (o.offset + delta).toNat }

def growth (source : Lookup) (o : Occurrence) : Int :=
  match o.declaration.resolve source with
  | none => 0
  | some value => value.text.bytes - o.length

theorem moved_none (o : Occurrence) : o.moved 0 = o := by
  rw [moved, Int.add_zero, Int.toNat_natCast]

theorem moved_again {o : Occurrence} {delta : Int} (inside : 0 ≤ o.offset + delta) (other : Int) :
    (o.moved delta).moved other = o.moved (delta + other) := by
  rw [moved, moved, moved, Int.toNat_of_nonneg inside, Int.add_assoc]

end Occurrence

namespace Render

open Envelope

/-- The text as far as it has been worked over, and the occurrences that are still to be replaced,
at their offsets in that text. -/
structure Pending where
  working : Text
  waiting : List Occurrence
  deriving DecidableEq

namespace Pending

/-- Why the loop stops: a value is not of its kind, no envelope starts at an offset, or a part that
is to be replaced does not start and end between characters. -/
inductive Stop where
  | refused (fault : Fault)
  | lost (offset : Nat)
  | torn (start stop : Nat)
  deriving DecidableEq

def put (reach : Reach) (working : Text) (o : Occurrence) (later : List Occurrence)
    (value : Text) : Except Stop Pending :=
  match (working.cutAt? o.offset).bind fun parts => lengthAtStart? reach parts.2 with
  | none => .error (.lost o.offset)
  | some length =>
    match working.replaceRange? o.offset (o.offset + length) value with
    | none => .error (.torn o.offset (o.offset + length))
    | some changed => .ok ⟨changed, later.map (·.moved (value.bytes - length))⟩

def step (reach : Reach) (source : Lookup) (pending : Pending) : Except Stop Pending :=
  match pending.waiting with
  | [] => .ok pending
  | o :: later =>
    match o.declaration.resolve source with
    | none => .ok ⟨pending.working, later⟩
    | some value =>
      if o.declaration.admits value then put reach pending.working o later value.text
      else .error (.refused (.kindMismatch o.name o.declaration.kind value))

def after (reach : Reach) (source : Lookup) : Nat → Pending → Except Stop Pending
  | 0, pending => .ok pending
  | rounds + 1, pending => step reach source pending >>= after reach source rounds

variable {reach : Reach} {source : Lookup}

theorem after_add (reach : Reach) (source : Lookup) (m n : Nat) (pending : Pending) :
    after reach source (m + n) pending =
      after reach source m pending >>= after reach source n := by
  induction m generalizing pending with
  | zero =>
    rw [Nat.zero_add]
    rfl
  | succ m ih =>
    rw [Nat.succ_add, after, after]
    cases step reach source pending with
    | error stop => rfl
    | ok next => exact ih next

theorem after_done (n : Nat) (working : Text) :
    after reach source n ⟨working, []⟩ = .ok ⟨working, []⟩ := by
  induction n with
  | zero => rfl
  | succ n ih => exact ih

def midway (front done ahead : Text) (waiting : List Occurrence) : Pending :=
  ⟨done ++ ahead, waiting.map (·.moved ((done.bytes : Int) - front.bytes))⟩

theorem put_midway {front done gap envelope rest : Text} {o : Occurrence}
    {later : List Occurrence} (found : atStart? reach (envelope ++ rest) = some (envelope, rest))
    (offset : o.offset = (front ++ gap).bytes) (beyond : ∀ p ∈ later, front.bytes ≤ p.offset)
    (value : Text) :
    let shift : Int := done.bytes - front.bytes
    put reach (done ++ (gap ++ (envelope ++ rest))) (o.moved shift) (later.map (·.moved shift))
      value = .ok (midway (front ++ gap ++ envelope) (done ++ gap ++ value) rest later) := by
  intro shift
  have place : (o.moved shift).offset = (done ++ gap).bytes := by
    simp only [Occurrence.moved, shift, offset, Text.bytes_append]
    omega
  have parted : done ++ (gap ++ (envelope ++ rest)) = done ++ gap ++ (envelope ++ rest) :=
    (List.append_assoc ..).symm
  have shifted : (later.map (·.moved shift)).map (·.moved (value.bytes - envelope.bytes)) =
      later.map (·.moved ((done ++ gap ++ value).bytes - (front ++ gap ++ envelope).bytes)) := by
    rw [List.map_map]
    refine List.map_congr_left fun p member => ?_
    -- The offset stands behind `front`, so the first move has not cut it off.
    have behind := beyond p member
    have total : shift + (value.bytes - envelope.bytes) =
        (done ++ gap ++ value).bytes - (front ++ gap ++ envelope).bytes := by
      simp only [shift, Text.bytes_append]
      omega
    rw [Function.comp_apply, Occurrence.moved_again (by omega), total]
  rw [put, place, parted, Text.cutAt_bytes, Option.bind_some]
  simp only [lengthAtStart_of_found found, Text.replaceRange_middle, shifted, midway]

theorem step_midway {piece : Piece} {rest : Text} {later : List Occurrence} (source : Lookup)
    (front done : Text) (declaration : Declaration)
    (found : atStart? reach (piece.envelope ++ rest) = some (piece.envelope, rest))
    (beyond : ∀ p ∈ later, front.bytes ≤ p.offset) :
    let o : Occurrence := ⟨declaration, (front ++ piece.gap).bytes, piece.envelope.bytes⟩
    step reach source (midway front done (piece.gap ++ (piece.envelope ++ rest)) (o :: later)) =
      (outcome (clash? source o) (midway (front ++ piece.gap ++ piece.envelope)
        (done ++ piece.gap ++ (fill source piece o).envelope) rest later)).mapError .refused := by
  intro o
  rw [step, midway, List.map_cons, clash?, fill]
  simp only [Occurrence.moved]
  cases o.declaration.resolve source with
  | none =>
    have same : ((done ++ piece.gap ++ piece.envelope).bytes : Int) -
        (front ++ piece.gap ++ piece.envelope).bytes = done.bytes - front.bytes := by
      simp only [Text.bytes_append]
      omega
    simp only [outcome, Option.map_none, Option.getD_none]
    rw [midway, same]
    simp only [List.append_assoc]
    rfl
  | some value =>
    by_cases admitted : o.declaration.admits value
    · simp only [admitted, ↓reduceIte, outcome, Option.map_some, Option.getD_some]
      exact put_midway found rfl beyond value.text
    · simp only [admitted, Bool.false_eq_true, ↓reduceIte, outcome]
      rfl

theorem after_midway {lenient : Bool} {tail : Text} {pieces : List Piece}
    {occurrences later : List Occurrence} (source : Lookup) (front done : Text)
    (anchored : Anchored reach tail pieces)
    (located : Scan.occurrences lenient front.bytes pieces = .ok occurrences)
    (beyond : ∀ p ∈ later, (front ++ assemble pieces []).bytes ≤ p.offset) :
    after reach source occurrences.length
        (midway front done (assemble pieces tail) (occurrences ++ later)) =
      (outcome (occurrences.findSome? (clash? source)) (midway (front ++ assemble pieces [])
        (done ++ assemble (fillAll source pieces occurrences) []) tail later)).mapError
          .refused := by
  -- on the pieces; the occurrences behind them have only been moved
  induction pieces generalizing occurrences front done with
  | nil =>
    obtain rfl := Except.ok.inj located
    simp [assemble, fillAll, outcome, after, Except.mapError]
  | cons piece pieces ih =>
    obtain ⟨declaration, others, -, rest, rfl⟩ := Scan.occurrences_cons_ok.mp located
    obtain ⟨found, onward⟩ := anchored
    rw [← Text.bytes_append]
    rw [← bytes_behind] at rest
    have ahead : ∀ p ∈ others ++ later, front.bytes ≤ p.offset := by
      refine List.forall_mem_append.mpr ⟨fun p member => ?_, fun p member => ?_⟩
      · have own := Scan.occurrences_from rest p member
        rw [Text.bytes_append, Text.bytes_append] at own
        omega
      · have far := beyond p member
        rw [Text.bytes_append] at far
        omega
    have far : ∀ p ∈ later,
        (front ++ piece.gap ++ piece.envelope ++ assemble pieces []).bytes ≤ p.offset := by
      simpa [assemble_cons] using beyond
    rw [List.length_cons, after, assemble_cons, List.append_assoc, List.cons_append,
      step_midway source front done declaration found ahead, List.findSome?_cons]
    cases clash? source ⟨declaration, (front ++ piece.gap).bytes, piece.envelope.bytes⟩ with
    | some fault => rfl
    | none =>
      refine (ih _ _ onward rest far).trans ?_
      simp only [fillAll, List.zipWith_cons_cons, assemble_cons, List.append_assoc]
      rfl

theorem fillAll_growth {lenient : Bool} {start : Nat} {pieces : List Piece}
    {occurrences : List Occurrence}
    (located : Scan.occurrences lenient start pieces = .ok occurrences) :
    ((assemble (fillAll source pieces occurrences) []).bytes : Int) - (assemble pieces []).bytes =
      (occurrences.map (·.growth source)).sum := by
  induction pieces generalizing start occurrences with
  | nil =>
    obtain rfl := Except.ok.inj located
    rfl
  | cons piece pieces ih =>
    obtain ⟨declaration, others, -, rest, rfl⟩ := Scan.occurrences_cons_ok.mp located
    have later := ih rest
    have own (o : Occurrence) (length : o.length = piece.envelope.bytes) :
        ((fill source piece o).envelope.bytes : Int) = piece.envelope.bytes + o.growth source := by
      rw [fill, Occurrence.growth, length]
      cases o.declaration.resolve source with
      | none => simp
      | some value =>
        simp only [Option.map_some, Option.getD_some]
        omega
    have here := own ⟨declaration, start + piece.gap.bytes, piece.envelope.bytes⟩ rfl
    have gap (o : Occurrence) : (fill source piece o).gap = piece.gap := rfl
    rw [fillAll] at later ⊢
    simp only [List.zipWith_cons_cons, assemble_cons, Text.bytes_append, List.map_cons,
      List.sum_cons, gap]
    omega

/-- It is the turn of an occurrence that has moved by the growth of those before it. The later ones
have moved as far, and from its place on the text goes on as the template does. -/
structure InPlace (reach : Reach) (text : Text) (growth : Int) (o : Occurrence)
    (later : List Occurrence) (pending : Pending) : Prop where
  moved : pending.waiting = (o :: later).map (·.moved growth)
  inside : ∀ p ∈ o :: later, ((p.moved growth).offset : Int) = p.offset + growth
  ahead : ∃ before front rest : Text,
    pending.working.cutAt? (o.moved growth).offset = some (before, rest) ∧
    text.cutAt? o.offset = some (front, rest) ∧ lengthAtStart? reach rest = some o.length ∧
    ∃ behind, ∀ value, pending.working.replaceRange? (o.moved growth).offset
      ((o.moved growth).offset + o.length) value = some (before ++ value ++ behind)

theorem midway_in_place {front done gap envelope rest : Text} {o : Occurrence}
    {later : List Occurrence} (found : atStart? reach (envelope ++ rest) = some (envelope, rest))
    (offset : o.offset = (front ++ gap).bytes) (length : o.length = envelope.bytes)
    (beyond : ∀ p ∈ later, front.bytes ≤ p.offset) :
    InPlace reach (front ++ (gap ++ (envelope ++ rest))) (done.bytes - front.bytes) o later
      (midway front done (gap ++ (envelope ++ rest)) (o :: later)) := by
  have own : front.bytes ≤ o.offset := by
    rw [offset, Text.bytes_append]
    omega
  have all : ∀ p ∈ o :: later, front.bytes ≤ p.offset := List.forall_mem_cons.mpr ⟨own, beyond⟩
  have place : (o.moved (done.bytes - front.bytes)).offset = (done ++ gap).bytes := by
    simp only [Occurrence.moved, offset, Text.bytes_append]
    omega
  refine ⟨rfl, ?_, done ++ gap, front ++ gap, envelope ++ rest, ?_, ?_, ?_, rest, ?_⟩
  · intro p member
    have behind := all p member
    exact Int.toNat_of_nonneg (by omega)
  · rw [place, midway, ← List.append_assoc done, Text.cutAt_bytes]
  · rw [offset, ← List.append_assoc front, Text.cutAt_bytes]
  · rw [lengthAtStart_of_found found, length]
  · intro value
    rw [place, length, midway, ← List.append_assoc done, Text.replaceRange_middle]

theorem start_midway (text : Text) (occurrences : List Occurrence) :
    (⟨text, occurrences⟩ : Pending) = midway [] [] text occurrences := by
  simp [midway, Text.bytes, Occurrence.moved_none]

variable {document : Document}

theorem after_renders (consistent : document.Consistent) (source : Lookup) :
    after document.options.reach source document.occurrences.length
        ⟨document.text, document.occurrences⟩ =
      ((render false document source).map fun output => ⟨output, []⟩).mapError .refused := by
  have located := scan_ok.mp consistent
  have anchored := cut_anchored document.options.reach document.text
  have whole := assemble_cut document.options.reach document.text
  have loaded := Document.load_eq_ok.mpr ⟨consistent, rfl, rfl⟩
  have none : ∀ p ∈ ([] : List Occurrence),
      Text.bytes ([] ++ assemble (cut document.options.reach document.text).1 []) ≤ p.offset := by
    simp
  have run := after_midway source [] [] anchored located none
  rw [whole, List.append_nil, ← start_midway] at run
  rw [run, render_loaded loaded]
  cases document.occurrences.findSome? (clash? source) with
  | some fault => rfl
  | none =>
    rw [assemble_tail (fillAll source _ _) (cut document.options.reach document.text).2]
    rfl

theorem after_stops (consistent : document.Consistent) {n : Nat} {stop : Stop}
    (stopped : after document.options.reach source n ⟨document.text, document.occurrences⟩ =
      .error stop) :
    ∃ fault, stop = .refused fault ∧ render false document source = .error fault := by
  have whole := after_renders consistent source
  have early := after_add document.options.reach source n document.occurrences.length
    ⟨document.text, document.occurrences⟩
  rw [stopped, Nat.add_comm, after_add, whole] at early
  cases rendered : render false document source with
  | error fault =>
    rw [rendered] at early
    exact ⟨fault, (Except.error.inj early).symm, rfl⟩
  | ok output =>
    rw [rendered] at early
    have done : after document.options.reach source n ⟨output, []⟩ = .error stop := early
    rw [after_done] at done
    cases done

theorem after_in_place (consistent : document.Consistent) {earlier later : List Occurrence}
    {o : Occurrence} {pending : Pending} (split : document.occurrences = earlier ++ o :: later)
    (run : after document.options.reach source earlier.length
      ⟨document.text, document.occurrences⟩ = .ok pending) :
    InPlace document.options.reach document.text (earlier.map (·.growth source)).sum o later
      pending := by
  have located := scan_ok.mp consistent
  rw [split] at located
  obtain ⟨before, others, parted, first, second⟩ := Scan.occurrences_split located
  rw [Nat.zero_add] at second
  have beyond := Scan.occurrences_from second
  cases others with
  | nil => cases second
  | cons piece behind =>
    obtain ⟨declaration, _, -, -, same⟩ := Scan.occurrences_cons_ok.mp second
    obtain ⟨rfl, rfl⟩ := List.cons.inj same
    have anchored := cut_anchored document.options.reach document.text
    have whole := assemble_cut document.options.reach document.text
    rw [parted] at anchored whole
    obtain ⟨passed, found, -⟩ := anchored_append.mp anchored
    rw [assemble_append] at whole
    have loop := after_midway source [] [] passed first beyond
    rw [split, ← whole, start_midway, loop] at run
    rw [← whole, assemble_tail before, assemble_cons, List.append_assoc,
      ← fillAll_growth first]
    cases clash : earlier.findSome? (clash? source) with
    | some fault =>
      rw [clash] at run
      cases run
    | none =>
      rw [clash, assemble_cons, List.append_assoc] at run
      obtain rfl := Except.ok.inj run
      exact midway_in_place found (Text.bytes_append ..).symm rfl
        (List.forall_mem_cons.mp beyond).2

end Pending

theorem shifted_offsets_keep_their_place :
    (∀ (reach : Reach) (text : Text) (i j : Nat), (i, j) ∈ spans 0 (cut reach text).1 →
      ∃ rest envelope : Text, text.slice? i text.bytes = some rest ∧
        text.slice? i j = some envelope ∧ lengthAtStart? reach rest = some (j - i) ∧
        lengthAtStart? reach envelope = some (j - i)) ∧
    ∀ (operations : List Document.Operation) (source : Lookup),
      let document := Document.run {} operations
      let reach := document.options.reach
      let start : Pending := ⟨document.text, document.occurrences⟩
      Pending.after reach source document.occurrences.length start =
          ((render false document source).map fun output => ⟨output, []⟩).mapError .refused ∧
        (∀ n stop, Pending.after reach source n start = .error stop →
          ∃ fault, stop = .refused fault ∧ render false document source = .error fault) ∧
        ∀ earlier o later pending, document.occurrences = earlier ++ o :: later →
          Pending.after reach source earlier.length start = .ok pending →
          Pending.InPlace reach document.text (earlier.map (·.growth source)).sum o later
            pending := by
  refine ⟨fun _ _ _ _ => span_found_again, fun operations source => ?_⟩
  intro document reach start
  have consistent : document.Consistent :=
    Document.run_consistent operations (Document.empty_consistent {})
  refine ⟨Pending.after_renders consistent source, fun _ _ => Pending.after_stops consistent, ?_⟩
  intro earlier o later pending split run
  exact Pending.after_in_place consistent split run

theorem third_placeholder_is_met_at_its_moved_offset :
    let envelope : Text := "$\x7b\x7bname: n, type: NUMBER, value: no\x7d\x7d".toList
    let operations : List Document.Operation := [.replace ⟨.lazy, true⟩ crowdedLine.text]
    let start : Pending := ⟨crowdedLine.text, crowdedLine.occurrences⟩
    let source := (Source.table [(['a'], .string "$\x7b\x7bé\x7d\x7d\n".toList)]).lookup
    let refusing := (Source.table [(['n'], .string ['x'])]).lookup
    let o : Occurrence := ⟨⟨['b'], .unknown, some (.raw ['7']), none⟩, 78, 22⟩
    let pending : Pending :=
      ⟨"ü$\x7b\x7bé\x7d\x7d\n".toList ++ crowdedLine.text.drop 39, [⟨o.declaration, 48, 22⟩]⟩
    (crowdedLine.text.slice? 41 78 = some envelope ∧ lengthAtStart? .lazy envelope = some 37) ∧
      Document.run {} operations = crowdedLine ∧
      Pending.after .lazy source 2 start = .ok pending ∧
      Pending.InPlace .lazy crowdedLine.text (-30) o [] pending ∧
      Pending.after .lazy refusing 3 start =
        .error (.refused (.kindMismatch ['n'] .number (.string ['x']))) ∧
      render false crowdedLine refusing =
        .error (.kindMismatch ['n'] .number (.string ['x'])) := by
  intro envelope operations start source refusing o pending
  have reached : Document.run {} operations = crowdedLine := by decide +kernel
  have run : Pending.after .lazy source 2 start = .ok pending := by decide +kernel
  have stopped : Pending.after .lazy refusing 3 start =
      .error (.refused (.kindMismatch ['n'] .number (.string ['x']))) := by decide +kernel
  obtain ⟨again, loop⟩ := shifted_offsets_keep_their_place
  obtain ⟨-, own, -, cut, -, found⟩ := again .lazy crowdedLine.text 41 78 (by decide +kernel)
  have same : crowdedLine.text.slice? 41 78 = some envelope := by decide +kernel
  obtain rfl := Option.some.inj (cut.symm.trans same)
  have sourced := loop operations source
  have refused := loop operations refusing
  rw [reached] at sourced refused
  obtain ⟨-, -, place⟩ := sourced
  obtain ⟨-, stops, -⟩ := refused
  obtain ⟨fault, named, rendered⟩ := stops 3 _ stopped
  obtain rfl := Pending.Stop.refused.inj named
  refine ⟨⟨same, found⟩, reached, run, ?_, stopped, rendered⟩
  exact place (crowdedLine.occurrences.take 2) o [] pending (by decide) run

end Render
end Stencil
