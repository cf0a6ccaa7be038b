import Mathlib.Data.List.Forall2
import Stencil.Proofs.Declaration.FirstFlaw

/-
Texts that say the same. What is read depends on the first property of each known key alone, so
neither the order of the keys nor further properties nor blanks make a difference. Only two faults
tell such texts apart, because they quote the whole text.
-/
namespace Stencil

namespace Property

theorem lookup_of_distinct {properties : List Property}
    (distinct : (properties.map (·.key)).Nodup) {key value : Text} :
    lookup? key properties = some value ↔ ⟨key, value⟩ ∈ properties := by
  refine ⟨lookup_mem, ?_⟩
  intro member
  induction properties with
  | nil => cases member
  | cons property others ih =>
    rw [List.map_cons, List.nodup_cons] at distinct
    rcases List.mem_cons.mp member with rfl | later
    · simp [lookup?]
    · have other : property.key ≠ key := by
        rintro rfl
        exact distinct.1 (List.mem_map.mpr ⟨_, later, rfl⟩)
      rw [lookup_cons_other other]
      exact ih distinct.2 later

theorem lookup_permuted {properties others : List Property} (perm : properties.Perm others)
    (distinct : (properties.map (·.key)).Nodup) (key : Text) :
    lookup? key properties = lookup? key others := by
  have still : (others.map (·.key)).Nodup := (perm.map (·.key)).nodup_iff.mp distinct
  ext value
  rw [lookup_of_distinct distinct, lookup_of_distinct still, perm.mem_iff]

/-- Changes to a list of properties after which it says the same. -/
inductive Restates : List Property → List Property → Prop where
  | refl (properties : List Property) : Restates properties properties
  | permuted (front back : List Property) {properties others : List Property}
      (perm : properties.Perm others) (distinct : (properties.map (·.key)).Nodup) :
      Restates (front ++ properties ++ back) (front ++ others ++ back)
  | inserted (front back : List Property) {property : Property}
      (unknown : ∀ key : Key, property.key ≠ key.text) :
      Restates (front ++ back) (front ++ property :: back)
  | repeated (properties : List Property) {property : Property}
      (again : property.key ∈ properties.map (·.key)) :
      Restates properties (properties ++ [property])
  | symm {properties others : List Property} (same : Restates others properties) :
      Restates properties others
  | trans {properties middle others : List Property} (first : Restates properties middle)
      (second : Restates middle others) : Restates properties others

theorem restates_lookup {properties others : List Property} (same : Restates properties others)
    (key : Key) : lookup? key.text properties = lookup? key.text others := by
  induction same with
  | refl properties => rfl
  | permuted front back perm distinct =>
    simp only [lookup_append, lookup_permuted perm distinct]
  | inserted front back unknown =>
    simp only [lookup_append, lookup_cons_other (unknown key)]
  | repeated properties again =>
    rw [lookup_append]
    by_cases here : key.text ∈ properties.map (·.key)
    · obtain ⟨value, found⟩ := Option.isSome_iff_exists.mp (lookup_isSome.mpr here)
      rw [found]
      rfl
    · next property =>
      have other : property.key ≠ key.text := by
        intro same
        exact here (same ▸ again)
      rw [lookup_cons_other other]
      exact (Option.or_none).symm
  | symm _ ih => exact ih.symm
  | trans _ _ first second => exact first.trans second

end Property

namespace Declaration

open Property

def Fault.about (text : Text) : Fault → Fault
  | .missingName _ => .missingName text
  | .missingValue _ => .missingValue text
  | fault => fault

variable {lenient : Bool} {a b : Text} {properties others : List Property}

theorem readName_about (b : Text)
    (same : lookup? Key.name.text properties = lookup? Key.name.text others) :
    readName b others = (readName a properties).mapError (Fault.about b) := by
  rw [readName, readName, same]
  cases lookup? Key.name.text others with
  | none => rfl
  | some quoted =>
    dsimp only
    split <;> rfl

theorem readKind_about (b : Text)
    (same : lookup? Key.kind.text properties = lookup? Key.kind.text others) :
    readKind others = (readKind properties).mapError (Fault.about b) := by
  rw [readKind, readKind, same]
  cases lookup? Key.kind.text others with
  | none => rfl
  | some tag =>
    dsimp only
    split <;> rfl

theorem requireValue_about (a b : Text) (value fallback : Option Text) :
    requireValue b value fallback = (requireValue a value fallback).mapError (Fault.about b) := by
  rw [requireValue, requireValue]
  split <;> rfl

theorem readEmbedded_about (b : Text) (lenient : Bool) (name : Text) (kind : Kind)
    (literal : Option Text) :
    readEmbedded lenient name kind literal =
      (readEmbedded lenient name kind literal).mapError (Fault.about b) := by
  cases outcome : readEmbedded lenient name kind literal with
  | ok value => rfl
  | error fault =>
    obtain ⟨-, l, -, -, rfl⟩ := readEmbedded_error outcome
    rfl

theorem ofProperties_about (lenient : Bool) (a b : Text)
    (same : ∀ key : Key, lookup? key.text properties = lookup? key.text others) :
    ofProperties lenient b others =
      (ofProperties lenient a properties).mapError (Fault.about b) := by
  -- each check looks up its own keys; the text only goes into the fault
  simp only [ofProperties, mapError_bind, same .value, same .fallback,
    ← readName_about b (same .name), ← readKind_about b (same .kind),
    ← requireValue_about a b, ← readEmbedded_about b]
  rfl

theorem read_parsed {segments : List Text} (lenient : Bool) (marked : Envelope.isIn a)
    (cut : Segments a segments) (parsed : segments.map ofText? = properties.map some) :
    read lenient a = ofProperties lenient a properties := by
  obtain ⟨inner, slice, rfl⟩ := segments_slice.mp cut
  have found := inner_eq_some.mpr ⟨Envelope.isIn_iff.mp marked, slice⟩
  rw [read, found]
  simp only [readProperties_ok.mpr parsed]
  rfl

theorem parsed_of_sound {segments : List Text} (sound : ∀ segment ∈ segments, ¬ Malformed segment) :
    ∃ properties : List Property, segments.map ofText? = properties.map some := by
  induction segments with
  | nil => exact ⟨[], rfl⟩
  | cons segment segments ih =>
    obtain ⟨here, later⟩ := List.forall_mem_cons.mp sound
    obtain ⟨properties, parsed⟩ := ih later
    rw [← ofText_eq_none, ← ne_eq, Option.ne_none_iff_exists'] at here
    obtain ⟨property, found⟩ := here
    exact ⟨property :: properties, by rw [List.map_cons, List.map_cons, found, parsed]⟩

theorem spelled_iff {segments : List Text} :
    List.Forall₂ Spells segments properties ↔ segments.map ofText? = properties.map some := by
  rw [← List.forall₂_eq_eq_eq, List.forall₂_map_left_iff, List.forall₂_map_right_iff]
  simp only [ofText_spells]

theorem lookup_of_first {as bs : List Text} (parsedA : as.map ofText? = properties.map some)
    (parsedB : bs.map ofText? = others.map some) {key : Key}
    (same : ∀ value, First as key value ↔ First bs key value) :
    lookup? key.text properties = lookup? key.text others := by
  ext value
  rw [← first_lookup parsedA, ← first_lookup parsedB]
  exact same value

/-- Two texts with the same first property of each known key are read alike, and so are two whose
properties are the same up to their blanks, their order and what is not looked at. -/
theorem first_properties_decide (lenient : Bool) {a b : Text} {as bs : List Text}
    (markedA : Envelope.isIn a) (markedB : Envelope.isIn b)
    (cutA : Segments a as) (cutB : Segments b bs)
    (soundA : ∀ segment ∈ as, ¬ Malformed segment)
    (soundB : ∀ segment ∈ bs, ¬ Malformed segment) :
    ((∀ key value, First as key value ↔ First bs key value) →
      read lenient b = (read lenient a).mapError (Fault.about b)) ∧
    ∀ properties others, List.Forall₂ Spells as properties → List.Forall₂ Spells bs others →
      Restates properties others →
        read lenient b = (read lenient a).mapError (Fault.about b) := by
  constructor
  · intro same
    obtain ⟨properties, parsedA⟩ := parsed_of_sound soundA
    obtain ⟨others, parsedB⟩ := parsed_of_sound soundB
    rw [read_parsed lenient markedA cutA parsedA, read_parsed lenient markedB cutB parsedB]
    apply ofProperties_about
    intro key
    exact lookup_of_first parsedA parsedB (same key)
  · intro properties others spelledA spelledB restated
    have parsedA := spelled_iff.mp spelledA
    have parsedB := spelled_iff.mp spelledB
    rw [read_parsed lenient markedA cutA parsedA, read_parsed lenient markedB cutB parsedB]
    exact ofProperties_about lenient a b (restates_lookup restated)

theorem reordered_and_respaced_alike :
    let marked (inner : Text) : Text := openMark ++ inner ++ closeMark
    let a := "name: 'n', type: NUMBER, value: x, defaultValue: 7".toList
    let b := "value:x,y::1, defaultValue :7,\ttype:NUMBER,name: 'n' ,value:8".toList
    let c := "type: NULL, value: null, z: 1".toList
    let d := " value : null,z:1,type:NULL,u:v,type:STRING".toList
    (read false (marked b) = (read false (marked a)).mapError (Fault.about (marked b)) ∧
      read false (marked b) = .error (.kindMismatch ['n'] .number .unknown)) ∧
    read true (marked d) = (read true (marked c)).mapError (Fault.about (marked d)) ∧
      read true (marked d) = .error (.missingName (marked d)) := by
  intro marked a b c d
  have cut (inner : Text) : Segments (marked inner) (inner.split ',') :=
    ⟨openMark, closeMark, by rw [Text.join_split], by decide, by decide,
      Text.split_ne_nil ',' inner, fun segment member => Text.split_free member⟩
  let p (key value : String) : Property := ⟨key.toList, value.toList⟩
  let as := [p "name" "'n'", p "type" "NUMBER", p "value" "x", p "defaultValue" "7"]
  let bs := [p "value" "x", p "y" ":1", p "defaultValue" "7", p "type" "NUMBER", p "name" "'n'",
    p "value" "8"]
  let cs := [p "type" "NULL", p "value" "null", p "z" "1"]
  let turned := [p "value" "null", p "z" "1", p "type" "NULL"]
  let ds := turned ++ [p "u" "v", p "type" "STRING"]
  have parsedA : (Text.split ',' a).map ofText? = as.map some := by decide +kernel
  have parsedB : (Text.split ',' b).map ofText? = bs.map some := by decide +kernel
  have parsedC : (Text.split ',' c).map ofText? = cs.map some := by decide +kernel
  have parsedD : (Text.split ',' d).map ofText? = ds.map some := by decide +kernel
  have same (key : Key) (value : Text) :
      First (Text.split ',' a) key value ↔ First (Text.split ',' b) key value := by
    rw [first_lookup parsedA, first_lookup parsedB]
    have found : lookup? key.text as = lookup? key.text bs := by cases key <;> decide
    rw [found]
  have restated : Restates cs ds := by
    have perm : cs.Perm turned := by decide
    have distinct : (cs.map (·.key)).Nodup := by decide
    have unknown (key : Key) : (p "u" "v").key ≠ key.text := by cases key <;> decide
    have first : Restates cs turned := .permuted [] [] perm distinct
    have second : Restates turned (turned ++ [p "type" "STRING"]) := .repeated turned (by decide)
    have third : Restates (turned ++ [p "type" "STRING"]) ds := .inserted turned _ unknown
    exact (first.trans second).trans third
  have firsts := (first_properties_decide false (by decide +kernel) (by decide +kernel) (cut a)
    (cut b) (fun _ => sound_of_parsed parsedA) (fun _ => sound_of_parsed parsedB)).1 same
  have listed := (first_properties_decide true (by decide +kernel) (by decide +kernel) (cut c)
    (cut d) (fun _ => sound_of_parsed parsedC) (fun _ => sound_of_parsed parsedD)).2 cs ds
    (spelled_iff.mpr parsedC) (spelled_iff.mpr parsedD) restated
  exact ⟨⟨firsts, by decide +kernel⟩, listed, by decide +kernel⟩

end Declaration
end Stencil
