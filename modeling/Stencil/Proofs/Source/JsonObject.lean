import Stencil.Source.JsonObject

/-
The bindings that a JSON object gives. Each token takes at least one character off the text, so the
length of the text is fuel enough. What is read are the members whose tokens make up the whole text,
and of several members with one name the last counts.
-/
namespace Stencil

namespace JsonObject

theorem units_behind {head : Option Nat} {inner : Option (List Nat × Text)} {units : List Nat}
    {after : Text} (read : (do
      let unit ← head
      let (units, after) ← inner
      return (unit :: units, after)) = some (units, after)) :
    ∃ others, inner = some (others, after) := by
  simp only [bind, Option.bind_eq_some_iff, pure, Option.some.injEq, Prod.mk.injEq] at read
  obtain ⟨-, -, ⟨others, behind⟩, found, -, rfl⟩ := read
  exact ⟨others, found⟩

theorem units_shorter {text after : Text} {units : List Nat}
    (read : units? text = some (units, after)) : after.length < text.length := by
  fun_induction units? text generalizing units with
  | case1 => cases read
  | case2 rest =>
    obtain ⟨-, rfl⟩ := Prod.mk.inj (Option.some.inj read)
    exact Nat.lt_succ_self _
  | case3 a b c d rest _ ih =>
    obtain ⟨others, found⟩ := units_behind read
    have less := ih found
    simp only [List.length_cons]
    omega
  | case4 letter rest _ _ ih =>
    obtain ⟨others, found⟩ := units_behind read
    have less := ih found
    simp only [List.length_cons]
    omega
  | case5 => cases read
  | case6 => cases read
  | case7 c rest _ _ _ ih =>
    obtain ⟨others, found⟩ := @units_behind (some c.toNat) _ _ _ read
    exact Nat.lt_succ_of_lt (ih found)

theorem word_joins {known : List (Text × Value)} {text after : Text} {value : Value}
    (read : word? known text = some (value, after)) :
    ∃ word, (word, value) ∈ known ∧ text = word ++ after := by
  induction known with
  | nil => cases read
  | cons first others ih =>
    rw [word?] at read
    split at read
    · next rest found =>
      obtain ⟨rfl, rfl⟩ := Prod.mk.inj (Option.some.inj read)
      exact ⟨first.1, List.mem_cons_self, Text.after_eq_some.mp found⟩
    · obtain ⟨word, member, joined⟩ := ih read
      exact ⟨word, List.mem_cons_of_mem first member, joined⟩

theorem token_shorter {c : Char} {rest after : Text} {token : Token}
    (read : token? c rest = some (token, after)) : after.length ≤ rest.length := by
  unfold token? at read
  split at read
  iterate 4
    obtain ⟨-, rfl⟩ := Prod.mk.inj (Option.some.inj read)
    exact Nat.le_refl _
  · simp only [bind, Option.bind_eq_some_iff, pure, Option.some.injEq, Prod.mk.injEq] at read
    obtain ⟨⟨units, behind⟩, found, -, -, -, rfl⟩ := read
    exact Nat.le_of_lt (units_shorter found)
  · split at read
    · obtain ⟨n, found, same⟩ := Option.map_eq_some_iff.mp read
      obtain ⟨-, rfl⟩ := Prod.mk.inj same
      exact (List.dropWhile_sublist _).length_le
    · obtain ⟨⟨value, behind⟩, found, same⟩ := Option.map_eq_some_iff.mp read
      obtain ⟨-, rfl⟩ := Prod.mk.inj same
      obtain ⟨word, member, joined⟩ := word_joins found
      have nonempty : ∀ known ∈ words, 1 ≤ known.1.length := by decide
      have long := nonempty _ member
      have lengths := congrArg List.length joined
      rw [List.length_cons, List.length_append] at lengths
      dsimp only at long
      omega

/-- The tokens of a text, with spaces anywhere between them. -/
inductive Reads : Text → List Token → Prop where
  | done : Reads [] []
  | space {c : Char} {rest : Text} {tokens : List Token} (blank : isSpace c)
      (later : Reads rest tokens) : Reads (c :: rest) tokens
  | token {c : Char} {rest after : Text} {token : Token} {tokens : List Token}
      (dark : isSpace c = false) (here : token? c rest = some (token, after))
      (later : Reads after tokens) : Reads (c :: rest) (token :: tokens)

theorem reads_of_tokens {fuel : Nat} {text : Text} {tokens : List Token}
    (found : tokens? fuel text = some tokens) : Reads text tokens := by
  induction fuel generalizing text tokens with
  | zero =>
    cases text with
    | nil =>
      obtain rfl := Option.some.inj found
      exact .done
    | cons c rest => cases found
  | succ fuel ih =>
    cases text with
    | nil =>
      obtain rfl := Option.some.inj found
      exact .done
    | cons c rest =>
      rw [tokens?] at found
      split at found
      · next blank => exact .space blank (ih found)
      · next dark =>
        simp only [bind, Option.bind_eq_some_iff, pure, Option.some.injEq] at found
        obtain ⟨⟨token, after⟩, here, others, later, rfl⟩ := found
        exact .token (Bool.eq_false_iff.mpr dark) here (ih later)

theorem tokens_of_reads {text : Text} {tokens : List Token} (reads : Reads text tokens)
    {fuel : Nat} (enough : text.length ≤ fuel) : tokens? fuel text = some tokens := by
  induction reads generalizing fuel with
  | done => cases fuel <;> rfl
  | @space c rest tokens blank later ih =>
    cases fuel with
    | zero => cases enough
    | succ fuel =>
      rw [tokens?, if_pos blank]
      exact ih (Nat.le_of_succ_le_succ enough)
  | @token c rest after token tokens dark here later ih =>
    cases fuel with
    | zero => cases enough
    | succ fuel =>
      have less := token_shorter here
      rw [List.length_cons] at enough
      simp [tokens?, dark, here, ih (by omega : after.length ≤ fuel)]

theorem tokens_iff {fuel : Nat} {text : Text} {tokens : List Token} (enough : text.length ≤ fuel) :
    tokens? fuel text = some tokens ↔ Reads text tokens :=
  ⟨reads_of_tokens, fun reads => tokens_of_reads reads enough⟩

theorem tokens_fuel {fuel : Nat} {text : Text} (enough : text.length ≤ fuel) :
    tokens? fuel text = tokens? text.length text := by
  ext tokens
  rw [tokens_iff enough, tokens_iff (Nat.le_refl _)]

def listed : List (Text × Value) → List Token
  | [] => [.closing]
  | [(name, value)] => [.value (.string name), .colon, .value value, .closing]
  | (name, value) :: others => .value (.string name) :: .colon :: .value value :: .comma ::
    listed others

theorem listed_cons (member : Text × Value) {others : List (Text × Value)} (more : others ≠ []) :
    listed (member :: others) = .value (.string member.1) :: .colon :: .value member.2 :: .comma ::
      listed others := by
  cases others with
  | nil => exact absurd rfl more
  | cons next rest => rfl

theorem members_listed {members : List (Text × Value)} (nonempty : members ≠ []) :
    members? (listed members) = some members := by
  induction members with
  | nil => exact absurd rfl nonempty
  | cons member others ih =>
    cases others with
    | nil => rfl
    | cons next rest =>
      have more := List.cons_ne_nil next rest
      rw [listed_cons member more, members?, ih more]
      rfl

theorem listed_of_members {tokens : List Token} {members : List (Text × Value)}
    (read : members? tokens = some members) : members ≠ [] ∧ tokens = listed members := by
  fun_induction members? tokens generalizing members with
  | case1 name value =>
    obtain rfl := Option.some.inj read
    exact ⟨List.cons_ne_nil _ _, rfl⟩
  | case2 name value rest ih =>
    obtain ⟨others, later, rfl⟩ := Option.map_eq_some_iff.mp read
    obtain ⟨more, rfl⟩ := ih later
    exact ⟨List.cons_ne_nil _ _, (listed_cons (name, value) more).symm⟩
  | case3 => cases read

theorem object_eq_some {tokens : List Token} {members : List (Text × Value)} :
    object? tokens = some members ↔ tokens = .opening :: listed members := by
  constructor
  · intro read
    unfold object? at read
    split at read
    · obtain rfl := Option.some.inj read
      rfl
    · rw [(listed_of_members read).2]
    · cases read
  · rintro rfl
    cases members with
    | nil => rfl
    | cons member others =>
      have more := List.cons_ne_nil member others
      rw [object?]
      · exact members_listed more
      · intro closing
        have read := members_listed more
        rw [closing] at read
        cases read

/-- Each half of a surrogate pair has its partner. -/
inductive Paired : List Nat → Prop where
  | done : Paired []
  | whole {unit : Nat} {rest : List Nat} (low : isLow unit = false) (high : isHigh unit = false)
      (later : Paired rest) : Paired (unit :: rest)
  | pair {unit next : Nat} {rest : List Nat} (high : isHigh unit) (low : isLow next)
      (later : Paired rest) : Paired (unit :: next :: rest)

theorem characters_isSome {units : List Nat} : (characters? units).isSome ↔ Paired units := by
  constructor
  · intro read
    fun_induction characters? units with
    | case1 => exact .done
    | case2 => cases read
    | case3 unit plain =>
      rw [Bool.or_eq_true, not_or, Bool.not_eq_true, Bool.not_eq_true] at plain
      exact .whole plain.2 plain.1 .done
    | case4 unit next rest high low ih =>
      rw [Option.isSome_map] at read
      exact .pair high low (ih read)
    | case5 => cases read
    | case6 => cases read
    | case7 unit next rest high low ih =>
      rw [Option.isSome_map] at read
      exact .whole (Bool.eq_false_iff.mpr low) (Bool.eq_false_iff.mpr high) (ih read)
  · intro paired
    induction paired with
    | done => rfl
    | @whole unit rest low high later ih =>
      cases rest with
      | nil => simp [characters?, low, high]
      | cons next rest => simpa [characters?, low, high] using ih
    | pair high low later ih => simpa [characters?, high, low] using ih

-- A lone surrogate is refused.
example :
    Bindings.ofJson? ('{' :: "\"x\": \"\\ud83d\"".toList ++ ['}']) = none := by
  decide +kernel

def halves (c : Char) : List Nat :=
  if c.toNat < 0x10000 then [c.toNat]
  else [0xD800 + (c.toNat - 0x10000) / 0x400, 0xDC00 + (c.toNat - 0x10000) % 0x400]

theorem characters_whole {c : Char} {units : List Nat} {text : Text}
    (read : characters? units = some text) : characters? (c.toNat :: units) = some (c :: text) := by
  have valid : c.toNat < 0xD800 ∨ 0xDFFF < c.toNat ∧ c.toNat < 0x110000 := c.valid
  have high : isHigh c.toNat = false := by
    simp only [isHigh, Bool.and_eq_false_iff, decide_eq_false_iff_not]
    omega
  have low : isLow c.toNat = false := by
    simp only [isLow, Bool.and_eq_false_iff, decide_eq_false_iff_not]
    omega
  cases units with
  | nil =>
    obtain rfl := Option.some.inj read
    simp [characters?, high, low, Char.ofNat_toNat]
  | cons next rest => simp [characters?, high, low, read, Char.ofNat_toNat]

theorem characters_halves (text : Text) : characters? (text.flatMap halves) = some text := by
  induction text with
  | nil => rfl
  | cons c rest ih =>
    rw [List.flatMap_cons, halves]
    split
    · exact characters_whole ih
    · next beyond =>
      have valid : c.toNat < 0xD800 ∨ 0xDFFF < c.toNat ∧ c.toNat < 0x110000 := c.valid
      have high : isHigh (0xD800 + (c.toNat - 0x10000) / 0x400) := by
        simp only [isHigh, Bool.and_eq_true, decide_eq_true_eq]
        omega
      have low : isLow (0xDC00 + (c.toNat - 0x10000) % 0x400) := by
        simp only [isLow, Bool.and_eq_true, decide_eq_true_eq]
        omega
      have joined : 0x10000 + (0xD800 + (c.toNat - 0x10000) / 0x400 - 0xD800) * 0x400 +
          (0xDC00 + (c.toNat - 0x10000) % 0x400 - 0xDC00) = c.toNat := by omega
      rw [List.cons_append, List.cons_append, List.nil_append, characters?, if_pos high, if_pos low,
        ih, joined, Char.ofNat_toNat]
      rfl

theorem units_plain {text : Text}
    (plain : ∀ c ∈ text, c ≠ '"' ∧ c ≠ '\\' ∧ 0x20 ≤ c.toNat) (after : Text) :
    units? (text ++ '"' :: after) = some (text.map Char.toNat, after) := by
  induction text with
  | nil =>
    unfold units?
    rfl
  | cons c rest ih =>
    obtain ⟨⟨quote, escape, printed⟩, others⟩ := List.forall_mem_cons.mp plain
    rw [List.cons_append]
    unfold units?
    simp [quote, escape, Nat.not_lt.mpr printed, ih others]

theorem characters_plain (text : Text) : characters? (text.map Char.toNat) = some text := by
  induction text with
  | nil => rfl
  | cons c rest ih => exact characters_whole ih

theorem plain_string_reads_as_itself {text : Text}
    (plain : ∀ c ∈ text, c ≠ '"' ∧ c ≠ '\\' ∧ 0x20 ≤ c.toNat) (after : Text) :
    token? '"' (text ++ '"' :: after) = some (.value (.string text), after) := by
  simp [token?, units_plain plain, characters_plain]

end JsonObject

namespace Bindings

theorem get_ofPairs {pairs : List (Text × Value)} {name : Text} {value : Value} :
    (ofPairs pairs).get? name = some value ↔ ∃ earlier later,
      pairs = earlier ++ (name, value) :: later ∧ ∀ pair ∈ later, pair.1 ≠ name := by
  simp only [get?, ofPairs, Option.map_eq_some_iff, List.find?_eq_some_iff_append,
    List.reverse_eq_iff, decide_eq_true_eq, Bool.not_eq_true', decide_eq_false_iff_not]
  constructor
  · rintro ⟨⟨_, _⟩, ⟨rfl, later, earlier, joined, other⟩, rfl⟩
    refine ⟨earlier.reverse, later.reverse, by simpa using joined, fun pair member => ?_⟩
    exact other pair (List.mem_reverse.mp member)
  · rintro ⟨earlier, later, rfl, other⟩
    refine ⟨(name, value), ⟨rfl, later.reverse, earlier.reverse, by simp, fun pair member => ?_⟩,
      rfl⟩
    exact other pair (List.mem_reverse.mp member)

theorem ofJson_eq_some {text : Text} {bindings : Bindings} :
    ofJson? text = some bindings ↔ ∃ members,
      JsonObject.Reads text (.opening :: JsonObject.listed members) ∧
        bindings = ofPairs members := by
  simp only [ofJson?, bind, Option.bind_eq_some_iff, pure, Option.some.injEq,
    JsonObject.tokens_iff (Nat.le_refl _), JsonObject.object_eq_some]
  constructor
  · rintro ⟨_, reads, members, rfl, rfl⟩
    exact ⟨members, reads, rfl⟩
  · rintro ⟨members, reads, rfl⟩
    exact ⟨_, reads, members, rfl, rfl⟩

theorem last_member_counts {text : Text} {bindings : Bindings}
    (read : ofJson? text = some bindings) :
    ∃ members, JsonObject.Reads text (.opening :: JsonObject.listed members) ∧
      ∀ name value, bindings.get? name = some value ↔ ∃ earlier later,
        members = earlier ++ (name, value) :: later ∧ ∀ member ∈ later, member.1 ≠ name := by
  obtain ⟨members, reads, rfl⟩ := ofJson_eq_some.mp read
  exact ⟨members, reads, fun name value => get_ofPairs⟩

-- A second member takes the place of the first.
example :
    (Bindings.ofJson? ('{' :: "\"x\": 1, \"x\": null".toList ++ ['}'])).bind
      (·.get? ['x']) = some .null := by
  decide +kernel

end Bindings
end Stencil
