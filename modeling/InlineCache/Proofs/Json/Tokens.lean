import InlineCache.Json

/-!
# Values and their tokens

A value is written with one list of tokens. The reader gets the value back from this list, whatever
comes after it, and reads a value from no other list.
-/

namespace InlineCache.JsonValue

mutual

/-- The tokens of a value. -/
def tokens : JsonValue → List JsonToken
  | .null => [.null]
  | .bool value => [.bool value]
  | .number n => [.number n]
  | .string text => [.string text]
  | .array elements => .openArray :: (elementTokens elements ++ [.closeArray])
  | .object members => .openObject :: (memberTokens members ++ [.closeObject])

/-- The tokens between the brackets of an array. -/
def elementTokens : List JsonValue → List JsonToken
  | [] => []
  | [value] => value.tokens
  | value :: next :: rest => value.tokens ++ .comma :: elementTokens (next :: rest)

/-- The tokens between the braces of an object. -/
def memberTokens : List (Option String × JsonValue) → List JsonToken
  | [] => []
  | [(key, value)] => .string key :: .colon :: value.tokens
  | (key, value) :: next :: rest =>
    .string key :: .colon :: (value.tokens ++ .comma :: memberTokens (next :: rest))

end

theorem head?_tokens_append (value : JsonValue) (rest : List JsonToken) :
    (value.tokens ++ rest).head? ≠ some .closeArray := by
  cases value <;> simp [tokens]

theorem head?_elementTokens_append {elements : List JsonValue} (h : elements ≠ [])
    (rest : List JsonToken) : (elementTokens elements ++ rest).head? ≠ some .closeArray := by
  rcases elements with _ | ⟨value, _ | ⟨next, others⟩⟩
  · exact absurd rfl h
  · exact head?_tokens_append value rest
  · rw [elementTokens, List.append_assoc]
    exact head?_tokens_append value _

theorem head?_memberTokens_append {members : List (Option String × JsonValue)} (h : members ≠ [])
    (rest : List JsonToken) : (memberTokens members ++ rest).head? ≠ some .closeObject := by
  rcases members with _ | ⟨⟨key, value⟩, _ | ⟨next, others⟩⟩
  · exact absurd rfl h
  · simp [memberTokens]
  · simp [memberTokens]

/-! ### One step of the reader -/

theorem read_openArray (fuel : Nat) {tokens : List JsonToken}
    (h : tokens.head? ≠ some .closeArray) :
    read (fuel + 1) (.openArray :: tokens)
      = (readElements fuel tokens).map fun pair => (.array pair.1, pair.2) := by
  rw [read]
  · rcases readElements fuel tokens with _ | pair <;> rfl
  · rintro rest rfl
    exact h rfl

theorem read_openObject (fuel : Nat) {tokens : List JsonToken}
    (h : tokens.head? ≠ some .closeObject) :
    read (fuel + 1) (.openObject :: tokens)
      = (readMembers fuel tokens).map fun pair => (.object pair.1, pair.2) := by
  rw [read]
  · rcases readMembers fuel tokens with _ | pair <;> rfl
  · rintro rest rfl
    exact h rfl

variable {fuel : Nat} {tokens rest after : List JsonToken} {elements : List JsonValue}
  {members : List (Option String × JsonValue)} {value : JsonValue}

/-- A value has no parts, or its parts come after an opening bracket. -/
theorem read_cases (h : read (fuel + 1) tokens = some (value, rest)) :
    tokens = value.tokens ++ rest ∨
      (∃ start elements, tokens = .openArray :: start ∧ value = .array elements ∧
        readElements fuel start = some (elements, rest)) ∨
      ∃ start members, tokens = .openObject :: start ∧ value = .object members ∧
        readMembers fuel start = some (members, rest) := by
  unfold read at h
  split at h
  case h_7 hfuel =>
    obtain rfl := Nat.succ.inj hfuel
    obtain ⟨⟨elements, after⟩, hread, h⟩ := Option.bind_eq_some_iff.mp h
    obtain ⟨rfl, rfl⟩ := Prod.mk.inj (Option.some.inj h)
    exact .inr (.inl ⟨_, elements, rfl, rfl, hread⟩)
  case h_9 hfuel =>
    obtain rfl := Nat.succ.inj hfuel
    obtain ⟨⟨members, after⟩, hread, h⟩ := Option.bind_eq_some_iff.mp h
    obtain ⟨rfl, rfl⟩ := Prod.mk.inj (Option.some.inj h)
    exact .inr (.inr ⟨_, members, rfl, rfl, hread⟩)
  -- the other values are over with their last token
  all_goals cases h <;> exact .inl rfl

theorem readElements_eq_some_iff :
    readElements (fuel + 1) tokens = some (elements, after) ↔
      ∃ value, (read fuel tokens = some (value, .closeArray :: after) ∧ elements = [value]) ∨
        ∃ rest others, read fuel tokens = some (value, .comma :: rest) ∧
          readElements fuel rest = some (others, after) ∧ elements = value :: others := by
  rw [readElements, Option.bind_eq_bind, Option.bind_eq_some_iff]
  constructor
  · rintro ⟨⟨value, rest⟩, hread, h⟩
    refine ⟨value, ?_⟩
    dsimp only at h
    split at h
    · obtain ⟨⟨others, last⟩, hothers, h⟩ := Option.bind_eq_some_iff.mp h
      obtain ⟨rfl, rfl⟩ := Prod.mk.inj (Option.some.inj h)
      exact .inr ⟨_, others, hread, hothers, rfl⟩
    · obtain ⟨rfl, rfl⟩ := Prod.mk.inj (Option.some.inj h)
      exact .inl ⟨hread, rfl⟩
    · cases h
  · rintro ⟨value, ⟨hread, rfl⟩ | ⟨rest, others, hread, hothers, rfl⟩⟩
    · exact ⟨_, hread, rfl⟩
    · refine ⟨_, hread, ?_⟩
      dsimp only
      rw [hothers]
      rfl

theorem readMembers_eq_some_iff :
    readMembers (fuel + 1) tokens = some (members, after) ↔
      ∃ key value start, tokens = .string key :: .colon :: start ∧
        ((read fuel start = some (value, .closeObject :: after) ∧ members = [(key, value)]) ∨
          ∃ rest others, read fuel start = some (value, .comma :: rest) ∧
            readMembers fuel rest = some (others, after) ∧ members = (key, value) :: others) := by
  constructor
  · intro h
    unfold readMembers at h
    split at h
    · cases h
    · rename_i key start hfuel
      obtain rfl := Nat.succ.inj hfuel
      obtain ⟨⟨value, rest⟩, hread, h⟩ := Option.bind_eq_some_iff.mp h
      refine ⟨key, value, start, rfl, ?_⟩
      dsimp only at h
      split at h
      · obtain ⟨⟨others, last⟩, hothers, h⟩ := Option.bind_eq_some_iff.mp h
        obtain ⟨rfl, rfl⟩ := Prod.mk.inj (Option.some.inj h)
        exact .inr ⟨_, others, hread, hothers, rfl⟩
      · obtain ⟨rfl, rfl⟩ := Prod.mk.inj (Option.some.inj h)
        exact .inl ⟨hread, rfl⟩
      · cases h
    · cases h
  · rintro ⟨key, value, start, rfl, ⟨hread, rfl⟩ | ⟨rest, others, hread, hothers, rfl⟩⟩
    · rw [readMembers, hread]
      rfl
    · rw [readMembers, hread]
      dsimp only [Option.bind_eq_bind, Option.bind_some]
      rw [hothers]
      rfl

/-! ### Whole values -/

/-- The reader gets a value, or the elements or members up to a closing bracket, back from their
tokens. -/
theorem read_written (fuel : Nat) :
    (∀ (value : JsonValue) (rest : List JsonToken), 2 * value.tokens.length ≤ fuel →
      read fuel (value.tokens ++ rest) = some (value, rest)) ∧
    (∀ (elements : List JsonValue) (rest : List JsonToken), elements ≠ [] →
      2 * (elementTokens elements).length < fuel →
      readElements fuel (elementTokens elements ++ .closeArray :: rest) = some (elements, rest)) ∧
    ∀ (members : List (Option String × JsonValue)) (rest : List JsonToken), members ≠ [] →
      2 * (memberTokens members).length < fuel →
      readMembers fuel (memberTokens members ++ .closeObject :: rest) = some (members, rest) := by
  -- twice the number of tokens is enough: a value takes one step as a value and one as an element
  induction fuel with
  | zero =>
      refine ⟨fun value rest hfuel => ?_, fun _ _ _ hfuel => ?_, fun _ _ _ hfuel => ?_⟩
      · cases value <;> simp [JsonValue.tokens] at hfuel
      · exact absurd hfuel (Nat.not_lt_zero _)
      · exact absurd hfuel (Nat.not_lt_zero _)
  | succ fuel ih =>
      obtain ⟨hvalue, helements, hmembers⟩ := ih
      refine ⟨fun value rest hfuel => ?_, fun elements rest hne hfuel => ?_,
        fun members rest hne hfuel => ?_⟩
      · cases value with
        | null => rfl
        | bool value => rfl
        | number n => rfl
        | string text => rfl
        | array elements =>
            simp only [JsonValue.tokens, List.length_cons, List.length_append] at hfuel
            rw [JsonValue.tokens, List.cons_append, List.append_assoc, List.singleton_append]
            by_cases hne : elements = []
            · subst hne
              rfl
            · rw [read_openArray fuel (head?_elementTokens_append hne _),
                helements elements rest hne (by omega), Option.map_some]
        | object members =>
            simp only [JsonValue.tokens, List.length_cons, List.length_append] at hfuel
            rw [JsonValue.tokens, List.cons_append, List.append_assoc, List.singleton_append]
            by_cases hne : members = []
            · subst hne
              rfl
            · rw [read_openObject fuel (head?_memberTokens_append hne _),
                hmembers members rest hne (by omega), Option.map_some]
      · rw [readElements_eq_some_iff]
        rcases elements with _ | ⟨value, _ | ⟨next, others⟩⟩
        · exact absurd rfl hne
        · rw [elementTokens] at hfuel ⊢
          exact ⟨value, .inl ⟨hvalue value _ (by omega), rfl⟩⟩
        · simp only [elementTokens, List.length_append, List.length_cons] at hfuel
          rw [elementTokens, List.append_assoc, List.cons_append]
          exact ⟨value, .inr ⟨_, _, hvalue value _ (by omega),
            helements (next :: others) rest (List.cons_ne_nil _ _) (by omega), rfl⟩⟩
      · rw [readMembers_eq_some_iff]
        rcases members with _ | ⟨⟨key, value⟩, _ | ⟨next, others⟩⟩
        · exact absurd rfl hne
        · simp only [memberTokens, List.length_cons] at hfuel
          exact ⟨key, value, _, rfl, .inl ⟨hvalue value _ (by omega), rfl⟩⟩
        · simp only [memberTokens, List.length_append, List.length_cons] at hfuel
          rw [memberTokens, List.cons_append, List.cons_append, List.append_assoc,
            List.cons_append]
          exact ⟨key, value, _, rfl, .inr ⟨_, _, hvalue value _ (by omega),
            hmembers (next :: others) rest (List.cons_ne_nil _ _) (by omega), rfl⟩⟩

/-- The reader reads nothing but the tokens of what it returns. -/
theorem written_of_read (fuel : Nat) :
    (∀ {tokens rest : List JsonToken} {value : JsonValue},
      read fuel tokens = some (value, rest) → tokens = value.tokens ++ rest) ∧
    (∀ {tokens rest : List JsonToken} {elements : List JsonValue},
      readElements fuel tokens = some (elements, rest) →
        elements ≠ [] ∧ tokens = elementTokens elements ++ .closeArray :: rest) ∧
    ∀ {tokens rest : List JsonToken} {members : List (Option String × JsonValue)},
      readMembers fuel tokens = some (members, rest) →
        members ≠ [] ∧ tokens = memberTokens members ++ .closeObject :: rest := by
  induction fuel with
  | zero =>
      refine ⟨fun h => ?_, fun h => ?_, fun h => ?_⟩
      · cases h
      · cases h
      · cases h
  | succ fuel ih =>
      obtain ⟨hvalue, helements, hmembers⟩ := ih
      refine ⟨fun h => ?_, fun h => ?_, fun h => ?_⟩
      · rcases read_cases h with hflat | ⟨start, elements, rfl, rfl, hread⟩ |
          ⟨start, members, rfl, rfl, hread⟩
        · exact hflat
        · rw [(helements hread).2, JsonValue.tokens, List.cons_append, List.append_assoc,
            List.singleton_append]
        · rw [(hmembers hread).2, JsonValue.tokens, List.cons_append, List.append_assoc,
            List.singleton_append]
      · obtain ⟨value, ⟨hread, rfl⟩ | ⟨between, others, hread, hothers, rfl⟩⟩ :=
          readElements_eq_some_iff.mp h
        · exact ⟨List.cons_ne_nil _ _, hvalue hread⟩
        · obtain ⟨hne, rfl⟩ := helements hothers
          obtain ⟨next, more, rfl⟩ := List.exists_cons_of_ne_nil hne
          refine ⟨List.cons_ne_nil _ _, ?_⟩
          rw [hvalue hread, elementTokens, List.append_assoc, List.cons_append]
      · obtain ⟨key, value, start, rfl, hstart⟩ := readMembers_eq_some_iff.mp h
        rcases hstart with ⟨hread, rfl⟩ | ⟨between, others, hread, hothers, rfl⟩
        · refine ⟨List.cons_ne_nil _ _, ?_⟩
          rw [hvalue hread]
          rfl
        · obtain ⟨hne, rfl⟩ := hmembers hothers
          obtain ⟨next, more, rfl⟩ := List.exists_cons_of_ne_nil hne
          refine ⟨List.cons_ne_nil _ _, ?_⟩
          rw [hvalue hread, memberTokens, List.cons_append, List.cons_append, List.append_assoc,
            List.cons_append]

/-- A list of tokens reads as a value if it is the list of the value. -/
theorem read_eq_some_iff {tokens : List JsonToken} {value : JsonValue} :
    read (2 * tokens.length) tokens = some (value, []) ↔ tokens = value.tokens := by
  constructor
  · intro h
    rw [(written_of_read _).1 h, List.append_nil]
  · rintro rfl
    have h := (read_written (2 * value.tokens.length)).1 value [] (Nat.le_refl _)
    rwa [List.append_nil] at h

end InlineCache.JsonValue
