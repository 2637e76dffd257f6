import InlineCache.Proofs.Json.Tokens
import Mathlib.Data.List.Chain

/-!
# Spelling JSON

The grammar of JSON texts: how tokens are spelled, and that blanks may stand before every token and
at the end. A text reads as a value if and only if it spells the tokens of the value.
-/

namespace InlineCache

namespace JsonToken

/-! ### The grammar -/

def Blanks (chars : List Char) : Prop := ∀ c ∈ chars, isBlank c = true

/-- One or more digits. -/
structure Digits (chars : List Char) : Prop where
  ne_nil : chars ≠ []
  isDigit : ∀ c ∈ chars, c.isDigit = true

/-- The digits of a natural number. Only the number zero starts with a zero. -/
inductive Whole : Nat → List Char → Prop
  | zero : Whole 0 ['0']
  | digits {first : Char} {rest : List Char} (hfirst : first ≠ '0') (h : Digits (first :: rest)) :
      Whole (Text.ofDigits (first :: rest)) (first :: rest)

/-- A fraction, or none. -/
inductive Fraction : Bool → List Char → Prop
  | none : Fraction true []
  | point {digits : List Char} (h : Digits digits) : Fraction false ('.' :: digits)

/-- An exponent, or none. -/
inductive Exponent : Bool → List Char → Prop
  | none : Exponent true []
  | power {letter : Char} {sign digits : List Char} (hletter : letter = 'e' ∨ letter = 'E')
      (hsign : sign = [] ∨ sign = ['+'] ∨ sign = ['-']) (h : Digits digits) :
      Exponent false (letter :: (sign ++ digits))

inductive Numeral : JsonNumber → List Char → Prop
  | mk (negative : Bool) {whole : Nat} {noFraction noExponent : Bool}
      {digits fraction exponent : List Char} (hwhole : Whole whole digits)
      (hfraction : Fraction noFraction fraction) (hexponent : Exponent noExponent exponent) :
      Numeral { negative, whole, isInteger := noFraction && noExponent }
        ((if negative then ['-'] else []) ++ (digits ++ (fraction ++ exponent)))

/-- The pieces of a string. A quote, a backslash and a control character are only written with an
escape. -/
inductive Pieces : List Piece → List Char → Prop
  | nil : Pieces [] []
  | plain {c : Char} {pieces : List Piece} {chars : List Char} (hcontrol : 0x20 ≤ c.toNat)
      (hquote : c ≠ '"') (hbackslash : c ≠ '\\') (hrest : Pieces pieces chars) :
      Pieces (.char c :: pieces) (c :: chars)
  | escape {letter c : Char} {pieces : List Piece} {chars : List Char}
      (hletter : escape? letter = some c) (hrest : Pieces pieces chars) :
      Pieces (.char c :: pieces) ('\\' :: letter :: chars)
  | code {a b c d : Char} {code : Nat} {pieces : List Piece} {chars : List Char}
      (hcode : hexCode? a b c d = some code) (hrest : Pieces pieces chars) :
      Pieces (.ofCode code :: pieces) ('\\' :: 'u' :: a :: b :: c :: d :: chars)

/-- The tokens with one spelling. -/
def fixedSpellings : List (JsonToken × List Char) :=
  [(.openObject, ['{']), (.closeObject, ['}']), (.openArray, ['[']), (.closeArray, [']']),
   (.colon, [':']), (.comma, [',']), (.null, ['n', 'u', 'l', 'l']),
   (.bool true, ['t', 'r', 'u', 'e']), (.bool false, ['f', 'a', 'l', 's', 'e'])]

inductive Spells : JsonToken → List Char → Prop
  | fixed {token : JsonToken} {chars : List Char} (h : (token, chars) ∈ fixedSpellings) :
      Spells token chars
  | string {pieces : List Piece} {chars : List Char} (h : Pieces pieces chars) :
      Spells (.string ((Piece.join pieces).map String.ofList)) ('"' :: (chars ++ ['"']))
  | number {n : JsonNumber} {chars : List Char} (h : Numeral n chars) : Spells (.number n) chars

/-- The texts that spell a list of tokens. -/
inductive Spelled : List JsonToken → List Char → Prop
  | nil {blanks : List Char} (hblanks : Blanks blanks) : Spelled [] blanks
  | cons {token : JsonToken} {tokens : List JsonToken} {blanks chars rest : List Char}
      (hblanks : Blanks blanks) (htoken : Spells token chars) (hrest : Spelled tokens rest) :
      Spelled (token :: tokens) (blanks ++ (chars ++ rest))

/-! ### Numbers -/

/-- The text does not go on with a digit. -/
def NoDigit (chars : List Char) : Prop := ∀ c ∈ chars.head?, c.isDigit = false

/-- Can the character not be part of a number that is not over yet? -/
def endsNumber (c : Char) : Bool := !c.isDigit && c != '.' && c != 'e' && c != 'E'

/-- The text does not go on with what could be part of a number. -/
def Stops (chars : List Char) : Prop := ∀ c ∈ chars.head?, endsNumber c = true

theorem Stops.noDigit {chars : List Char} (h : Stops chars) : NoDigit chars := by
  intro c hc
  have hends := h c hc
  simp only [endsNumber, Bool.and_eq_true, Bool.not_eq_true'] at hends
  exact hends.1.1.1

variable {chars rest digits : List Char}

theorem digits?_of_spelled (h : Digits digits) (hrest : NoDigit rest) :
    digits? (digits ++ rest) = some (digits, rest) := by
  have hnone : rest.takeWhile Char.isDigit = [] ∧ rest.dropWhile Char.isDigit = rest := by
    rcases rest with _ | ⟨c, others⟩
    · exact ⟨rfl, rfl⟩
    · have hc := hrest c rfl
      exact ⟨List.takeWhile_cons_of_neg (by simp [hc]), List.dropWhile_cons_of_neg (by simp [hc])⟩
  have hdigits : (digits ++ rest).takeWhile Char.isDigit = digits := by
    rw [List.takeWhile_append_of_pos h.isDigit, hnone.1, List.append_nil]
  have hafter : (digits ++ rest).dropWhile Char.isDigit = rest := by
    rw [List.dropWhile_append_of_pos h.isDigit, hnone.2]
  rw [digits?, hdigits, hafter]
  exact if_neg (by simp [h.ne_nil])

theorem spelled_of_digits? (h : digits? chars = some (digits, rest)) :
    Digits digits ∧ chars = digits ++ rest := by
  rw [digits?] at h
  split at h
  · cases h
  · rename_i hne
    obtain ⟨rfl, rfl⟩ := Prod.mk.inj (Option.some.inj h)
    refine ⟨⟨?_, List.all_eq_true.mp List.all_takeWhile⟩, ?_⟩
    · simpa using hne
    · rw [List.takeWhile_append_dropWhile]

theorem Whole.toDigits {n : Nat} (h : Whole n digits) : Digits digits := by
  cases h with
  | zero =>
      refine ⟨List.cons_ne_nil _ _, fun c hc => ?_⟩
      rw [List.mem_singleton.mp hc]
      rfl
  | digits hfirst h => exact h

theorem whole?_of_spelled {n : Nat} (h : Whole n digits) (hrest : NoDigit rest) :
    whole? (digits ++ rest) = some (n, rest) := by
  rw [whole?, digits?_of_spelled h.toDigits hrest]
  cases h with
  | zero => rfl
  | digits hfirst h => simp [hfirst]

theorem spelled_of_whole? {n : Nat} (hwhole : whole? chars = some (n, rest)) :
    ∃ digits, Whole n digits ∧ chars = digits ++ rest := by
  obtain ⟨⟨digits, after⟩, hdigits, h⟩ := Option.bind_eq_some_iff.mp hwhole
  obtain ⟨hspelled, hchars⟩ := spelled_of_digits? hdigits
  dsimp only at h
  split at h
  · cases h
  · rename_i hzero
    obtain ⟨rfl, rfl⟩ := Prod.mk.inj (Option.some.inj h)
    refine ⟨digits, ?_, hchars⟩
    rcases digits with _ | ⟨first, others⟩
    · exact absurd rfl hspelled.ne_nil
    · by_cases hfirst : first = '0'
      · subst hfirst
        rcases others with _ | ⟨second, others⟩
        · exact .zero
        · simp at hzero
      · exact .digits hfirst hspelled

variable {none : Bool}

theorem fraction?_of_spelled (h : Fraction none chars) (hrest : NoDigit rest)
    (hpoint : rest.head? ≠ some '.') : fraction? (chars ++ rest) = some (none, rest) := by
  cases h with
  | none =>
      rw [List.nil_append, fraction?]
      rintro others rfl
      exact hpoint rfl
  | point h =>
      rw [List.cons_append, fraction?, digits?_of_spelled h hrest, Option.map_some]

theorem spelled_of_fraction? (h : fraction? chars = some (none, rest)) :
    ∃ fraction, Fraction none fraction ∧ chars = fraction ++ rest := by
  unfold fraction? at h
  split at h
  · obtain ⟨⟨digits, after⟩, hdigits, h⟩ := Option.map_eq_some_iff.mp h
    obtain ⟨rfl, rfl⟩ := Prod.mk.inj h
    obtain ⟨hspelled, rfl⟩ := spelled_of_digits? hdigits
    exact ⟨_, .point hspelled, rfl⟩
  · obtain ⟨rfl, rfl⟩ := Prod.mk.inj (Option.some.inj h)
    exact ⟨_, .none, rfl⟩

theorem skipSign_of_spelled {sign : List Char} (h : sign = [] ∨ sign = ['+'] ∨ sign = ['-'])
    (hdigits : Digits digits) : skipSign (sign ++ (digits ++ rest)) = digits ++ rest := by
  rcases h with rfl | rfl | rfl
  · obtain ⟨first, others, rfl⟩ := List.exists_cons_of_ne_nil hdigits.ne_nil
    have hfirst := hdigits.isDigit first List.mem_cons_self
    rw [List.nil_append, List.cons_append, skipSign]
    · rintro more ⟨⟩
      cases hfirst
    · rintro more ⟨⟩
      cases hfirst
  · rfl
  · rfl

theorem spelled_of_skipSign (chars : List Char) :
    ∃ sign, (sign = [] ∨ sign = ['+'] ∨ sign = ['-']) ∧ chars = sign ++ skipSign chars := by
  unfold skipSign
  split
  · exact ⟨['+'], .inr (.inl rfl), rfl⟩
  · exact ⟨['-'], .inr (.inr rfl), rfl⟩
  · exact ⟨[], .inl rfl, rfl⟩

theorem exponent?_of_spelled (h : Exponent none chars) (hrest : Stops rest) :
    exponent? (chars ++ rest) = some (none, rest) := by
  cases h with
  | none =>
      rw [List.nil_append, exponent?]
      · rintro others rfl
        exact absurd (hrest 'e' rfl) (by decide)
      · rintro others rfl
        exact absurd (hrest 'E' rfl) (by decide)
  | power hletter hsign h =>
      have hdigits := digits?_of_spelled h hrest.noDigit
      rw [List.cons_append, List.append_assoc]
      rcases hletter with rfl | rfl
      · rw [exponent?, skipSign_of_spelled hsign h, hdigits, Option.map_some]
      · rw [exponent?, skipSign_of_spelled hsign h, hdigits, Option.map_some]

theorem spelled_of_power {letter : Char} (hletter : letter = 'e' ∨ letter = 'E')
    (h : (digits? (skipSign chars)).map (fun pair => (false, pair.2)) = some (none, rest)) :
    ∃ exponent, Exponent none exponent ∧ letter :: chars = exponent ++ rest := by
  obtain ⟨⟨digits, after⟩, hdigits, h⟩ := Option.map_eq_some_iff.mp h
  obtain ⟨rfl, rfl⟩ := Prod.mk.inj h
  obtain ⟨hspelled, heq⟩ := spelled_of_digits? hdigits
  obtain ⟨sign, hsign, hchars⟩ := spelled_of_skipSign chars
  refine ⟨_, .power hletter hsign hspelled, ?_⟩
  rw [hchars, heq, List.cons_append, List.append_assoc]

theorem spelled_of_exponent? (h : exponent? chars = some (none, rest)) :
    ∃ exponent, Exponent none exponent ∧ chars = exponent ++ rest := by
  unfold exponent? at h
  split at h
  · exact spelled_of_power (.inl rfl) h
  · exact spelled_of_power (.inr rfl) h
  · obtain ⟨rfl, rfl⟩ := Prod.mk.inj (Option.some.inj h)
    exact ⟨_, .none, rfl⟩

/-- After the fraction comes neither a digit nor a point. -/
theorem Exponent.head (h : Exponent none chars) (hrest : Stops rest) :
    NoDigit (chars ++ rest) ∧ (chars ++ rest).head? ≠ some '.' := by
  cases h with
  | none => exact ⟨hrest.noDigit, fun hpoint => absurd (hrest '.' hpoint) (by decide)⟩
  | power hletter _ _ =>
      refine ⟨fun c hc => ?_, fun hpoint => ?_⟩
      · obtain rfl := Option.some.inj hc
        rcases hletter with rfl | rfl <;> rfl
      · obtain rfl := Option.some.inj hpoint
        rcases hletter with h | h <;> cases h

/-- After the whole part comes no digit. -/
theorem Fraction.head (h : Fraction none chars) (hrest : NoDigit rest) :
    NoDigit (chars ++ rest) := by
  cases h with
  | none => exact hrest
  | point =>
      intro c hc
      obtain rfl := Option.some.inj hc
      rfl

theorem number?_of_spelled (negative : Bool) {noFraction noExponent : Bool} {whole : Nat}
    {fraction exponent : List Char} (hwhole : Whole whole digits)
    (hfraction : Fraction noFraction fraction) (hexponent : Exponent noExponent exponent)
    (hrest : Stops rest) : number? negative (digits ++ (fraction ++ (exponent ++ rest)))
      = some (.number { negative, whole, isInteger := noFraction && noExponent }, rest) := by
  obtain ⟨hnoDigit, hnoPoint⟩ := hexponent.head hrest
  rw [number?, whole?_of_spelled hwhole (hfraction.head hnoDigit)]
  simp only [Option.bind_eq_bind, Option.bind_some,
    fraction?_of_spelled hfraction hnoDigit hnoPoint, exponent?_of_spelled hexponent hrest]
  rfl

theorem spelled_of_number? {negative : Bool} {token : JsonToken}
    (h : number? negative chars = some (token, rest)) :
    ∃ n spelling, token = .number n ∧
      Numeral n ((if negative then ['-'] else []) ++ spelling) ∧ chars = spelling ++ rest := by
  obtain ⟨⟨whole, afterWhole⟩, hwhole, h⟩ := Option.bind_eq_some_iff.mp h
  obtain ⟨⟨noFraction, afterFraction⟩, hfraction, h⟩ := Option.bind_eq_some_iff.mp h
  obtain ⟨⟨noExponent, afterExponent⟩, hexponent, h⟩ := Option.bind_eq_some_iff.mp h
  obtain ⟨rfl, rfl⟩ := Prod.mk.inj (Option.some.inj h)
  obtain ⟨digits, hdigits, rfl⟩ := spelled_of_whole? hwhole
  obtain ⟨fraction, hpart, rfl⟩ := spelled_of_fraction? hfraction
  obtain ⟨exponent, hpower, rfl⟩ := spelled_of_exponent? hexponent
  refine ⟨_, digits ++ (fraction ++ exponent), rfl, .mk negative hdigits hpart hpower, ?_⟩
  rw [List.append_assoc, List.append_assoc]

/-! ### Strings -/

theorem pieces?_of_spelled {pieces : List Piece} (h : Pieces pieces chars) (rest : List Char) :
    pieces? (chars ++ '"' :: rest) = some (pieces, rest) := by
  induction h with
  | nil => rfl
  | plain hcontrol hquote hbackslash _ ih =>
      rw [List.cons_append, pieces?, ih]
      · have hplain := Nat.not_lt.mpr hcontrol
        simp [hplain, hbackslash]
      · exact hquote
      · intro _ _ _ _ _ heq
        exact absurd heq hbackslash
      · intro _ _ heq
        exact absurd heq hbackslash
  | escape hletter _ ih =>
      rw [List.cons_append, List.cons_append, pieces?, hletter, ih]
      · rfl
      · rintro _ _ _ _ _ rfl
        cases hletter
  | code hcode _ ih =>
      simp only [List.cons_append, pieces?, hcode, ih]
      rfl

theorem spelled_of_pieces? {pieces : List Piece} (h : pieces? chars = some (pieces, rest)) :
    ∃ spelling, Pieces pieces spelling ∧ chars = spelling ++ '"' :: rest := by
  fun_induction pieces? chars generalizing pieces rest with
  | case1 => cases h
  | case2 others =>
      obtain ⟨rfl, rfl⟩ := Prod.mk.inj (Option.some.inj h)
      exact ⟨[], .nil, rfl⟩
  | case3 a b c d others ih =>
      obtain ⟨code, hcode, h⟩ := Option.bind_eq_some_iff.mp h
      obtain ⟨⟨found, after⟩, hfound, h⟩ := Option.bind_eq_some_iff.mp h
      obtain ⟨rfl, rfl⟩ := Prod.mk.inj (Option.some.inj h)
      obtain ⟨spelling, hspelling, rfl⟩ := ih hfound
      exact ⟨_, .code hcode hspelling, rfl⟩
  | case4 letter others _ ih =>
      obtain ⟨c, hletter, h⟩ := Option.bind_eq_some_iff.mp h
      obtain ⟨⟨found, after⟩, hfound, h⟩ := Option.bind_eq_some_iff.mp h
      obtain ⟨rfl, rfl⟩ := Prod.mk.inj (Option.some.inj h)
      obtain ⟨spelling, hspelling, rfl⟩ := ih hfound
      exact ⟨_, .escape hletter hspelling, rfl⟩
  | case5 => cases h
  | case6 c others hquote _ _ hplain ih =>
      obtain ⟨⟨found, after⟩, hfound, h⟩ := Option.bind_eq_some_iff.mp h
      obtain ⟨rfl, rfl⟩ := Prod.mk.inj (Option.some.inj h)
      obtain ⟨spelling, hspelling, rfl⟩ := ih hfound
      obtain ⟨hcontrol, hbackslash⟩ : 0x20 ≤ c.toNat ∧ c ≠ '\\' := by simpa using hplain
      exact ⟨_, .plain hcontrol hquote hbackslash hspelling, rfl⟩

/-! ### Tokens -/

theorem next?_of_fixed {token : JsonToken} (h : (token, chars) ∈ fixedSpellings)
    (rest : List Char) : next? (chars ++ rest) = some (token, rest) := by
  simp only [fixedSpellings, List.mem_cons, Prod.mk.injEq, List.not_mem_nil, or_false] at h
  rcases h with ⟨rfl, rfl⟩ | ⟨rfl, rfl⟩ | ⟨rfl, rfl⟩ | ⟨rfl, rfl⟩ | ⟨rfl, rfl⟩ | ⟨rfl, rfl⟩ |
    ⟨rfl, rfl⟩ | ⟨rfl, rfl⟩ | ⟨rfl, rfl⟩ <;> rfl

theorem next?_of_digit {first : Char} (h : first.isDigit = true) (rest : List Char) :
    next? (first :: rest) = number? false (first :: rest) := by
  rw [next?]
  all_goals
    rintro others ⟨⟩
    cases h

theorem spelled_of_next? {token : JsonToken} (h : next? chars = some (token, rest)) :
    ∃ spelling, Spells token spelling ∧ chars = spelling ++ rest := by
  unfold next? at h
  split at h
  case h_10 =>
    obtain ⟨⟨pieces, after⟩, hpieces, h⟩ := Option.bind_eq_some_iff.mp h
    obtain ⟨rfl, rfl⟩ := Prod.mk.inj (Option.some.inj h)
    obtain ⟨spelling, hspelling, rfl⟩ := spelled_of_pieces? hpieces
    refine ⟨_, .string hspelling, ?_⟩
    rw [List.cons_append, List.append_assoc, List.singleton_append]
  case h_11 | h_12 =>
    obtain ⟨n, spelling, rfl, hspelling, rfl⟩ := spelled_of_number? h
    exact ⟨_, .number hspelling, rfl⟩
  case h_7 =>
    obtain ⟨rfl, rfl⟩ := Prod.mk.inj (Option.some.inj h)
    exact ⟨['n', 'u', 'l', 'l'], .fixed (by decide), rfl⟩
  case h_8 =>
    obtain ⟨rfl, rfl⟩ := Prod.mk.inj (Option.some.inj h)
    exact ⟨['t', 'r', 'u', 'e'], .fixed (by decide), rfl⟩
  case h_9 =>
    obtain ⟨rfl, rfl⟩ := Prod.mk.inj (Option.some.inj h)
    exact ⟨['f', 'a', 'l', 's', 'e'], .fixed (by decide), rfl⟩
  -- a mark is one character
  all_goals
    obtain ⟨rfl, rfl⟩ := Prod.mk.inj (Option.some.inj h)
    refine ⟨[_], .fixed ?_, rfl⟩
    decide

theorem next?_of_spelled {token : JsonToken} (h : Spells token chars)
    (hrest : (∃ n, token = .number n) → Stops rest) :
    next? (chars ++ rest) = some (token, rest) := by
  cases h with
  | fixed h => exact next?_of_fixed h rest
  | @string pieces spelling h =>
      have hpieces := pieces?_of_spelled h rest
      rw [List.cons_append, List.append_assoc, List.singleton_append, next?, string?, hpieces]
      rfl
  | @number n spelling h =>
      have hstops := hrest ⟨n, rfl⟩
      obtain ⟨negative, hwhole, hfraction, hexponent⟩ := h
      have hnumber := number?_of_spelled negative hwhole hfraction hexponent hstops
      rw [List.append_assoc, List.append_assoc, List.append_assoc]
      cases negative with
      | true => exact hnumber
      | false =>
          obtain ⟨first, others, rfl⟩ := List.exists_cons_of_ne_nil hwhole.toDigits.ne_nil
          have hfirst := hwhole.toDigits.isDigit first List.mem_cons_self
          exact (next?_of_digit hfirst _).trans hnumber

/-- Brackets, colons and commas. -/
def isMark : JsonToken → Bool
  | .openObject | .closeObject | .openArray | .closeArray | .colon | .comma => true
  | _ => false

theorem head?_fixed : (fixedSpellings.all fun entry => entry.2.head?.any fun c =>
    !isBlank c && (!entry.1.isMark || endsNumber c)) = true := by
  decide

theorem isBlank_of_isDigit {c : Char} (h : c.isDigit = true) : isBlank c = false := by
  simp only [isBlank, Bool.or_eq_false_iff, beq_eq_false_iff_ne]
  refine ⟨⟨⟨?_, ?_⟩, ?_⟩, ?_⟩ <;>
  · rintro rfl
    cases h

/-- A token does not start with a blank, and a mark ends the number before it. -/
theorem Spells.head {token : JsonToken} (h : Spells token chars) :
    ∃ first others, chars = first :: others ∧ isBlank first = false ∧
      (token.isMark = true → endsNumber first = true) := by
  cases h with
  | fixed h =>
      have hfirst := List.all_eq_true.mp head?_fixed _ h
      rcases chars with _ | ⟨first, others⟩
      · cases hfirst
      · simp only [List.head?_cons, Option.any_some, Bool.and_eq_true, Bool.not_eq_true',
          Bool.or_eq_true] at hfirst
        refine ⟨first, others, rfl, hfirst.1, fun hmark => ?_⟩
        exact hfirst.2.resolve_left (ne_false_of_eq_true hmark)
  | string => exact ⟨_, _, rfl, rfl, fun hmark => absurd hmark Bool.false_ne_true⟩
  | number h =>
      obtain ⟨negative, hwhole, _, _⟩ := h
      cases negative with
      | true => exact ⟨_, _, rfl, rfl, fun hmark => absurd hmark Bool.false_ne_true⟩
      | false =>
          obtain ⟨first, others, rfl⟩ := List.exists_cons_of_ne_nil hwhole.toDigits.ne_nil
          have hfirst := hwhole.toDigits.isDigit first List.mem_cons_self
          exact ⟨_, _, rfl, isBlank_of_isDigit hfirst,
            fun hmark => absurd hmark Bool.false_ne_true⟩

/-! ### Texts -/

/-- After a number comes a mark, if anything. -/
def Apart (first second : JsonToken) : Prop := (∃ n, first = .number n) → second.isMark = true

theorem Blanks.stops (h : Blanks chars) (hrest : Stops rest) : Stops (chars ++ rest) := by
  rcases chars with _ | ⟨c, others⟩
  · exact hrest
  · intro first hfirst
    obtain rfl := Option.some.inj hfirst
    have hblank := h c List.mem_cons_self
    simp only [isBlank, Bool.or_eq_true, beq_iff_eq] at hblank
    rcases hblank with ((rfl | rfl) | rfl) | rfl <;> rfl

theorem Spelled.stops {tokens : List JsonToken} (h : Spelled tokens chars)
    (hmark : ∀ token ∈ tokens.head?, token.isMark = true) : Stops chars := by
  cases h with
  | nil hblanks =>
      rw [← List.append_nil chars]
      exact hblanks.stops fun c hc => absurd hc (Option.not_mem_none c)
  | cons hblanks htoken _ =>
      obtain ⟨first, others, rfl, _, hends⟩ := htoken.head
      refine hblanks.stops fun c hc => ?_
      obtain rfl := Option.some.inj hc
      exact hends (hmark _ rfl)

theorem scan_of_blanks (fuel : Nat) (h : chars.dropWhile isBlank = []) :
    scan fuel chars = some [] := by
  unfold scan
  rw [h]

theorem blanks_of_dropWhile (h : chars.dropWhile isBlank = []) : Blanks chars := by
  have hsplit : chars.takeWhile isBlank ++ chars.dropWhile isBlank = chars :=
    List.takeWhile_append_dropWhile
  rw [h, List.append_nil] at hsplit
  rw [← hsplit]
  exact List.all_eq_true.mp List.all_takeWhile

theorem spelled_of_blanks {fuel : Nat} {tokens : List JsonToken}
    (hstart : chars.dropWhile isBlank = []) (h : scan fuel chars = some tokens) :
    Spelled tokens chars := by
  rw [scan_of_blanks fuel hstart] at h
  obtain rfl := Option.some.inj h
  exact .nil (blanks_of_dropWhile hstart)

theorem scan_of_start (fuel : Nat) {first : Char} {others : List Char}
    (h : chars.dropWhile isBlank = first :: others) : scan (fuel + 1) chars
      = (next? (first :: others)).bind fun pair => (scan fuel pair.2).map (pair.1 :: ·) := by
  rw [scan.eq_def, h]
  dsimp only
  rcases next? (first :: others) with _ | ⟨token, rest⟩
  · rfl
  · rcases hscan : scan fuel rest with _ | tokens
    · simp [hscan]
    · simp [hscan]

theorem scan_of_spelled {tokens : List JsonToken} (h : Spelled tokens chars)
    (hapart : tokens.IsChain Apart) {fuel : Nat} (hfuel : chars.length ≤ fuel) :
    scan fuel chars = some tokens := by
  -- every token has a character of its own, so a step for each character is enough
  induction h generalizing fuel with
  | @nil blanks hblanks =>
      have hstart : (blanks ++ []).dropWhile isBlank = [] := List.dropWhile_append_of_pos hblanks
      rw [List.append_nil] at hstart
      exact scan_of_blanks fuel hstart
  | @cons token tokens blanks spelling rest hblanks htoken hrest ih =>
      obtain ⟨hnext, hapart⟩ := List.isChain_cons.mp hapart
      obtain ⟨first, others, rfl, hfirst, _⟩ := htoken.head
      simp only [List.length_append, List.length_cons] at hfuel
      obtain ⟨fuel, rfl⟩ : ∃ less, fuel = less + 1 := ⟨fuel - 1, by omega⟩
      have hstart : (blanks ++ (first :: others ++ rest)).dropWhile isBlank
          = first :: (others ++ rest) := by
        rw [List.dropWhile_append_of_pos hblanks]
        exact List.dropWhile_cons_of_neg (by simp [hfirst])
      -- a number is over only if what follows cannot be part of it
      have htake := next?_of_spelled htoken fun hnumber =>
        hrest.stops fun token htoken => hnext token htoken hnumber
      rw [List.cons_append] at htake
      rw [scan_of_start fuel hstart, htake, Option.bind_some, ih hapart (by omega),
        Option.map_some]

theorem spelled_of_scan {fuel : Nat} {tokens : List JsonToken} (h : scan fuel chars = some tokens) :
    Spelled tokens chars := by
  induction fuel generalizing chars tokens with
  | zero =>
      rcases hstart : chars.dropWhile isBlank with _ | ⟨first, others⟩
      · exact spelled_of_blanks hstart h
      · rw [scan.eq_def, hstart] at h
        cases h
  | succ fuel ih =>
      rcases hstart : chars.dropWhile isBlank with _ | ⟨first, others⟩
      · exact spelled_of_blanks hstart h
      · rw [scan_of_start fuel hstart] at h
        obtain ⟨⟨token, rest⟩, hnext, h⟩ := Option.bind_eq_some_iff.mp h
        obtain ⟨found, hfound, rfl⟩ := Option.map_eq_some_iff.mp h
        obtain ⟨spelling, hspelling, heq⟩ := spelled_of_next? hnext
        rw [← List.takeWhile_append_dropWhile (p := isBlank) (l := chars), hstart, heq]
        exact .cons (List.all_eq_true.mp List.all_takeWhile) hspelling (ih hfound)

end JsonToken

namespace JsonValue

open JsonToken

variable {rest : List JsonToken}

theorem apart_cons {first : JsonToken} (hfirst : ∀ n, first ≠ .number n)
    (h : rest.IsChain Apart) : (first :: rest).IsChain Apart := by
  refine List.isChain_cons.mpr ⟨fun second _ => ?_, h⟩
  rintro ⟨n, rfl⟩
  exact absurd rfl (hfirst n)

/-- What comes after a value: nothing, or a mark. -/
structure Closing (rest : List JsonToken) : Prop where
  apart : rest.IsChain Apart
  isMark : ∀ token ∈ rest.head?, token.isMark = true

theorem Closing.cons {mark : JsonToken} (hmark : mark.isMark = true)
    (h : rest.IsChain Apart) : Closing (mark :: rest) where
  apart := by
    refine apart_cons ?_ h
    rintro n rfl
    cases hmark
  isMark := by
    intro token htoken
    obtain rfl := Option.some.inj htoken
    exact hmark

mutual

theorem apart_tokens : ∀ (value : JsonValue) {rest : List JsonToken}, Closing rest →
    (value.tokens ++ rest).IsChain Apart
  | .null, _, h => apart_cons (by rintro n ⟨⟩) h.apart
  | .bool _, _, h => apart_cons (by rintro n ⟨⟩) h.apart
  | .number _, _, h =>
      List.isChain_cons.mpr ⟨fun second hsecond _ => h.isMark second hsecond, h.apart⟩
  | .string _, _, h => apart_cons (by rintro n ⟨⟩) h.apart
  | .array elements, rest, h => by
      rw [tokens, List.cons_append, List.append_assoc, List.singleton_append]
      exact apart_cons (by rintro n ⟨⟩) (apart_elementTokens elements (.cons rfl h.apart))
  | .object members, rest, h => by
      rw [tokens, List.cons_append, List.append_assoc, List.singleton_append]
      exact apart_cons (by rintro n ⟨⟩) (apart_memberTokens members (.cons rfl h.apart))

theorem apart_elementTokens : ∀ (elements : List JsonValue) {rest : List JsonToken},
    Closing rest → (elementTokens elements ++ rest).IsChain Apart
  | [], _, h => h.apart
  | [value], _, h => apart_tokens value h
  | value :: next :: others, rest, h => by
      rw [elementTokens, List.append_assoc, List.cons_append]
      exact apart_tokens value (.cons rfl (apart_elementTokens (next :: others) h))

theorem apart_memberTokens : ∀ (members : List (Option String × JsonValue))
    {rest : List JsonToken}, Closing rest → (memberTokens members ++ rest).IsChain Apart
  | [], _, h => h.apart
  | [(key, value)], _, h =>
      apart_cons (by rintro n ⟨⟩) (apart_cons (by rintro n ⟨⟩) (apart_tokens value h))
  | (key, value) :: next :: others, rest, h => by
      rw [memberTokens, List.cons_append, List.cons_append, List.append_assoc, List.cons_append]
      exact apart_cons (by rintro n ⟨⟩) (apart_cons (by rintro n ⟨⟩)
        (apart_tokens value (.cons rfl (apart_memberTokens (next :: others) h))))

end

/-- The text is one of the spellings of the value. -/
def WrittenAs (value : JsonValue) (text : String) : Prop := Spelled value.tokens text.toList

/-- A text reads as a value if and only if it is a spelling of the value. -/
theorem ofText?_eq_some_iff {text : String} {value : JsonValue} :
    ofText? text = some value ↔ value.WrittenAs text := by
  constructor
  · intro h
    obtain ⟨tokens, htokens, h⟩ := Option.bind_eq_some_iff.mp h
    split at h
    · rename_i hread
      obtain rfl := Option.some.inj h
      rw [read_eq_some_iff.mp hread] at htokens
      exact spelled_of_scan htokens
    · cases h
  · intro h
    have hapart : value.tokens.IsChain Apart := by
      rw [← List.append_nil value.tokens]
      exact apart_tokens value ⟨.nil, fun token htoken => absurd htoken (Option.not_mem_none token)⟩
    have hscan : JsonToken.ofText? text = some value.tokens :=
      scan_of_spelled h hapart (Nat.le_of_eq String.length_toList)
    rw [ofText?, hscan]
    dsimp only [Option.bind_eq_bind, Option.bind_some]
    rw [read_eq_some_iff.mpr rfl]

end JsonValue

end InlineCache
