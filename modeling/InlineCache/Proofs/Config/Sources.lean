import InlineCache.Config.Environment
import InlineCache.Proofs.Config.Document

/-!
# The two sources of a configuration

A configuration comes from an environment or from a document. The two are read by different rules: a
variable holds a number of any size, which is cut to the width of its setting and checked
afterwards, and a field of a document holds a value that has to fit. What someone asks for is stated
here once, as a choice, and each source is shown to accept a choice exactly if every setting comes
out in range, with the configuration that the choice describes.
-/

namespace InlineCache

/-! ### Choices -/

/-- What someone asks for: numbers for some of the settings, and whether calls are not to be
cached. -/
structure Choice where
  number? : Setting → Option UInt64
  uncached : Bool

namespace Choice

/-- The environment has the chosen numbers in plain decimal, and the switch for calls that are not
to be cached. It does not have the other variables of a configuration. -/
structure SetIn (choice : Choice) (environment : Environment) : Prop where
  number : ∀ setting : Setting, environment.values.lookup setting.variableName
    = (choice.number? setting).map fun n => (toString n.toNat).toUTF8
  switch : environment.values.lookup Config.cachingSwitch
    = if choice.uncached then some "1".toUTF8 else none

/-- The value that a document gives to a field. -/
def value? (choice : Choice) : ConfigField → Option JsonValue
  | .setting setting => (choice.number? setting).map fun n =>
      .number { negative := false, whole := n.toNat, isInteger := true }
  | .callCaching => if choice.uncached then some (.bool false) else none

/-- The text is an object that gives the chosen fields, each of them once, in any order and among
members with other names. A name is what is left when its escapes are resolved, so half of a
surrogate pair is in no name. The values of the other members are any values. -/
def WrittenIn (choice : Choice) (text : String) : Prop :=
  ∃ members : List (String × JsonValue),
    (JsonValue.object (Config.keyed members)).WrittenAs text ∧
      ∀ field : ConfigField, Config.valuesOf field.name members = (choice.value? field).toList

/-- The configuration has what was chosen, and the defaults for the rest. -/
structure Describes (choice : Choice) (config : Config) : Prop where
  number : ∀ setting : Setting, setting.read config
    = ((choice.number? setting).map UInt64.toNat).getD (setting.read {})
  callCaching : config.callCaching = !choice.uncached

end Choice

namespace Setting

/-- What is in range of a setting fits its field. -/
theorem greatest_le_widest (setting : Setting) : setting.greatest ≤ setting.widest := by
  cases setting <;> decide

/-- Cutting a number to the width of its setting does not bring it into the range. -/
theorem min_widest_of_le_greatest (setting : Setting) {n : Nat} (hn : n ≤ word64Max)
    (h : min n setting.widest ≤ setting.greatest) : min n setting.widest = n := by
  cases setting <;> simp only [widest, greatest, word32Max, word64Max] at * <;> omega

end Setting

/-! ### Numerals -/

namespace Text

theorem isBlank_of_isDigit {c : Char} (h : c.isDigit = true) : isBlank c = false := by
  simp only [Char.isDigit, Bool.and_eq_true, decide_eq_true_eq, ge_iff_le,
    UInt32.le_iff_toNat_le] at h
  have hrange : 48 ≤ c.toNat ∧ c.toNat ≤ 57 := h
  simp [isBlank, blankRanges]
  omega

theorem trim_of_digits {digits : List Char} (h : ∀ c ∈ digits, c.isDigit = true) :
    trim digits = digits := by
  have hdrop : ∀ chars : List Char, (∀ c ∈ chars, c.isDigit = true) →
      chars.dropWhile isBlank = chars := by
    intro chars hchars
    rcases chars with _ | ⟨first, rest⟩
    · rfl
    · have hfirst := isBlank_of_isDigit (hchars first List.mem_cons_self)
      exact List.dropWhile_cons_of_neg (by simp [hfirst])
  rw [trim, hdrop digits h, hdrop digits.reverse, List.reverse_reverse]
  exact fun c hc => h c (List.mem_reverse.mp hc)

theorem decimal?_toDigits (n : Nat) : decimal? (Nat.toDigits 10 n) = some n := by
  have hdigits : ¬((Nat.toDigits 10 n).isEmpty || (Nat.toDigits 10 n).any fun c => !c.isDigit) := by
    simp only [Bool.or_eq_true, List.isEmpty_iff, List.any_eq_true, not_or, not_exists, not_and]
    refine ⟨Nat.toDigits_ne_nil, fun c hc => ?_⟩
    simp [Nat.isDigit_of_mem_toDigits (by decide) (by decide) hc]
  have hvalue : ofDigits (Nat.toDigits 10 n) = n :=
    Nat.ofDigitChars_toDigits (by decide) (by decide)
  rw [decimal?, if_neg hdigits, hvalue]

end Text

theorem Environment.fromUTF8?_toUTF8 (text : String) :
    String.fromUTF8? text.toUTF8 = some text := dif_pos text.isValidUTF8

theorem Environment.number?_toString (n : UInt64) : number? (toString n.toNat) = some n.toNat := by
  have hdigits : ∀ c ∈ Nat.toDigits 10 n.toNat, c.isDigit = true :=
    fun c hc => Nat.isDigit_of_mem_toDigits (by decide) (by decide) hc
  have hchars : (toString n.toNat).toList = Nat.toDigits 10 n.toNat := String.toList_ofList
  have hfits : n.toNat ≤ word64Max := Nat.le_of_lt_succ n.toNat_lt
  have hne : Nat.toDigits 10 n.toNat ≠ [] := Nat.toDigits_ne_nil
  obtain ⟨first, rest, hcons⟩ := List.exists_cons_of_ne_nil hne
  have hplus : first ≠ '+' := by
    rintro rfl
    have hfirst := hdigits '+' (by rw [hcons]; exact List.mem_cons_self)
    cases hfirst
  have hdecimal := Text.decimal?_toDigits n.toNat
  rw [number?, hchars, Text.trim_of_digits hdigits]
  rw [hcons] at hdecimal ⊢
  split
  · rename_i heq
    exact absurd (List.cons.inj heq).1 hplus
  · rw [hdecimal]
    exact if_pos hfits

namespace Choice

variable {choice : Choice} {environment : Environment} {text : String} {config : Config}

/-! ### Environments -/

theorem SetIn.text? (h : choice.SetIn environment) (setting : Setting) :
    environment.text? setting.variableName
      = (choice.number? setting).map fun n => toString n.toNat := by
  rw [Environment.text?, h.number]
  rcases choice.number? setting with _ | n
  · rfl
  · exact Environment.fromUTF8?_toUTF8 _

theorem SetIn.cachesCalls (h : choice.SetIn environment) :
    Config.cachesCalls environment = !choice.uncached := by
  rw [Config.cachesCalls, Environment.text?, h.switch]
  cases choice.uncached with
  | true =>
      rw [if_pos rfl, Option.bind_some, Environment.fromUTF8?_toUTF8]
      decide +kernel
  | false => rfl

/-- Overriding a setting writes the chosen number, cut to the width of the setting. -/
def cut (choice : Choice) (config : Config) (setting : Setting) : Config :=
  match choice.number? setting with
  | none => config
  | some n => setting.write config (min n.toNat setting.widest)

theorem read_cut (choice : Choice) (config : Config) (setting other : Setting) :
    other.read (choice.cut config setting) = if other = setting then
      ((choice.number? setting).map fun n => min n.toNat setting.widest).getD (setting.read config)
      else other.read config := by
  unfold cut
  rcases choice.number? setting with _ | n
  · by_cases hother : other = setting
    · subst hother
      rw [if_pos rfl]
      rfl
    · rw [if_neg hother]
  · exact Setting.read_write setting other config _

theorem callCaching_cut (choice : Choice) (config : Config) (setting : Setting) :
    (choice.cut config setting).callCaching = config.callCaching := by
  unfold cut
  rcases choice.number? setting with _ | n
  · rfl
  · exact Setting.callCaching_write setting config _

theorem SetIn.override (h : choice.SetIn environment) (config : Config) (setting : Setting) :
    setting.override environment config = .ok (choice.cut config setting) := by
  rw [Setting.override, h.text?, cut]
  rcases choice.number? setting with _ | n
  · rfl
  · dsimp only [Option.map_some]
    rw [Environment.number?_toString]

theorem SetIn.overrides (h : choice.SetIn environment) (settings : List Setting)
    (config : Config) : settings.foldlM (Setting.override environment) config
      = .ok (settings.foldl choice.cut config) := by
  induction settings generalizing config with
  | nil => rfl
  | cons first rest ih =>
      rw [List.foldlM_cons, h.override]
      exact ih (choice.cut config first)

theorem read_cuts (choice : Choice) (config : Config) (setting : Setting) :
    setting.read (Setting.all.foldl choice.cut config)
      = ((choice.number? setting).map fun n => min n.toNat setting.widest).getD
        (setting.read config) := by
  cases setting <;> simp [Setting.all, read_cut]

theorem callCaching_cuts (choice : Choice) (config : Config) (settings : List Setting) :
    (settings.foldl choice.cut config).callCaching = config.callCaching := by
  induction settings generalizing config with
  | nil => rfl
  | cons first rest ih => rw [List.foldl_cons, ih, callCaching_cut]

/-- For a number in range it makes no difference whether the chosen number was cut. -/
theorem cut_iff (choice : Choice) {setting : Setting} {value default : Nat}
    (h : value ≤ setting.greatest) :
    value = ((choice.number? setting).map fun n => min n.toNat setting.widest).getD default ↔
      value = ((choice.number? setting).map UInt64.toNat).getD default := by
  rcases choice.number? setting with _ | n
  · rfl
  · have hn : n.toNat ≤ word64Max := Nat.le_of_lt_succ n.toNat_lt
    have hwide := setting.greatest_le_widest
    dsimp only [Option.map_some, Option.getD_some]
    constructor
    · rintro rfl
      exact setting.min_widest_of_le_greatest hn h
    · rintro rfl
      omega

/-- An environment makes what its choice describes, if that is in range. -/
theorem SetIn.ofEnvironment_eq_ok_iff (h : choice.SetIn environment) :
    Config.ofEnvironment environment = .ok config ↔
      choice.Describes config ∧ config.check = .ok () := by
  obtain ⟨made, hmade⟩ : ∃ made, made
      = Setting.all.foldl choice.cut { callCaching := Config.cachesCalls environment } := ⟨_, rfl⟩
  have hread : ∀ setting : Setting, setting.read made
      = ((choice.number? setting).map fun n => min n.toNat setting.widest).getD
        (setting.read {}) := by
    intro setting
    rw [hmade, read_cuts]
    cases setting <;> rfl
  have hcaching : made.callCaching = !choice.uncached := by
    rw [hmade, callCaching_cuts, ← h.cachesCalls]
  rw [Config.ofEnvironment, h.overrides, ← hmade]
  -- the cut is seen only outside the range, and there neither side holds
  refine Config.checked_eq_ok_iff.trans (and_congr_left fun hcheck => ?_)
  have hrange := Config.check_eq_ok_iff.mp hcheck
  constructor
  · rintro rfl
    exact ⟨fun setting => (choice.cut_iff (hrange setting).2).mp (hread setting), hcaching⟩
  · intro hdescribes
    refine Config.ext_read (fun setting => ?_) (hcaching.trans hdescribes.callCaching.symm)
    rw [hread, ← (choice.cut_iff (hrange setting).2).mpr (hdescribes.number setting)]

/-! ### Documents -/

theorem describes_iff : choice.Describes config ↔ ∀ field : ConfigField,
    field.content config = (choice.value? field).getD (field.content {}) := by
  constructor
  · intro h field
    cases field with
    | setting number =>
        rw [ConfigField.content, h.number, value?]
        rcases choice.number? number with _ | n <;> rfl
    | callCaching =>
        rw [ConfigField.content, h.callCaching, value?]
        cases choice.uncached <;> rfl
  · intro h
    refine ⟨fun setting => ?_, ?_⟩
    · have hfield := h (.setting setting)
      rw [value?] at hfield
      rcases hnumber : choice.number? setting with _ | n <;> rw [hnumber] at hfield
      · exact ConfigField.read_eq_of_content hfield
      · exact (JsonNumber.mk.inj (JsonValue.number.inj hfield)).2.1
    · have hfield := h .callCaching
      rw [value?] at hfield
      cases huncached : choice.uncached <;> rw [huncached] at hfield
      · exact JsonValue.bool.inj hfield
      · exact JsonValue.bool.inj hfield

/-- A document makes what its choice describes, if that is in range. -/
theorem WrittenIn.ofDocument_eq_ok_iff (h : choice.WrittenIn text) :
    Config.ofDocument text = .ok config ↔ choice.Describes config ∧ config.check = .ok () := by
  obtain ⟨members, hwritten, hvalues⟩ := h
  rw [Config.ofDocument_eq_ok_iff hwritten]
  refine and_congr_left fun hcheck => ?_
  have hfits : ∀ field : ConfigField, field.Fits config := by
    intro field
    cases field with
    | setting number =>
        exact Nat.le_trans (Config.check_eq_ok_iff.mp hcheck number).2 number.greatest_le_widest
    | callCaching => trivial
  rw [describes_iff]
  refine forall_congr' fun field => ?_
  rw [hvalues]
  rcases choice.value? field with _ | value
  · simp
  · simp [hfits field, eq_comm]

/-- The environment and the document of a choice are read as the same configuration, or both are
refused. They are accepted exactly if what the choice describes is in range, so a number that is too
large for the 32-bit word of its setting is refused by both. -/
theorem sources_agree (hset : choice.SetIn environment) (hwritten : choice.WrittenIn text) :
    (∀ config, Config.ofEnvironment environment = .ok config ↔
      Config.ofDocument text = .ok config) ∧
    (∀ config, Config.ofDocument text = .ok config ↔ choice.Describes config ∧
      ∀ setting : Setting, setting.least ≤ setting.read config ∧
        setting.read config ≤ setting.greatest) ∧
    ∀ setting n, choice.number? setting = some n →
      setting = .polymorphicCapacity ∨ setting = .varargsCeiling → word32Max < n.toNat →
      ∀ config, Config.ofEnvironment environment ≠ .ok config ∧
        Config.ofDocument text ≠ .ok config := by
  have hagree : ∀ config, Config.ofEnvironment environment = .ok config ↔
      Config.ofDocument text = .ok config := fun config =>
    hset.ofEnvironment_eq_ok_iff.trans hwritten.ofDocument_eq_ok_iff.symm
  have hexact : ∀ config, Config.ofDocument text = .ok config ↔ choice.Describes config ∧
      ∀ setting : Setting, setting.least ≤ setting.read config ∧
        setting.read config ≤ setting.greatest := fun config =>
    hwritten.ofDocument_eq_ok_iff.trans (and_congr_right fun _ => Config.check_eq_ok_iff)
  refine ⟨hagree, hexact, fun setting n hnumber hsetting hlarge config => ?_⟩
  have hrefused : Config.ofDocument text ≠ .ok config := by
    intro hok
    obtain ⟨hdescribes, hrange⟩ := (hexact config).mp hok
    have hread := hdescribes.number setting
    rw [hnumber] at hread
    have hgreatest : setting.greatest ≤ word32Max := by
      rcases hsetting with rfl | rfl <;> decide
    have hle := Nat.le_trans (hrange setting).2 hgreatest
    rw [hread] at hle
    exact absurd hlarge (Nat.not_lt.mpr hle)
  exact ⟨fun hok => hrefused ((hagree config).mp hok), hrefused⟩

/-- The largest mark budget, a capacity, and no caching. -/
def mixed : Choice where
  number?
    | .polymorphicCapacity => some 8
    | .markBudget => some 18446744073709551615
    | _ => none
  uncached := true

def mixedEnvironment : Environment where
  values := [("OTTER_GC_MARK_BUDGET", "18446744073709551615".toUTF8), ("HOME", "/".toUTF8),
    ("OTTER_DISABLE_CALL_IC", "1".toUTF8), ("OTTER_CALL_POLY_CAPACITY", "8".toUTF8)]

/-- Two members have one unknown name, and the name of a field is written with an escape. -/
def mixedText : String :=
  "\x7b\"note\":[-1.5e3,\x7b\"\\ud800\":null\x7d], \"mark_budget\" : 18446744073709551615,\n" ++
    "\"enable\\u005fcall_caching\":false,\"note\":\"\",\"polymorphic_capacity\":8 \x7d"

def mixedMembers : List (String × JsonValue) :=
  [("note", .array [.number ⟨true, 1, false⟩, .object [(none, .null)]]),
    ("mark_budget", .number ⟨false, 18446744073709551615, true⟩),
    ("enable_call_caching", .bool false), ("note", .string (some "")),
    ("polymorphic_capacity", .number ⟨false, 8, true⟩)]

theorem mixed_setIn : mixed.SetIn mixedEnvironment := by
  refine ⟨fun setting => ?_, by decide +kernel⟩
  cases setting <;> decide +kernel

theorem mixed_writtenIn : mixed.WrittenIn mixedText := by
  have hread : (JsonValue.ofText? mixedText).map JsonValue.tokens
      = some (JsonValue.object (Config.keyed mixedMembers)).tokens := by decide +kernel
  obtain ⟨value, hvalue, htokens⟩ := Option.map_eq_some_iff.mp hread
  refine ⟨mixedMembers, ?_, fun field => ?_⟩
  · rw [JsonValue.WrittenAs, ← htokens]
    exact JsonValue.ofText?_eq_some_iff.mp hvalue
  · cases field with
    | setting number => cases number <;> rfl
    | callCaching => rfl

theorem sources_agree_of_mixed :
    let config : Config :=
      { polymorphicCapacity := 8, callCaching := false, markBudget := 18446744073709551615 }
    mixed.SetIn mixedEnvironment ∧ mixed.WrittenIn mixedText ∧
      Config.ofEnvironment mixedEnvironment = .ok config ∧
      Config.ofDocument mixedText = .ok config := by
  intro config
  obtain ⟨hagree, hexact, _⟩ := sources_agree mixed_setIn mixed_writtenIn
  have hdocument : Config.ofDocument mixedText = .ok config := by
    refine (hexact config).mpr ⟨⟨fun setting => ?_, rfl⟩, fun setting => ?_⟩
    · cases setting <;> rfl
    · cases setting <;> decide
  exact ⟨mixed_setIn, mixed_writtenIn, (hagree config).mpr hdocument, hdocument⟩

end Choice

end InlineCache
