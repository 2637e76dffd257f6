import InlineCache.Config.Document
import InlineCache.Proofs.Execution
import InlineCache.Proofs.Json.Spelling

/-!
# What a document makes of a configuration

A configuration is seen through its fields. An object gives some of the fields, and `Makes` says for
each field what becomes of it, without regard to the order of the members. The members are read one
after the other, and what they make is what the first makes followed by what the others make.
-/

namespace InlineCache

/-! ### Settings -/

namespace Setting

theorem mem_all (setting : Setting) : setting ∈ all := by
  cases setting <;> decide

theorem read_write (setting other : Setting) (config : Config) (value : Nat) :
    other.read (setting.write config value)
      = if other = setting then value else other.read config := by
  cases setting <;> cases other <;> rfl

theorem callCaching_write (setting : Setting) (config : Config) (value : Nat) :
    (setting.write config value).callCaching = config.callCaching := by
  cases setting <;> rfl

end Setting

namespace Config

theorem check_eq_ok_iff {config : Config} : config.check = .ok () ↔
    ∀ setting : Setting, setting.least ≤ setting.read config ∧
      setting.read config ≤ setting.greatest := by
  constructor
  · exact fun h setting => Setting.range_of_checks h setting.mem_all
  · intro h
    have hsettings : ∀ settings : List Setting,
        settings.forM (fun setting => setting.check config) = .ok () := by
      intro settings
      induction settings with
      | nil => rfl
      | cons first rest ih =>
          have hfirst : first.check config = .ok () := if_pos (h first)
          rw [List.forM, hfirst]
          exact ih
    exact hsettings Setting.all

/-- A configuration that is made and then checked. -/
theorem checked_eq_ok_iff {made config : Config} :
    (do made.check; pure made : Except ConfigError Config) = .ok config ↔
      made = config ∧ config.check = .ok () := by
  rcases hcheck : made.check with error | _
  · refine iff_of_false (by rintro ⟨⟩) ?_
    rintro ⟨rfl, h⟩
    rw [hcheck] at h
    cases h
  · constructor
    · intro h
      obtain rfl := Except.ok.inj h
      exact ⟨rfl, hcheck⟩
    · rintro ⟨rfl, _⟩
      rfl

/-- A configuration is known by its settings and by whether it caches calls. -/
theorem ext_read {left right : Config}
    (hsettings : ∀ setting : Setting, setting.read left = setting.read right)
    (hcaching : left.callCaching = right.callCaching) : left = right := by
  obtain ⟨_, _, _, _, _⟩ := left
  obtain ⟨_, _, _, _, _⟩ := right
  rw [Config.mk.injEq]
  exact ⟨hsettings .polymorphicCapacity, hsettings .varargsCeiling, hcaching,
    hsettings .markBudget, hsettings .allocationThreshold⟩

end Config

/-! ### Fields of a document -/

namespace JsonValue

theorem nat?_eq_some_iff {value : JsonValue} {n : Nat} :
    value.nat? = some n ↔ value = .number { negative := false, whole := n, isInteger := true } := by
  cases value with
  | number literal =>
      obtain ⟨negative, whole, isInteger⟩ := literal
      cases negative <;> cases isInteger <;> simp [nat?]
  | null => simp [nat?]
  | bool => simp [nat?]
  | string => simp [nat?]
  | array => simp [nat?]
  | object => simp [nat?]

theorem bool?_eq_some_iff {value : JsonValue} {truth : Bool} :
    value.bool? = some truth ↔ value = .bool truth := by
  cases value <;> simp [bool?]

end JsonValue

namespace ConfigField

/-- What a configuration has in a field, as a document gives it. -/
def content (field : ConfigField) (config : Config) : JsonValue :=
  match field with
  | .setting number => .number { negative := false, whole := number.read config, isInteger := true }
  | .callCaching => .bool config.callCaching

/-- What a configuration has in a field is not too large for the field. -/
def Fits (field : ConfigField) (config : Config) : Prop :=
  match field with
  | .setting number => number.read config ≤ number.widest
  | .callCaching => True

/-- A configuration with one field taken from another. -/
def copy (field : ConfigField) (source config : Config) : Config :=
  match field with
  | .setting number => number.write config (number.read source)
  | .callCaching => { config with callCaching := source.callCaching }

variable {field other : ConfigField} {source config result : Config} {value : JsonValue}

theorem read_eq_of_content {number : Setting}
    (h : (setting number).content source = (setting number).content config) :
    number.read source = number.read config := by
  rw [content, content, JsonValue.number.injEq, JsonNumber.mk.injEq] at h
  exact h.2.1

theorem eq_of_content (h : ∀ field : ConfigField, field.content source = field.content config) :
    source = config := by
  refine Config.ext_read (fun number => read_eq_of_content (h (.setting number))) ?_
  exact JsonValue.bool.inj (h .callCaching)

theorem Fits.congr (hfits : field.Fits source) (h : field.content source = field.content config) :
    field.Fits config := by
  cases field with
  | setting number => rwa [Fits, ← read_eq_of_content h]
  | callCaching => trivial

theorem content_copy_self (field : ConfigField) (source config : Config) :
    field.content (field.copy source config) = field.content source := by
  cases field with
  | setting number => rw [content, copy, Setting.read_write, if_pos rfl, content]
  | callCaching => rfl

theorem copy_copy (field : ConfigField) (source config : Config) :
    field.copy (field.copy source config) config = field.copy source config := by
  cases field with
  | setting number => rw [copy, copy, Setting.read_write, if_pos rfl]
  | callCaching => rfl

theorem content_copy_of_ne (h : other ≠ field) (source config : Config) :
    other.content (field.copy source config) = other.content config := by
  cases field with
  | setting number =>
      cases other with
      | setting another =>
          have hne : another ≠ number := fun heq => h (congrArg setting heq)
          rw [content, copy, Setting.read_write, if_neg hne, content]
      | callCaching => rw [content, copy, Setting.callCaching_write, content]
  | callCaching =>
      cases other with
      | setting another => cases another <;> rfl
      | callCaching => exact absurd rfl h

/-- Setting a field takes the value that the field then has, if that fits. -/
theorem set?_eq_some_iff : field.set? config value = some result ↔
    value = field.content result ∧ field.Fits result ∧ result = field.copy result config := by
  cases field with
  | setting number =>
      rw [set?, Option.bind_eq_bind, Option.bind_eq_some_iff, content, Fits, copy]
      constructor
      · rintro ⟨n, hn, h⟩
        rw [JsonValue.nat?_eq_some_iff] at hn
        split at h
        · rename_i hfits
          obtain rfl := Option.some.inj h
          rw [Setting.read_write, if_pos rfl]
          exact ⟨hn, hfits, rfl⟩
        · cases h
      · rintro ⟨hvalue, hfits, hresult⟩
        refine ⟨number.read result, JsonValue.nat?_eq_some_iff.mpr hvalue, ?_⟩
        rw [if_pos hfits, ← hresult]
  | callCaching =>
      rw [set?, Option.bind_eq_bind, Option.bind_eq_some_iff, content, Fits, copy]
      constructor
      · rintro ⟨callCaching, hvalue, h⟩
        rw [JsonValue.bool?_eq_some_iff] at hvalue
        obtain rfl := Option.some.inj h
        exact ⟨hvalue, trivial, rfl⟩
      · rintro ⟨hvalue, _, hresult⟩
        exact ⟨result.callCaching, JsonValue.bool?_eq_some_iff.mpr hvalue,
          congrArg some hresult.symm⟩

theorem mem_all (field : ConfigField) : field ∈ all := by
  cases field with
  | setting number => cases number <;> decide
  | callCaching => decide

theorem name_inj (h : field.name = other.name) : field = other := by
  have hnodup : (all.map name).Nodup := by decide
  exact List.inj_on_of_nodup_map hnodup field.mem_all other.mem_all h

theorem ofName?_eq_some_iff {key : String} : ofName? key = some field ↔ key = field.name := by
  constructor
  · intro h
    have hname := List.find?_some h
    exact (eq_of_beq hname).symm
  · rintro rfl
    have hsome : (ofName? field.name).isSome :=
      List.find?_isSome.mpr ⟨field, field.mem_all, by simp⟩
    obtain ⟨found, hfound⟩ := Option.isSome_iff_exists.mp hsome
    have hname := List.find?_some hfound
    rw [hfound, name_inj (eq_of_beq hname)]

end ConfigField

namespace Config

/-- The values of the members with a key. -/
def valuesOf (key : String) (members : List (String × JsonValue)) : List JsonValue :=
  (members.filter fun member => member.1 == key).map Prod.snd

/-- The members of an object all of whose keys are texts. -/
def keyed (members : List (String × JsonValue)) : List (Option String × JsonValue) :=
  members.map fun member => (some member.1, member.2)

variable {config result : Config} {members : List (String × JsonValue)} {key : String}
  {value : JsonValue}

theorem valuesOf_cons_self (key : String) (value : JsonValue)
    (members : List (String × JsonValue)) :
    valuesOf key ((key, value) :: members) = value :: valuesOf key members := by
  rw [valuesOf, List.filter_cons_of_pos (by simp), List.map_cons, valuesOf]

theorem valuesOf_cons_of_ne {other : String} (h : other ≠ key) (value : JsonValue)
    (members : List (String × JsonValue)) :
    valuesOf key ((other, value) :: members) = valuesOf key members := by
  rw [valuesOf, List.filter_cons_of_neg (by simpa using h), valuesOf]

/-- What members make of a configuration: a field is not given and stays as it is, or it is new and
given once, with a value that fits. -/
def Makes (members : List (String × JsonValue)) (seen : List ConfigField)
    (config result : Config) : Prop :=
  ∀ field : ConfigField,
    (valuesOf field.name members = [] ∧ field.content result = field.content config) ∨
      (field ∉ seen ∧ valuesOf field.name members = [field.content result] ∧ field.Fits result)

theorem makes_nil_iff {seen : List ConfigField} :
    Makes [] seen config result ↔ config = result := by
  constructor
  · intro h
    refine ConfigField.eq_of_content fun field => ?_
    rcases h field with ⟨_, heq⟩ | ⟨_, hgiven, _⟩
    · exact heq.symm
    · cases hgiven
  · rintro rfl field
    exact .inl ⟨rfl, rfl⟩

theorem makes_cons_unknown_iff {seen : List ConfigField}
    (h : ∀ field : ConfigField, key ≠ field.name) :
    Makes ((key, value) :: members) seen config result ↔ Makes members seen config result := by
  simp only [Makes, valuesOf_cons_of_ne (h _)]

theorem not_makes_of_seen {seen : List ConfigField} {field : ConfigField} (h : field ∈ seen) :
    ¬Makes ((field.name, value) :: members) seen config result := by
  intro hmakes
  rcases hmakes field with ⟨hnone, _⟩ | ⟨hnew, _⟩
  · rw [valuesOf_cons_self] at hnone
    cases hnone
  · exact hnew h

/-- A new field is set, and is not new any more for the members that follow. -/
theorem makes_cons_iff {seen : List ConfigField} {field : ConfigField} (hnew : field ∉ seen) :
    Makes ((field.name, value) :: members) seen config result ↔
      ∃ next, field.set? config value = some next ∧
        Makes members (field :: seen) next result := by
  have hnames : ∀ {other : ConfigField}, other ≠ field → field.name ≠ other.name :=
    fun hne heq => hne (ConfigField.name_inj heq).symm
  constructor
  · intro h
    rcases h field with ⟨hnone, _⟩ | ⟨_, hgiven, hfits⟩
    · rw [valuesOf_cons_self] at hnone
      cases hnone
    · rw [valuesOf_cons_self] at hgiven
      obtain ⟨rfl, hnone⟩ := List.cons.inj hgiven
      have hcopied := field.content_copy_self result config
      refine ⟨field.copy result config, ?_, fun other => ?_⟩
      · rw [ConfigField.set?_eq_some_iff, field.copy_copy]
        exact ⟨hcopied.symm, hfits.congr hcopied.symm, rfl⟩
      · by_cases hother : other = field
        · subst hother
          exact .inl ⟨hnone, hcopied.symm⟩
        · rw [ConfigField.content_copy_of_ne hother]
          have h := h other
          rw [valuesOf_cons_of_ne (hnames hother)] at h
          refine h.imp_right fun hgiven => ⟨fun hmem => ?_, hgiven.2⟩
          rcases List.mem_cons.mp hmem with heq | hmem
          · exact hother heq
          · exact hgiven.1 hmem
  · rintro ⟨next, hset, hrest⟩ other
    obtain ⟨rfl, hfits, hcopy⟩ := ConfigField.set?_eq_some_iff.mp hset
    by_cases hother : other = field
    · subst hother
      rcases hrest other with ⟨hnone, heq⟩ | ⟨hunseen, _⟩
      · refine .inr ⟨hnew, ?_, hfits.congr heq.symm⟩
        rw [valuesOf_cons_self, hnone, heq]
      · exact absurd List.mem_cons_self hunseen
    · have hkept : other.content next = other.content config := by
        rw [hcopy]
        exact ConfigField.content_copy_of_ne hother next config
      rw [valuesOf_cons_of_ne (hnames hother), ← hkept]
      refine (hrest other).imp_right fun hgiven => ⟨fun hmem => ?_, hgiven.2⟩
      exact hgiven.1 (List.mem_cons_of_mem field hmem)

theorem ofMembers?_eq_some_iff {seen : List ConfigField} :
    ofMembers? seen (keyed members) config = some result ↔ Makes members seen config result := by
  induction members generalizing seen config with
  | nil =>
      rw [makes_nil_iff]
      exact Option.some_inj
  | cons member rest ih =>
      obtain ⟨key, value⟩ := member
      rw [keyed, List.map_cons, ← keyed, ofMembers?]
      rcases hname : ConfigField.ofName? key with _ | field
      · have hunknown : ∀ field : ConfigField, key ≠ field.name := by
          intro field hkey
          rw [ConfigField.ofName?_eq_some_iff.mpr hkey] at hname
          cases hname
        rw [makes_cons_unknown_iff hunknown]
        exact ih
      · obtain rfl := ConfigField.ofName?_eq_some_iff.mp hname
        dsimp only
        by_cases hseen : field ∈ seen
        · rw [if_pos hseen]
          exact iff_of_false (by rintro ⟨⟩) (not_makes_of_seen hseen)
        · rw [if_neg hseen, makes_cons_iff hseen, Option.bind_eq_bind, Option.bind_eq_some_iff]
          simp only [ih]

/-- An object makes the configuration that its members make, if that is in range. -/
theorem ofDocument_eq_ok_iff {text : String}
    (h : (JsonValue.object (keyed members)).WrittenAs text) :
    ofDocument text = .ok config ↔ Makes members [] {} config ∧ config.check = .ok () := by
  rw [ofDocument, JsonValue.ofText?_eq_some_iff.mpr h, Option.bind_some, ofValue?,
    ← ofMembers?_eq_some_iff]
  rcases ofMembers? [] (keyed members) {} with _ | made
  · exact iff_of_false (by rintro ⟨⟩) (by rintro ⟨⟨⟩, _⟩)
  · rw [Option.some_inj]
    exact checked_eq_ok_iff

end Config

end InlineCache
