import InlineCache.Config.Basic
import InlineCache.Json

/-!
# Configurations from JSON

A document is an object with the fields of the configuration by name, or an array with their values
in order. A field that is not given has its default. An object may have other members; they are
ignored.
-/

namespace InlineCache

/-- A field of a configuration document. -/
inductive ConfigField where
  | setting (setting : Setting)
  | callCaching
deriving DecidableEq, Repr, Inhabited

namespace ConfigField

/-- The fields in the order of an array. -/
def all : List ConfigField :=
  [.setting .polymorphicCapacity, .setting .varargsCeiling, .callCaching, .setting .markBudget,
    .setting .allocationThreshold]

def name : ConfigField → String
  | .setting number => number.name
  | .callCaching => "enable_call_caching"

def ofName? (name : String) : Option ConfigField :=
  all.find? fun field => field.name == name

/-- Set a field. A number must fit the field. -/
def set? (field : ConfigField) (config : Config) (value : JsonValue) : Option Config :=
  match field with
  | .setting number => do
    let n ← value.nat?
    if n ≤ number.widest then some (number.write config n) else none
  | .callCaching => do
    let callCaching ← value.bool?
    some { config with callCaching }

end ConfigField

namespace Config

/-- Set the fields of a list to the values of a list, as far as there are values. -/
def ofElements? : List ConfigField → List JsonValue → Config → Option Config
  | _, [], config => some config
  | [], _ :: _, _ => none
  | field :: fields, value :: values, config => do
    ofElements? fields values (← field.set? config value)

/-- Set the fields that members name. Each field can be given once; all keys must be texts. -/
def ofMembers? (seen : List ConfigField) :
    List (Option String × JsonValue) → Config → Option Config
  | [], config => some config
  | (none, _) :: _, _ => none
  | (some key, value) :: rest, config =>
    match ConfigField.ofName? key with
    | none => ofMembers? seen rest config
    | some field =>
      if field ∈ seen then none
      else do
        ofMembers? (field :: seen) rest (← field.set? config value)

def ofValue? : JsonValue → Option Config
  | .array elements => ofElements? ConfigField.all elements {}
  | .object members => ofMembers? [] members {}
  | _ => none

/-- Read a configuration from a JSON text and check it. -/
def ofDocument (text : String) : Except ConfigError Config :=
  match (JsonValue.ofText? text).bind ofValue? with
  | none => .error .invalidDocument
  | some config => do
    config.check
    pure config

end Config

end InlineCache
