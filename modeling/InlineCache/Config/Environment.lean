import InlineCache.Config.Basic
import InlineCache.Text

/-!
# Configurations from the environment
-/

namespace InlineCache

/-- The variables of an environment, with their raw values. -/
structure Environment where
  values : List (String × ByteArray) := []

namespace Environment

/-- The text of a variable. A value that is not UTF-8 counts as unset. -/
def text? (environment : Environment) (name : String) : Option String :=
  (environment.values.lookup name).bind String.fromUTF8?

/-- Read a number with an optional plus sign, between blanks. -/
def number? (text : String) : Option Nat := do
  let digits := match Text.trim text.toList with
    | '+' :: rest => rest
    | chars => chars
  let n ← Text.decimal? digits
  if n ≤ word64Max then some n else none

/-- Is a switch turned on? It is turned off by no text, by 0 and by the words for no. -/
def isOn (text : String) : Bool :=
  String.ofList ((Text.trim text.toList).map Char.toLower) ∉ ["", "0", "false", "off", "no"]

end Environment

namespace Setting

/-- The variable that overrides a setting. -/
def variableName : Setting → String
  | .polymorphicCapacity => "OTTER_CALL_POLY_CAPACITY"
  | .varargsCeiling => "OTTER_CALL_VARARGS_CEILING"
  | .markBudget => "OTTER_GC_MARK_BUDGET"
  | .allocationThreshold => "OTTER_GC_THRESHOLD"

/-- Override a setting. A number that does not fit its field counts as the largest that does. -/
def override (environment : Environment) (config : Config) (setting : Setting) :
    Except ConfigError Config :=
  match environment.text? setting.variableName with
  | none => .ok config
  | some text =>
    match Environment.number? text with
    | some n => .ok (setting.write config (min n setting.widest))
    | none => .error (.invalidVariable setting.variableName text)

end Setting

namespace Config

/-- The variable of the switch that turns call caching off. -/
def cachingSwitch : String := "OTTER_DISABLE_CALL_IC"

/-- Call caching is on unless the switch turns it off. -/
def cachesCalls (environment : Environment) : Bool :=
  match environment.text? cachingSwitch with
  | some text => !Environment.isOn text
  | none => true

/-- The defaults with the overrides of an environment, checked. -/
def ofEnvironment (environment : Environment) : Except ConfigError Config := do
  let config ← Setting.all.foldlM (Setting.override environment)
    { callCaching := cachesCalls environment }
  config.check
  pure config

end Config

end InlineCache
