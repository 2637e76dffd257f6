import InlineCache.Heap.Basic
import InlineCache.Stats
import InlineCache.Text

/-!
# Configuration

The settings of a machine, their defaults and their ranges.
-/

namespace InlineCache

structure Config where
  /-- The largest number of cases in a stub. -/
  polymorphicCapacity : Nat := 4
  /-- The ceiling of the profile of computed argument lists. -/
  varargsCeiling : Nat := 255
  callCaching : Bool := true
  /-- Cells scanned at a safepoint. -/
  markBudget : Nat := 64
  /-- Allocations between collections. -/
  allocationThreshold : Nat := 4096
deriving DecidableEq, Repr, Inhabited

/-- A setting that is a number. -/
inductive Setting where
  | polymorphicCapacity
  | varargsCeiling
  | markBudget
  | allocationThreshold
deriving DecidableEq, Repr, Inhabited

namespace Setting

def name : Setting → String
  | .polymorphicCapacity => "polymorphic_capacity"
  | .varargsCeiling => "max_varargs_argument_count"
  | .markBudget => "mark_budget"
  | .allocationThreshold => "gc_allocation_threshold"

/-- Every setting is at least 1. -/
def least (_ : Setting) : Nat := 1

def greatest : Setting → Nat
  | .polymorphicCapacity => 32
  | .varargsCeiling => 255
  | .markBudget => word64Max
  | .allocationThreshold => word64Max

/-- The largest number that fits the field that holds the setting. -/
def widest : Setting → Nat
  | .polymorphicCapacity => word32Max
  | .varargsCeiling => word32Max
  | .markBudget => word64Max
  | .allocationThreshold => word64Max

def read (setting : Setting) (config : Config) : Nat :=
  match setting with
  | .polymorphicCapacity => config.polymorphicCapacity
  | .varargsCeiling => config.varargsCeiling
  | .markBudget => config.markBudget
  | .allocationThreshold => config.allocationThreshold

def write (setting : Setting) (config : Config) (value : Nat) : Config :=
  match setting with
  | .polymorphicCapacity => { config with polymorphicCapacity := value }
  | .varargsCeiling => { config with varargsCeiling := value }
  | .markBudget => { config with markBudget := value }
  | .allocationThreshold => { config with allocationThreshold := value }

/-- The settings in the order in which they are checked. -/
def all : List Setting :=
  [.polymorphicCapacity, .varargsCeiling, .markBudget, .allocationThreshold]

end Setting

namespace Config

/-- The part of the configuration that the heap needs. -/
def heapSettings (config : Config) : HeapSettings where
  allocationThreshold := config.allocationThreshold
  markBudget := config.markBudget

end Config

/-! ### Errors -/

inductive ConfigError where
  | outOfRange (setting : Setting) (value : Nat)
  /-- A variable of the environment does not read as a number. -/
  | invalidVariable (name value : String)
  /-- A document is not JSON, or not a configuration. -/
  | invalidDocument
deriving DecidableEq, Repr, Inhabited

namespace ConfigError

def message : ConfigError → String
  | .outOfRange setting value =>
    setting.name ++ " must be in " ++ toString setting.least ++ "..=" ++
      toString setting.greatest ++ ", got " ++ toString value
  | .invalidVariable name value =>
    "invalid value for " ++ name ++ ": " ++ Text.quoted value
  | .invalidDocument => "invalid config JSON"

end ConfigError

namespace Setting

def check (setting : Setting) (config : Config) : Except ConfigError Unit :=
  let value := setting.read config
  if setting.least ≤ value ∧ value ≤ setting.greatest then .ok ()
  else .error (.outOfRange setting value)

end Setting

namespace Config

/-- Check the ranges of all settings. The first that is out of range is the error. -/
def check (config : Config) : Except ConfigError Unit :=
  Setting.all.forM fun setting => setting.check config

end Config

end InlineCache
