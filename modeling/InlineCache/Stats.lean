/-!
# Counters and statistics

Counters are natural numbers below a limit. Adding past the limit leaves the counter at the limit,
so a counter never wraps to a small value. The statistics of a machine are such counters.
-/

namespace InlineCache

/-- The largest 32-bit word. -/
def word32Max : Nat := 4294967295

/-- The largest 64-bit word. -/
def word64Max : Nat := 18446744073709551615

/-- Add `amount` to a counter that stops at `limit`. -/
def addUpTo (limit counter amount : Nat) : Nat :=
  min (counter + amount) limit

/-- Count one more on a 32-bit counter. -/
def tick32 (counter : Nat) : Nat :=
  addUpTo word32Max counter 1

/-- Count one more on a 64-bit counter. -/
def tick64 (counter : Nat) : Nat :=
  addUpTo word64Max counter 1

/-! ### Statistics -/

/-- What has happened so far. Each counter stops at the largest 64-bit word. -/
structure Stats where
  slowPathCalls : Nat := 0
  monomorphicLinks : Nat := 0
  polymorphicLinks : Nat := 0
  stubRegenerations : Nat := 0
  virtualTransitions : Nat := 0
  virtualCalls : Nat := 0
  fastPathHits : Nat := 0
  /-- Links taken away because a cell of them died. -/
  collectorUnlinks : Nat := 0
  /-- Stub cases dropped because a cell of them died. -/
  collectorPrunes : Nat := 0
  upgrades : Nat := 0
  jettisonUnlinks : Nat := 0
  typeErrors : Nat := 0
deriving DecidableEq, Repr, Inhabited

namespace Stats

/-- The counters with their names in reports. -/
def entries (stats : Stats) : List (String × Nat) :=
  [("slow_path_calls", stats.slowPathCalls),
   ("monomorphic_links", stats.monomorphicLinks),
   ("polymorphic_links", stats.polymorphicLinks),
   ("stub_regenerations", stats.stubRegenerations),
   ("virtual_transitions", stats.virtualTransitions),
   ("virtual_calls", stats.virtualCalls),
   ("fast_path_hits", stats.fastPathHits),
   ("gc_unlinks", stats.collectorUnlinks),
   ("gc_case_prunes", stats.collectorPrunes),
   ("upgrades", stats.upgrades),
   ("jettison_unlinks", stats.jettisonUnlinks),
   ("type_errors", stats.typeErrors)]

/-- The statistics whose counters are given by name. -/
def ofEntries (count : String → Nat) : Stats where
  slowPathCalls := count "slow_path_calls"
  monomorphicLinks := count "monomorphic_links"
  polymorphicLinks := count "polymorphic_links"
  stubRegenerations := count "stub_regenerations"
  virtualTransitions := count "virtual_transitions"
  virtualCalls := count "virtual_calls"
  fastPathHits := count "fast_path_hits"
  collectorUnlinks := count "gc_unlinks"
  collectorPrunes := count "gc_case_prunes"
  upgrades := count "upgrades"
  jettisonUnlinks := count "jettison_unlinks"
  typeErrors := count "type_errors"

/-- The counters as a JSON object without blanks. -/
def document (stats : Stats) : String :=
  "\x7b" ++ ",".intercalate
    (stats.entries.map fun entry => "\"" ++ entry.1 ++ "\":" ++ toString entry.2) ++ "\x7d"

end Stats

end InlineCache
