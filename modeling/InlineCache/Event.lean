import InlineCache.Link.Basic
import InlineCache.Site.Basic

/-!
# Trace events

What linking and collecting report about themselves.
-/

namespace InlineCache

/-- Why a call site goes virtual. -/
inductive VirtualReason where
  | callableObject
  | cachingDisabled
  | crossRealm
  | stubsDisallowed
  | capacityExceeded
deriving DecidableEq, Repr, Inhabited

def VirtualReason.text : VirtualReason → String
  | .callableObject => "callable object"
  | .cachingDisabled => "call caching disabled"
  | .crossRealm => "cross-realm callee"
  | .stubsDisallowed => "stubs disallowed"
  | .capacityExceeded => "polymorphic capacity exceeded"

inductive Event where
  | transition (origin : Nat) (before after : LinkMode)
  | repatched (label : Nat) (before after : Target)
  | stubBuilt (origin cases : Nat) (stub : StubId) (widened : Bool)
  | wentVirtual (origin : Nat) (reason : VirtualReason)
  | lastCalleeCleared (origin : Nat)
  | calleeUnlinked (origin : Nat)
  | compiled (code : CodeId) (kind : Specialization)
  | replaced (old new : CodeId) (tier : Tier) (upgraded : Nat)
  | jettisoned (code : CodeId)
  | markingStarted (roots cells : Nat)
  | cycleComplete (collection marked reclaimed live : Nat)
  | linksSwept (reclaimed unlinked pruned discarded staleIncoming : Nat)
deriving DecidableEq, Repr, Inhabited

namespace Event

/-- One line of a report: level, source, message, then the fields. -/
def line (level source message : String) (fields : List (String × String)) : String :=
  " ".intercalate ([level, source, message] ++ fields.map fun field => field.1 ++ "=" ++ field.2)

def text : Event → String
  | .transition origin before after =>
    line "DEBUG" "otter::calllink" "call link transition"
      [("origin", toString origin), ("from", before.name), ("to", after.name)]
  | .repatched label before after =>
    line "TRACE" "otter::calllink" "repatch call site"
      [("at", toString label), ("from", before.text), ("to", after.text)]
  | .stubBuilt origin cases stub widened =>
    line "DEBUG" "otter::calllink" "polymorphic stub generated"
      [("origin", toString origin), ("cases", toString cases), ("stub", stub.text),
       ("despecified", toString widened)]
  | .wentVirtual origin reason =>
    line "DEBUG" "otter::calllink" "call site going virtual"
      [("origin", toString origin), ("reason", "\"" ++ reason.text ++ "\"")]
  | .lastCalleeCleared origin =>
    line "TRACE" "otter::calllink" "last seen callee cleared" [("origin", toString origin)]
  | .calleeUnlinked origin =>
    line "TRACE" "otter::calllink" "dead callee unlinked" [("origin", toString origin)]
  | .compiled code kind =>
    line "DEBUG" "otter::calllink" "compiled baseline code"
      [("code_block", toString code.number), ("kind", kind.name)]
  | .replaced old new tier upgraded =>
    line "DEBUG" "otter::calllink" "code replaced"
      [("old", toString old.number), ("new", toString new.number), ("jit_type", tier.text),
       ("upgraded", toString upgraded)]
  | .jettisoned code =>
    line "DEBUG" "otter::calllink" "code jettisoned" [("code_block", toString code.number)]
  | .markingStarted roots cells =>
    line "DEBUG" "otter::gc" "marking started"
      [("roots", toString roots), ("cells", toString cells)]
  | .cycleComplete collection marked reclaimed live =>
    line "INFO" "otter::gc" "GC cycle complete"
      [("collection", toString collection), ("marked", toString marked),
       ("reclaimed", toString reclaimed), ("live", toString live)]
  | .linksSwept reclaimed unlinked pruned discarded staleIncoming =>
    line "INFO" "otter::gc" "call links swept"
      [("reclaimed", toString reclaimed), ("unlinked", toString unlinked),
       ("pruned", toString pruned), ("jettisoned", toString discarded),
       ("stale_incoming", toString staleIncoming)]

end Event

end InlineCache
