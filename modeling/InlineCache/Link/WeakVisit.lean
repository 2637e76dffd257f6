import InlineCache.Link.Edit

/-!
# When the cells behind a link die

Between marking and sweeping, every link record is visited. It forgets the last callee if that is
dead, and loses the link, or the stub cases, that refer to a dead cell.
-/

namespace InlineCache

/-- What the collector's visit did to a link. -/
inductive WeakOutcome where
  | unchanged
  | unlinked
  | pruned (count : Nat)
deriving DecidableEq, Repr, Inhabited

namespace Link

/-- Forget the last callee if it is dead. -/
def forgetDeadCallee (link : Link) (isLive : Cell → Bool) : Edit :=
  match link.lastCallee.visit isLive with
  | (true, cleared) =>
    { link := { link with lastCallee := cleared }
      effects := [.report (.lastCalleeCleared link.origin)] }
  | (false, _) => { link }

/-- Take the link away because a cell of it died. -/
def unlinkDead (link : Link) : WeakOutcome × Edit :=
  let gone := link.unlink
  (.unlinked, { gone with link := { gone.link with clearedByCollector := true } })

/-- Visit the cells of the link state. -/
def visitState (link : Link) (isLive : Cell → Bool) : WeakOutcome × Edit :=
  match link.state with
  | .monomorphic callee target =>
    match callee.visit isLive with
    | (true, cleared) => { link with state := .monomorphic cleared target }.unlinkDead
    | (false, _) => (.unchanged, { link })
  | .direct executable target =>
    match executable.visit isLive with
    | (true, cleared) => { link with state := .direct cleared target }.unlinkDead
    | (false, _) => (.unchanged, { link })
  | .polymorphic stub =>
    if stub.cases.all fun case => case.variant.isLive isLive then (.unchanged, { link })
    else
      let rest := stub.pruned isLive
      if rest.cases.isEmpty then link.unlinkDead
      else
        (.pruned (stub.size - rest.size),
          { link with state := .polymorphic rest }.repatch (.stub rest))
  | .unlinked => (.unchanged, { link })
  | .virtual => (.unchanged, { link })

def visitWeak (link : Link) (isLive : Cell → Bool) : WeakOutcome × Edit :=
  let forgotten := link.forgetDeadCallee isLive
  let (outcome, visited) := forgotten.link.visitState isLive
  (outcome, { visited with effects := forgotten.effects ++ visited.effects })

end Link

end InlineCache
