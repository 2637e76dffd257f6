import InlineCache.Link.Edit

/-!
# When the code behind a link goes away

The code of a block is replaced or discarded. A link that goes there is sent to the new code, or
loses what went to the old code.
-/

namespace InlineCache

/-- What became of a link when a block was replaced or discarded. -/
inductive Retargeting where
  | unaffected
  | upgraded
  | unlinked
  | casesDropped (count : Nat)
deriving DecidableEq, Repr, Inhabited

namespace Link

/-- Send a link from the block `old` to the pointer `new`, or away from it if there is none. -/
def retarget (link : Link) (old : CodeId) (new : Option CodePointer) : Retargeting × Edit :=
  if !link.targets old then (.unaffected, { link })
  else
    match link.state, new with
    | .monomorphic callee _, some target =>
      let moved := { link with state := .monomorphic callee target }
      (.upgraded, match callee.target with
        | some expected => moved.repatch (.guarded expected target)
        | none => { link := moved })
    | .direct executable _, some target =>
      (.upgraded, { link with state := .direct executable target }.repatch (.direct target))
    | .polymorphic stub, some target =>
      let moved := stub.retargeted old target
      (.upgraded, { link with state := .polymorphic moved }.repatch (.stub moved))
    | .polymorphic stub, none =>
      let rest := stub.withoutTarget old
      if rest.cases.isEmpty then (.unlinked, link.unlink)
      else
        (.casesDropped (stub.size - rest.size),
          { link with state := .polymorphic rest }.repatch (.stub rest))
    | .monomorphic _ _, none => (.unlinked, link.unlink)
    | .direct _ _, none => (.unlinked, link.unlink)
    | .unlinked, _ => (.unaffected, { link })
    | .virtual, _ => (.unaffected, { link })

end Link

end InlineCache
