import InlineCache.Event
import InlineCache.Link.Basic

/-!
# Linking and unlinking a site

Every change of a link goes through the link state and the dispatch slot together. A change leaves
a new record and a list of effects on its surroundings, in order: the write barriers for the cells
that the link now refers to, and the events it reports.
-/

namespace InlineCache

/-- What a change of a link asks of its surroundings. -/
inductive Effect where
  | barrier (owner target : Cell)
  | report (event : Event)
deriving DecidableEq, Repr, Inhabited

namespace Effect

def barrier? : Effect → Option (Cell × Cell)
  | .barrier owner target => some (owner, target)
  | .report _ => none

def event? : Effect → Option Event
  | .barrier _ _ => none
  | .report event => some event

end Effect

/-- A changed link record and the effects of the change. -/
structure Edit where
  link : Link
  effects : List Effect := []
deriving DecidableEq, Repr, Inhabited

/-- The operations on a link that can be refused. -/
inductive LinkOperation where
  | setMonomorphic
  | setStub
  | setStubDisallowed
  | setDirect
deriving DecidableEq, Repr, Inhabited

def LinkOperation.text : LinkOperation → String
  | .setMonomorphic => "set monomorphic callee"
  | .setStub => "set stub"
  | .setStubDisallowed => "set stub with stubs disallowed"
  | .setDirect => "set direct call"

/-- An operation that the mode of the link does not allow. -/
structure LinkError where
  operation : LinkOperation
  mode : LinkMode
deriving DecidableEq, Repr, Inhabited

def LinkError.message (error : LinkError) : String :=
  "cannot " ++ error.operation.text ++ " while call link is " ++ error.mode.name

namespace Link

/-- Patch the dispatch slot. -/
def repatch (link : Link) (target : Target) : Edit where
  link := { link with site := link.site.repatch target }
  effects := [.report (.repatched link.site.locations.fastPath link.site.target target)]

/-- Move to another link state. -/
def transition (link : Link) (state : LinkState) (target : Target) : Edit :=
  let patched := { link with state }.repatch target
  { patched with
    effects := .report (.transition link.origin link.mode state.mode) :: patched.effects }

def setMonomorphic (link : Link) (owner callee : Cell) (target : CodePointer) :
    Except LinkError Edit :=
  if link.mode ≠ .init ∨ link.isDirect then
    .error ⟨.setMonomorphic, link.mode⟩
  else
    let moved := link.transition (.monomorphic (.ofCell callee) target) (.guarded callee target)
    .ok
      { link := { moved.link with clearedByCollector := false }
        effects := moved.effects ++ [.barrier owner callee] }

def setStub (link : Link) (owner : Cell) (stub : Stub) : Except LinkError Edit :=
  if link.mode ≠ .monomorphic ∧ link.mode ≠ .polymorphic then
    .error ⟨.setStub, link.mode⟩
  else if !link.stubsAllowed then
    .error ⟨.setStubDisallowed, link.mode⟩
  else
    let widened := link.seenClosure || stub.cases.any fun case => case.variant.isClosure
    let moved := { link with seenClosure := widened }.transition (.polymorphic stub) (.stub stub)
    .ok
      { moved with
        effects := stub.dependents.map (Effect.barrier owner) ++ moved.effects }

/-- A site that has gone virtual stays virtual. -/
def setVirtual (link : Link) : Edit :=
  if link.mode = .virtual then { link }
  else
    let moved := link.transition .virtual .virtual
    { moved with link := { moved.link with wentVirtual := true } }

def setDirect (link : Link) (owner executable : Cell) (target : CodePointer) :
    Except LinkError Edit :=
  if !link.isDirect ∨ link.mode ≠ .init then
    .error ⟨.setDirect, link.mode⟩
  else
    let moved := link.transition (.direct (.ofCell executable) target) (.direct target)
    .ok
      { link := { moved.link with clearedByCollector := false }
        effects := moved.effects ++ [.barrier owner executable] }

/-- Forbid stubs at the site. A site that has one goes virtual. -/
def disallowStubs (link : Link) : Edit :=
  let barred := { link with stubsAllowed := false }
  if barred.mode = .polymorphic then barred.setVirtual else { link := barred }

/-- Take the link away. -/
def unlink (link : Link) : Edit :=
  match link.state with
  | .unlinked =>
    if link.site.target.isSlowPath then { link } else link.repatch .slowPath
  | _ => link.transition .unlinked .slowPath

/-- Take the link away from a site that has one. -/
def revert (link : Link) : Edit :=
  match link.mode with
  | .init | .virtual => { link }
  | .monomorphic | .polymorphic | .linkedDirect => link.unlink

end Link

end InlineCache
