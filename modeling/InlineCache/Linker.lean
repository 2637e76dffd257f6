import InlineCache.Entity
import InlineCache.Heap.Marking
import InlineCache.Link.Edit
import InlineCache.Stats

/-!
# Linking a call

A call that took the slow path links its site. A fresh site becomes monomorphic. A second callee
turns it polymorphic, with a stub that grows with each new callee. When the stub would outgrow the
capacity, or stubs are not allowed, the site goes virtual. A direct site is linked once, to the
executable.
-/

namespace InlineCache

/-- A callee that can be entered. -/
structure Resolved where
  callee : Cell
  executable : Cell
  target : CodePointer
  parameters : Nat
deriving DecidableEq, Repr, Inhabited

/-- What linking did to the site. -/
inductive LinkOutcome where
  /-- The site now goes to these blocks. -/
  | linked (targets : List CodeId)
  | virtualized
  | unchanged
deriving DecidableEq, Repr, Inhabited

/-- The state that linking works on: the record of the site, the statistics, the number of the stub
asked for last, and the effects so far. -/
structure Linker where
  link : Link
  stats : Stats
  lastStub : StubId
  effects : List Effect := []
deriving DecidableEq, Repr, Inhabited

namespace Linker

def apply (linker : Linker) (edit : Edit) : Linker :=
  { linker with link := edit.link, effects := linker.effects ++ edit.effects }

def report (linker : Linker) (event : Event) : Linker :=
  { linker with effects := linker.effects ++ [.report event] }

/-- Give up caching at the site. -/
def goVirtual (linker : Linker) (reason : VirtualReason) : Linker :=
  if linker.link.mode = .virtual then linker
  else
    let reported := linker.report (.wentVirtual linker.link.origin reason)
    let gone := reported.apply linker.link.setVirtual
    { gone with stats :=
        { gone.stats with virtualTransitions := tick64 gone.stats.virtualTransitions } }

/-- The cases that a stub at this site starts from. A monomorphic link gives one case, if its callee
is still a closure. -/
def existingCases (heap : Heap Entity) (link : Link) : List Case :=
  match link.state with
  | .monomorphic callee target =>
    match callee.get? heap.contains with
    | some cell =>
      match heap.executableOf? cell with
      | some executable => [{ variant := .function cell executable, target }]
      | none => []
    | none => []
  | .polymorphic stub => stub.cases
  | _ => []

/-- Grow a stub for the site. -/
def linkPolymorphic (linker : Linker) (heap : Heap Entity) (owner : Cell) (capacity : Nat)
    (callee : Resolved) : Except LinkError LinkOutcome × Linker :=
  if !linker.link.stubsAllowed then (.ok .virtualized, linker.goVirtual .stubsDisallowed)
  else
    let id := linker.lastStub.next
    let numbered := { linker with lastStub := id }
    match Stub.grow id (existingCases heap linker.link) (.function callee.callee callee.executable)
        callee.target capacity with
    | .overflow => (.ok .virtualized, numbered.goVirtual .capacityExceeded)
    | .built stub widened =>
      let stats := if linker.link.mode = .monomorphic
        then { linker.stats with polymorphicLinks := tick64 linker.stats.polymorphicLinks }
        else { linker.stats with stubRegenerations := tick64 linker.stats.stubRegenerations }
      let built := { numbered with stats }.report
        (.stubBuilt linker.link.origin stub.size id widened)
      match linker.link.setStub owner stub with
      | .ok edit =>
        (.ok (.linked (stub.cases.map fun case => case.target.block)), built.apply edit)
      | .error error => (.error error, built)

/-- Link a direct site to the executable. -/
def linkDirect (linker : Linker) (owner : Cell) (callee : Resolved) :
    Except LinkError LinkOutcome × Linker :=
  if linker.link.mode ≠ .init then (.ok .unchanged, linker)
  else
    match linker.link.setDirect owner callee.executable callee.target with
    | .ok edit =>
      let arity := addUpTo word32Max callee.parameters 1
      (.ok (.linked [callee.target.block]),
        linker.apply { edit with link := edit.link.setArity arity })
    | .error error => (.error error, linker)

/-- Link the site of a call that took the slow path. -/
def linkCall (linker : Linker) (heap : Heap Entity) (owner : Cell) (capacity : Nat)
    (callee : Resolved) : Except LinkError LinkOutcome × Linker :=
  if linker.link.isDirect then linker.linkDirect owner callee
  else
    match linker.link.mode with
    | .init =>
      match linker.link.setMonomorphic owner callee.callee callee.target with
      | .ok edit =>
        let linked := linker.apply edit
        (.ok (.linked [callee.target.block]),
          { linked with stats :=
              { linked.stats with monomorphicLinks := tick64 linked.stats.monomorphicLinks } })
      | .error error => (.error error, linker)
    | .monomorphic => linker.linkPolymorphic heap owner capacity callee
    | .polymorphic => linker.linkPolymorphic heap owner capacity callee
    | .virtual => (.ok .unchanged, linker)
    | .linkedDirect => (.ok .unchanged, linker)

end Linker

/-- Issue the write barriers among the effects of a change. -/
def Heap.issueBarriers {α : Type} (heap : Heap α) (effects : List Effect) : Heap α :=
  (effects.filterMap Effect.barrier?).foldl (fun heap (owner, target) =>
    heap.writeBarrier owner target) heap

end InlineCache
