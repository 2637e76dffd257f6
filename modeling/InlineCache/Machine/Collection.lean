import InlineCache.Heap.Collection
import InlineCache.Machine.Code

/-!
# Collecting

A safepoint does one bounded piece of collecting. When marking is complete, the link records let go
of the cells that die, the dead cells are swept, and the code that nothing can call any more is
discarded: code whose executable died, and replaced code without an active frame.
-/

namespace InlineCache

namespace Machine

/-- Start marking, and report it. -/
def startMarking (machine : Machine) : Machine :=
  let roots := machine.rootSet
  { machine with heap := machine.heap.startMarking roots }.report
    (.markingStarted roots.length machine.heap.live)

/-- Mark to the end, visit the link records, and sweep. -/
def sweepHeap (machine : Machine) : CollectionReport × Machine :=
  let roots := machine.rootSet
  let started := if machine.heap.isMarking then machine else machine.startMarking
  let marked := started.heap.completeMarking roots
  let (code, effects, stats) := started.code.visitWeak marked.isMarked started.stats
  let (collected, heap) := marked.reclaim
  let visited := { started with code, stats }.perform effects
  (collected, { visited with heap }.report
    (.cycleComplete heap.record.collections collected.marked collected.reclaimed.length heap.live))

/-- Can the block be discarded? -/
def isReclaimable (machine : Machine) (block : Block) : Bool :=
  match machine.heap.executable? block.owner with
  | some executable =>
    executable.code block.kind != some block.id && !machine.running.contains block.id
  | none => true

/-- What is wrong with a link record: a dead cell, or a slot that goes to missing code. -/
def linkFault? (machine : Machine) (link : Link) : Option MachineError :=
  match link.dependents.find? fun cell => !machine.heap.contains cell with
  | some cell => some (.deadCell cell)
  | none =>
    match link.site.target.pointers.find? fun pointer => !machine.code.contains pointer.block with
    | some pointer => some (.danglingPointer pointer.block)
    | none => none

/-- The first fault of a link record, block by block. -/
def fault? (machine : Machine) : Option MachineError :=
  (machine.code.blocks.flatMap Block.links).findSome? machine.linkFault?

/-- Check that all links are sound. -/
def verifyLinks (machine : Machine) : Except MachineError Unit :=
  match machine.fault? with
  | some error => .error error
  | none => .ok ()

end Machine

namespace MachineM

/-- Finish the running collection, or do a whole one. -/
def collect : MachineM CollectionReport := do
  let before := (← get).stats
  let collected ← modifyGet Machine.sweepHeap
  let swept ← get
  let dead := (swept.code.blocks.filter swept.isReclaimable).map Block.id
  dead.forM jettisonCode
  modify fun machine =>
    let (stale, code) := machine.code.pruneIncoming
    { machine with code }.report (.linksSwept collected.reclaimed.length
      (machine.stats.collectorUnlinks - before.collectorUnlinks)
      (machine.stats.collectorPrunes - before.collectorPrunes) dead.length stale)
  look Machine.verifyLinks
  pure collected

/-- A point where the collector may run. -/
def safepoint : MachineM Unit := do
  let machine ← get
  if machine.heap.isMarking then
    let (done, heap) := machine.heap.markStep machine.config.markBudget
    set { machine with heap }
    if done then discard collect
  else if machine.heap.shouldCollect then
    set machine.startMarking

end MachineM

end InlineCache
