import InlineCache.Heap.Marking

/-!
# Collections

A collection marks everything reachable from the roots and then sweeps: a cell that is still white
is reclaimed, its slot takes the next generation and is free for reuse. Between the two, the
colours say which cells survive; weak references are visited there.
-/

namespace InlineCache

/-- What a collection did: how many cells it scanned, and which cells it reclaimed. -/
structure CollectionReport where
  marked : Nat
  reclaimed : List Cell
deriving DecidableEq, Repr, Inhabited

/-- The slot after a sweep. -/
def Slot.swept {α : Type} (slot : Slot α) : Slot α :=
  match slot.content, slot.header.color with
  | none, _ => slot
  | some _, .white => { slot with content := none, generation := slot.generation + 1 }
  | some _, _ => { slot with header := { slot.header with color := .white } }

namespace Heap

variable {α : Type}

/-- Once marking is complete, the cells that are not white are those that survive. -/
def isMarked (heap : Heap α) (cell : Cell) : Bool :=
  match heap.header? cell with
  | some header => header.color != .white
  | none => false

/-- The white cells in index order. -/
def garbage (heap : Heap α) : List Cell :=
  heap.occupied.filterMap fun (cell, slot) =>
    if slot.header.color = .white then some cell else none

def sweep (heap : Heap α) : Heap α :=
  let dead := heap.garbage
  { heap with
    slots := heap.slots.map Slot.swept
    free := (dead.map fun cell => cell.index.toNat).reverse ++ heap.free
    live := heap.live - dead.length }

variable [Traceable α]

/-- Bring the marking of a cycle to its end. The roots of the moment are marked as well as those of
the start. -/
def completeMarking (heap : Heap α) (roots : List Cell) : Heap α :=
  match heap.phase with
  | .idle => (heap.startMarking roots).markAll
  | .marking => (heap.shadeAll roots).markAll

/-- Sweep a heap whose marking is complete and end the cycle. -/
def reclaim (heap : Heap α) : CollectionReport × Heap α :=
  let dead := heap.garbage
  (⟨heap.markedThisCycle, dead⟩,
    { heap.sweep with
      record :=
        { collections := heap.record.collections + 1
          lastMarked := heap.markedThisCycle
          lastReclaimed := dead.length }
      allocatedSinceCollection := 0
      phase := .idle })

def collect (heap : Heap α) (roots : List Cell) : CollectionReport × Heap α :=
  (heap.completeMarking roots).reclaim

end Heap

end InlineCache
