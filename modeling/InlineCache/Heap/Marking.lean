import InlineCache.Heap.Basic
import InlineCache.Stats

/-!
# Marking

Marking finds the cells that are reachable from the roots. It runs in steps between which the heap
may change. A store into a black cell would hide its target from the marker, so the store is
followed by a write barrier, which shades the target.

The worklist and the barrier buffer together hold the gray cells. A step scans cells from the front
of the worklist: the children that are still white turn gray and join the back, and the scanned
cell turns black.
-/

namespace InlineCache.Heap

variable {α : Type}

/-- Shade a cell that resolves. A cell that was white joins the worklist. -/
def shade (heap : Heap α) (cell : Cell) : Heap α :=
  match heap.header? cell with
  | some header =>
    match header.shade with
    | (true, gray) =>
      { heap.setColor cell gray.color with worklist := heap.worklist ++ [cell] }
    | (false, _) => heap
  | none => heap

def shadeAll (heap : Heap α) (cells : List Cell) : Heap α :=
  cells.foldl shade heap

/-- Tell the marker that `owner` now refers to `target`. -/
def writeBarrier (heap : Heap α) (owner target : Cell) : Heap α :=
  match heap.phase with
  | .idle => heap
  | .marking =>
    match heap.header? owner, heap.header? target with
    | some ownerHeader, some targetHeader =>
      match ownerHeader.insertionBarrier targetHeader with
      | (true, shaded) =>
        { heap.setColor target shaded.color with
          buffer := heap.buffer.push target
          barrierGrays := tick64 heap.barrierGrays }
      | (false, _) => heap
    | _, _ => heap

/-- All cells are white before a cycle. -/
def whiten (heap : Heap α) : Heap α :=
  { heap with slots := heap.slots.map fun slot =>
      if slot.content.isSome then { slot with header := { slot.header with color := .white } }
      else slot }

/-- Start a cycle from the given roots. A cycle that is running goes on as it is. -/
def startMarking (heap : Heap α) (roots : List Cell) : Heap α :=
  match heap.phase with
  | .marking => heap
  | .idle =>
    let fresh := { heap.whiten with worklist := [], buffer := {}, markedThisCycle := 0 }
    { fresh.shadeAll roots with phase := .marking }

/-- An entry of the worklist is scanned if it still resolves and is not black. -/
def isPending (heap : Heap α) (cell : Cell) : Bool :=
  match heap.header? cell with
  | some header => header.color != .black
  | none => false

variable [Traceable α]

/-- Scan one cell: shade its children, then blacken it. -/
def scan (heap : Heap α) (cell : Cell) : Heap α :=
  let children := (heap.get? cell).elim [] Traceable.children
  let shaded := (heap.shadeAll children).setColor cell .black
  { shaded with markedThisCycle := shaded.markedThisCycle + 1 }

/-- Scan up to `budget` cells. Entries that need no scan are dropped on the way and cost nothing. -/
def scanUpTo : Nat → Heap α → Heap α
  | 0, heap => heap
  | budget + 1, heap =>
    match heap.worklist.dropWhile fun cell => !heap.isPending cell with
    | [] => { heap with worklist := [] }
    | cell :: rest => scanUpTo budget ({ heap with worklist := rest }.scan cell)

/-- Move the cells that the write barrier has shaded to the back of the worklist. -/
def takeBuffer (heap : Heap α) : Heap α :=
  let (cells, buffer) := heap.buffer.drain
  { heap with worklist := heap.worklist ++ cells, buffer }

/-- One marking step. The first component says whether nothing is left to scan. -/
def markStep (heap : Heap α) (budget : Nat) : Bool × Heap α :=
  match heap.phase with
  | .idle => (true, heap)
  | .marking =>
    let scanned := scanUpTo budget heap.takeBuffer
    (scanned.worklist.isEmpty && scanned.buffer.isEmpty, scanned)

/-- The number of cells that are not black. -/
def pendingCount (heap : Heap α) : Nat :=
  heap.occupied.countP fun (_, slot) => slot.header.color != .black

/-- Mark until nothing is left to scan. A step that leaves work behind has blackened a cell, so one
more step than there are cells that are not black is enough. -/
def markAll (heap : Heap α) : Heap α :=
  go heap.pendingCount heap
where
  go : Nat → Heap α → Heap α
    | 0, heap => (heap.markStep word64Max).2
    | rounds + 1, heap =>
      match heap.markStep word64Max with
      | (true, done) => done
      | (false, more) => go rounds more

end InlineCache.Heap
