import InlineCache.Cell
import InlineCache.Text

/-!
# The heap

A heap is a table of slots. A slot is empty or holds the content of one cell. A handle resolves
when its slot is occupied and has the generation of the handle. Empty slots are reused, the one
freed last first.

The heap also carries the state of the collector: the phase, the gray cells that wait to be
scanned, and what the last cycle did.
-/

namespace InlineCache

/-! ### Cell headers

The collector's view of a cell: its colour in the current cycle and the tag of its content. White
cells have not been found yet, gray cells have been found and wait to be scanned, black cells have
been scanned.
-/

inductive Color where
  | white
  | gray
  | black
deriving DecidableEq, Repr, Inhabited

def Color.text : Color → String
  | .white => "White"
  | .gray => "Gray"
  | .black => "Black"

structure Header where
  color : Color
  tag : Nat
deriving DecidableEq, Repr, Inhabited

namespace Header

/-- The header of a fresh cell. -/
def ofTag (tag : Nat) : Header := ⟨.white, tag⟩

/-- Turn a white header gray. The first component says whether it was white. -/
def shade (header : Header) : Bool × Header :=
  match header.color with
  | .white => (true, { header with color := .gray })
  | _ => (false, header)

/-- What storing a reference does to the header of the stored cell: a black owner will not be
scanned again, so its new target is shaded. -/
def insertionBarrier (owner target : Header) : Bool × Header :=
  match owner.color with
  | .black => target.shade
  | _ => (false, target)

def text (header : Header) : String :=
  Text.record "GcHeader" [("mark", header.color.text), ("tag", toString header.tag)]

end Header

/-! ### The barrier buffer

Cells that the write barrier has shaded wait here, in the order in which they were shaded, until the
next marking step takes them all.
-/

structure BarrierBuffer where
  pending : List Cell := []
deriving DecidableEq, Repr, Inhabited

namespace BarrierBuffer

def push (buffer : BarrierBuffer) (cell : Cell) : BarrierBuffer :=
  ⟨buffer.pending ++ [cell]⟩

def size (buffer : BarrierBuffer) : Nat := buffer.pending.length

def isEmpty (buffer : BarrierBuffer) : Bool := buffer.pending.isEmpty

/-- Everything that waits, and the empty buffer that is left. -/
def drain (buffer : BarrierBuffer) : List Cell × BarrierBuffer :=
  (buffer.pending, {})

def text (buffer : BarrierBuffer) : String :=
  Text.record "WriteBarrierBuffer" [("pending", toString buffer.size)]

end BarrierBuffer

/-! ### Slots and handles -/

/-- What the collector needs to know about the content of a cell. -/
class Traceable (α : Type) where
  /-- A small number that tells kinds of content apart. -/
  tag : α → Nat
  /-- The cells that a cell with this content keeps alive, in the order in which they are traced. -/
  children : α → List Cell

structure Slot (α : Type) where
  generation : UInt32
  header : Header
  content : Option α
deriving Repr, Inhabited

inductive Phase where
  | idle
  | marking
deriving DecidableEq, Repr, Inhabited

def Phase.text : Phase → String
  | .idle => "Idle"
  | .marking => "Marking"

/-- When a collection is due, and how many cells one marking step scans. -/
structure HeapSettings where
  allocationThreshold : Nat := 4096
  markBudget : Nat := 64
deriving DecidableEq, Repr, Inhabited

/-- How many collections have finished, and what the last of them did. -/
structure CollectionRecord where
  collections : Nat := 0
  lastMarked : Nat := 0
  lastReclaimed : Nat := 0
deriving DecidableEq, Repr, Inhabited

structure Heap (α : Type) where
  settings : HeapSettings := {}
  slots : List (Slot α) := []
  /-- Indices of the empty slots, the one to reuse next first. -/
  free : List Nat := []
  live : Nat := 0
  allocatedSinceCollection : Nat := 0
  phase : Phase := .idle
  /-- Gray cells in the order in which they will be scanned. -/
  worklist : List Cell := []
  buffer : BarrierBuffer := {}
  /-- How many cells the write barrier has shaded so far. -/
  barrierGrays : Nat := 0
  markedThisCycle : Nat := 0
  record : CollectionRecord := {}
deriving Repr, Inhabited

namespace Heap

variable {α : Type}

def isMarking (heap : Heap α) : Bool := heap.phase == .marking

def isEmpty (heap : Heap α) : Bool := heap.live == 0

/-- The slot that a handle resolves to. -/
def slot? (heap : Heap α) (cell : Cell) : Option (Slot α) :=
  heap.slots[cell.index.toNat]?.filter fun slot =>
    slot.generation == cell.generation && slot.content.isSome

def get? (heap : Heap α) (cell : Cell) : Option α :=
  (heap.slot? cell).bind Slot.content

def contains (heap : Heap α) (cell : Cell) : Bool :=
  (heap.slot? cell).isSome

def header? (heap : Heap α) (cell : Cell) : Option Header :=
  (heap.slot? cell).map Slot.header

/-- Apply a function to the slot of a handle that resolves. -/
def updateSlot (heap : Heap α) (cell : Cell) (change : Slot α → Slot α) : Heap α :=
  match heap.slot? cell with
  | some slot => { heap with slots := heap.slots.set cell.index.toNat (change slot) }
  | none => heap

/-- Apply a function to the content of a cell. No barrier is issued. -/
def update (heap : Heap α) (cell : Cell) (change : α → α) : Heap α :=
  heap.updateSlot cell fun slot => { slot with content := slot.content.map change }

def setColor (heap : Heap α) (cell : Cell) (color : Color) : Heap α :=
  heap.updateSlot cell fun slot => { slot with header := { slot.header with color } }

/-- The occupied slots in index order, each with the handle of its cell. -/
def occupied (heap : Heap α) : List (Cell × Slot α) :=
  heap.slots.zipIdx.filterMap fun (slot, index) =>
    if slot.content.isSome then some (⟨UInt32.ofNat index, slot.generation⟩, slot) else none

/-- A collection is due once enough cells have been allocated and none is running. -/
def shouldCollect (heap : Heap α) : Bool :=
  heap.phase == .idle && heap.settings.allocationThreshold ≤ heap.allocatedSinceCollection

/-- Allocate a cell. A cell allocated while marking is black: it is not scanned in this cycle. -/
def allocate [Traceable α] (heap : Heap α) (content : α) : Cell × Heap α :=
  let header : Header :=
    ⟨if heap.phase = .marking then .black else .white, Traceable.tag content⟩
  let counted := { heap with
    live := heap.live + 1
    allocatedSinceCollection := heap.allocatedSinceCollection + 1 }
  match heap.free with
  | index :: rest =>
    let generation := (heap.slots[index]?.map Slot.generation).getD 0
    (⟨UInt32.ofNat index, generation⟩,
      { counted with
        free := rest
        slots := heap.slots.set index ⟨generation, header, some content⟩ })
  | [] =>
    (⟨UInt32.ofNat heap.slots.length, 0⟩,
      { counted with slots := heap.slots ++ [⟨0, header, some content⟩] })

def text (heap : Heap α) : String :=
  Text.record "Heap"
    [("live", toString heap.live), ("slots", toString heap.slots.length),
     ("phase", heap.phase.text)]

end Heap

end InlineCache
