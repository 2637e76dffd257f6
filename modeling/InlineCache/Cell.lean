import InlineCache.Text

/-!
# Cells and values

A cell is named by the index of its slot and the generation that the slot had when the cell was
allocated. A slot takes a new generation whenever its cell is reclaimed, so a handle to the old cell
does not name the next one in the same slot.
-/

namespace InlineCache

structure Cell where
  index : UInt32
  generation : UInt32
deriving DecidableEq, Repr, Inhabited

namespace Cell

/-- One word for a handle: the generation in the upper half, the index in the lower. -/
def toBits (cell : Cell) : UInt64 :=
  (cell.generation.toUInt64 <<< 32) ||| cell.index.toUInt64

def ofBits (bits : UInt64) : Cell :=
  ⟨bits.toUInt32, (bits >>> 32).toUInt32⟩

/-- Handles are ordered by index, and by generation within one slot. -/
def le (a b : Cell) : Bool :=
  a.index < b.index || (a.index == b.index && a.generation ≤ b.generation)

/-- The distinct handles of a list in increasing order. -/
def sortDistinct (cells : List Cell) : List Cell :=
  (cells.mergeSort le).eraseDups

/-- The short name of a handle: index and generation. -/
def name (cell : Cell) : String :=
  toString cell.index.toNat ++ "v" ++ toString cell.generation.toNat

def text (cell : Cell) : String :=
  Text.wrapped "CellId" cell.name

end Cell

/-! ### Values -/

/-- What programs compute with: nothing, a 64-bit integer, or a cell. -/
inductive Value where
  | undefined
  | int (n : Int64)
  | cell (cell : Cell)
deriving DecidableEq, Repr, Inhabited

namespace Value

def cell? : Value → Option Cell
  | .cell found => some found
  | _ => none

/-- The integer that a value stands for in a sum. -/
def toInt : Value → Int64
  | .int n => n
  | _ => 0

def text : Value → String
  | .undefined => "Undefined"
  | .int n => Text.wrapped "Int" (toString n.toInt)
  | .cell found => Text.wrapped "Cell" found.text

end Value

/-- A realm is a world of globals; functions of different realms are never cached together. -/
structure Realm where
  number : Nat := 0
deriving DecidableEq, Repr, Inhabited

end InlineCache
