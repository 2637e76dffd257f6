import InlineCache.Heap.Basic

/-!
# Plain nodes

The plainest content of a cell: a tag and a list of strong references.
-/

namespace InlineCache

structure Node where
  tag : Nat
  children : List Cell
deriving DecidableEq, Repr, Inhabited

instance : Traceable Node where
  tag := Node.tag
  children := Node.children

namespace Heap

/-- Append a child to a node. No barrier is issued. -/
def pushChild (heap : Heap Node) (cell child : Cell) : Heap Node :=
  heap.update cell fun node => { node with children := node.children ++ [child] }

/-- Remove the last child of a node, and say which it was. -/
def popChild (heap : Heap Node) (cell : Cell) : Option Cell × Heap Node :=
  ((heap.get? cell).bind fun node => node.children.getLast?,
    heap.update cell fun node => { node with children := node.children.dropLast })

end Heap

end InlineCache
