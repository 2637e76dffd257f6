import InlineCache.Cell

/-!
# Weak references

A weak reference names a cell without keeping it alive. It is read through a liveness predicate, and
a collection clears it when its target did not survive.
-/

namespace InlineCache

structure WeakRef where
  target : Option Cell
deriving DecidableEq, Repr, Inhabited

namespace WeakRef

def empty : WeakRef := ⟨none⟩

def ofCell (cell : Cell) : WeakRef := ⟨some cell⟩

def isSet (ref : WeakRef) : Bool := ref.target.isSome

/-- The target, if it is live. -/
def get? (ref : WeakRef) (isLive : Cell → Bool) : Option Cell :=
  ref.target.filter isLive

/-- Clear the reference if its target is dead. The first component says whether it was cleared. -/
def visit (ref : WeakRef) (isLive : Cell → Bool) : Bool × WeakRef :=
  match ref.target with
  | some cell => if isLive cell then (false, ref) else (true, empty)
  | none => (false, ref)

def text (ref : WeakRef) : String :=
  Text.wrapped "WeakCell" (match ref.target with
    | some cell => cell.text
    | none => "empty")

end WeakRef

end InlineCache
