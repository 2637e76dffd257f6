import InlineCache.Text

/-!
# Code identities

A block of compiled code has a number that is never used again. A code pointer is the number of a
block together with the native entry where its code starts.
-/

namespace InlineCache

structure CodeId where
  number : Nat
deriving DecidableEq, Repr, Inhabited

namespace CodeId

/-- The code that runs without a block: the host, and the handlers of callable objects. -/
def host : CodeId := ⟨0⟩

def text (id : CodeId) : String :=
  Text.wrapped "CodeBlockId" (toString id.number)

end CodeId

/-- A native entry point, known by its number. -/
structure Entry where
  number : Nat
deriving DecidableEq, Repr, Inhabited

structure CodePointer where
  block : CodeId
  entry : Entry
deriving DecidableEq, Repr, Inhabited

namespace CodePointer

/-- Two pointers into one block point at the same code. -/
def sameCode (a b : CodePointer) : Bool := a.block == b.block

def text (pointer : CodePointer) : String :=
  Text.wrapped "CodePtr" (toString pointer.block.number)

end CodePointer

inductive Tier where
  | baseline
  | optimized
deriving DecidableEq, Repr, Inhabited

def Tier.text : Tier → String
  | .baseline => "Baseline"
  | .optimized => "Optimized"

end InlineCache
