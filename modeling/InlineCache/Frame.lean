import InlineCache.Call.Kind
import InlineCache.Cell
import InlineCache.Code.Pointer

/-!
# Call frames

A native entry runs with a frame. How many active frames each block has is counted; a block without
active frames has no entry in the count.
-/

namespace InlineCache

/-- What a native entry is given: the block it runs for, the callee, the receiver and the arguments
of the call. -/
structure Frame where
  block : CodeId
  callee : Cell
  receiver : Value
  arguments : List Value
  kind : Specialization
deriving DecidableEq, Repr, Inhabited

namespace Frame

/-- An argument that was not given is undefined. -/
def argument (frame : Frame) (index : Nat) : Value :=
  frame.arguments[index]?.getD .undefined

/-- The number of arguments, with the receiver. -/
def argumentCount (frame : Frame) : Nat := frame.arguments.length + 1

def isConstruct (frame : Frame) : Bool := frame.kind == .construct

/-- The cells that a frame keeps alive. -/
def cells (frame : Frame) : List Cell :=
  frame.callee :: (frame.receiver :: frame.arguments).filterMap Value.cell?

def text (frame : Frame) : String :=
  Text.record "CallFrame"
    [("code_block", frame.block.text), ("callee", frame.callee.text),
     ("this", frame.receiver.text), ("arguments", Text.list (frame.arguments.map Value.text)),
     ("kind", frame.kind.text)]

end Frame

/-! ### Running frames -/

structure RunningFrames where
  counts : List (CodeId × Nat) := []
deriving DecidableEq, Repr, Inhabited

namespace RunningFrames

def count (running : RunningFrames) (code : CodeId) : Nat :=
  (running.counts.lookup code).getD 0

def contains (running : RunningFrames) (code : CodeId) : Bool :=
  (running.counts.lookup code).isSome

/-- The number of blocks that are running. -/
def size (running : RunningFrames) : Nat := running.counts.length

/-- A frame of the block becomes active. -/
def enter (running : RunningFrames) (code : CodeId) : RunningFrames :=
  ⟨go running.counts⟩
where
  go : List (CodeId × Nat) → List (CodeId × Nat)
    | [] => [(code, 1)]
    | (id, frames) :: rest =>
      if id = code then (id, frames + 1) :: rest else (id, frames) :: go rest

/-- A frame of the block returns. -/
def leave (running : RunningFrames) (code : CodeId) : RunningFrames :=
  ⟨go running.counts⟩
where
  go : List (CodeId × Nat) → List (CodeId × Nat)
    | [] => []
    | (id, frames) :: rest =>
      if id = code then
        if frames ≤ 1 then rest else (id, frames - 1) :: rest
      else (id, frames) :: go rest

end RunningFrames

end InlineCache
