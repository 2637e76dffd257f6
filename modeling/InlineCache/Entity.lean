import InlineCache.Call.Kind
import InlineCache.Cell
import InlineCache.Code.Pointer
import InlineCache.Heap.Basic

/-!
# What cells hold

Cells hold executables, closures and objects. An executable is the shared part of all closures made
from one piece of source, and owns the code compiled for it. An object may have a handler that makes
it callable.
-/

namespace InlineCache

structure Executable where
  name : String
  entry : Entry
  parameters : Nat := 0
  constructible : Bool := true
  cachesCalls : Bool := true
  sites : List SiteDescriptor := []
  /-- The current code for calls. -/
  callCode : Option CodeId := none
  /-- The current code for constructor calls. -/
  constructCode : Option CodeId := none
deriving DecidableEq, Repr, Inhabited

namespace Executable

/-- The current code for a specialization. -/
def code (executable : Executable) : Specialization → Option CodeId
  | .call => executable.callCode
  | .construct => executable.constructCode

def setCode (executable : Executable) (kind : Specialization) (code : Option CodeId) : Executable :=
  match kind with
  | .call => { executable with callCode := code }
  | .construct => { executable with constructCode := code }

end Executable

structure Closure where
  executable : Cell
  realm : Realm := {}
  captures : List Value := []
deriving DecidableEq, Repr, Inhabited

inductive Entity where
  | function (closure : Closure)
  | executable (executable : Executable)
  | object (handler : Option Entry)
deriving DecidableEq, Repr, Inhabited

namespace Entity

def kindName : Entity → String
  | .function _ => "function"
  | .executable _ => "executable"
  | .object _ => "object"

def tag : Entity → Nat
  | .function _ => 1
  | .executable _ => 2
  | .object _ => 3

/-- The kind and the tag of what a cell holds. -/
def label (entity : Entity) : String := entity.kindName ++ "/" ++ toString entity.tag

/-- A closure keeps its executable and its captured cells alive. -/
def children : Entity → List Cell
  | .function closure => closure.executable :: closure.captures.filterMap Value.cell?
  | _ => []

end Entity

instance : Traceable Entity where
  tag := Entity.tag
  children := Entity.children

namespace Heap

def closure? (heap : Heap Entity) (cell : Cell) : Option Closure :=
  match heap.get? cell with
  | some (.function closure) => some closure
  | _ => none

def executable? (heap : Heap Entity) (cell : Cell) : Option Executable :=
  match heap.get? cell with
  | some (.executable executable) => some executable
  | _ => none

/-- The executable of a closure. -/
def executableOf? (heap : Heap Entity) (cell : Cell) : Option Cell :=
  (heap.closure? cell).map Closure.executable

/-- Set the current code of an executable. -/
def setCode (heap : Heap Entity) (cell : Cell) (kind : Specialization) (code : Option CodeId) :
    Heap Entity :=
  heap.update cell fun entity =>
    match entity with
    | .executable executable => .executable (executable.setCode kind code)
    | other => other

end Heap

end InlineCache
