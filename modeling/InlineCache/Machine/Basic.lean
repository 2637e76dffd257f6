import InlineCache.Code.Table
import InlineCache.Config.Basic
import InlineCache.Error
import InlineCache.Frame
import InlineCache.Linker

/-!
# The machine

A machine holds the heap, the compiled code and what keeps cells alive: the registered roots and the
stack of cells that the calls in progress use. Its operations either answer or fail, and leave a
machine in both cases.
-/

namespace InlineCache

structure Machine where
  config : Config
  heap : Heap Entity
  code : CodeTable := {}
  stats : Stats := {}
  /-- The number of the stub asked for last. -/
  lastStub : StubId := ⟨0⟩
  /-- Cells that the host keeps alive. -/
  roots : List Cell := []
  /-- Cells that the calls in progress keep alive, the outermost call first. -/
  stackRoots : List Cell := []
  running : RunningFrames := {}
  /-- What has been reported, the latest first. -/
  events : List Event := []
deriving Repr, Inhabited

/-- An operation of the machine. -/
abbrev MachineM := ExceptT MachineError (StateM Machine)

/-- Run an operation. -/
def MachineM.exec {α : Type} (operation : MachineM α) (machine : Machine) :
    Except MachineError α × Machine :=
  StateT.run (ExceptT.run operation) machine

namespace Machine

/-- A new machine for a configuration whose settings are in range. -/
def create (config : Config) : Except ConfigError Machine := do
  config.check
  pure { config, heap := { settings := config.heapSettings } }

def report (machine : Machine) (event : Event) : Machine :=
  { machine with events := event :: machine.events }

/-- Carry out the effects of a change of links. -/
def perform (machine : Machine) (effects : List Effect) : Machine :=
  { machine with
    heap := machine.heap.issueBarriers effects
    events := (effects.filterMap Effect.event?).reverse ++ machine.events }

/-- Replace the record of a site by a changed one. -/
def editLink (machine : Machine) (site : SiteRef) (edit : Edit) : Machine :=
  { machine with code := machine.code.setLink site edit.link }.perform edit.effects

/-- Everything that is alive without being referred to. -/
def rootSet (machine : Machine) : List Cell := machine.roots ++ machine.stackRoots

def addRoot (machine : Machine) (cell : Cell) : Machine :=
  { machine with roots := machine.roots ++ [cell] }

/-- Take out the last registration of a root. The last root of the list takes its place. -/
def removeRoot (machine : Machine) (cell : Cell) : Machine :=
  match machine.roots.reverse.idxOf? cell, machine.roots.getLast? with
  | some fromEnd, some last =>
    let place := machine.roots.length - 1 - fromEnd
    { machine with roots := (machine.roots.set place last).dropLast }
  | _, _ => machine

/-- Keep cells alive for a call in progress. -/
def pushRoots (machine : Machine) (cells : List Cell) : Machine :=
  { machine with stackRoots := machine.stackRoots ++ cells }

/-- Release the cells of the calls above a height of the stack. -/
def unwindTo (machine : Machine) (height : Nat) : Machine :=
  { machine with stackRoots := machine.stackRoots.take height }

def countTypeError (machine : Machine) : Machine :=
  { machine with stats := { machine.stats with typeErrors := tick64 machine.stats.typeErrors } }

/-! ### Finding things -/

def block (machine : Machine) (id : CodeId) : Except MachineError Block :=
  match machine.code.get? id with
  | some found => .ok found
  | none => .error (.unknownCode id)

/-- The link record of a site. -/
def link (machine : Machine) (site : SiteRef) : Except MachineError Link := do
  match (← machine.block site.caller).links[site.index]? with
  | some found => .ok found
  | none => .error (.unknownSite site.caller site.index)

def executable (machine : Machine) (cell : Cell) : Except MachineError Executable :=
  match machine.heap.executable? cell with
  | some found => .ok found
  | none => .error (.deadCell cell)

/-- The current code of an executable. -/
def currentCode? (machine : Machine) (cell : Cell) (kind : Specialization) : Option CodeId :=
  (machine.heap.executable? cell).bind fun executable => executable.code kind

/-! ### Texts -/

/-- How a value is called in an error message. -/
def describe (machine : Machine) : Value → String
  | .undefined => "undefined"
  | .int n => toString n.toInt
  | .cell cell =>
    match machine.heap.get? cell with
    | some (.function closure) =>
      match machine.heap.executable? closure.executable with
      | some executable => executable.name
      | none => "function"
    | some other => other.kindName
    | none => "<dead cell>"

def text (machine : Machine) : String :=
  Text.record "Vm"
    [("heap", machine.heap.text), ("code_blocks", toString machine.code.blocks.length),
     ("roots", toString machine.roots.length), ("running", toString machine.running.size)]

end Machine

namespace MachineM

/-- Look at the machine. -/
def look {α : Type} (view : Machine → Except MachineError α) : MachineM α :=
  ExceptT.mk fun machine => (view machine, machine)

def block (id : CodeId) : MachineM Block :=
  look fun machine => machine.block id

def link (site : SiteRef) : MachineM Link :=
  look fun machine => machine.link site

def executable (cell : Cell) : MachineM Executable :=
  look fun machine => machine.executable cell

/-! ### Allocation -/

def allocate (entity : Entity) : MachineM Cell :=
  modifyGet fun machine =>
    let (cell, heap) := machine.heap.allocate entity
    (cell, { machine with heap })

/-- Allocate an executable. It may come with code: the copy of an executable that has been called
has the code of the original, and shares it. -/
def allocateExecutable (template : Executable) : MachineM Cell :=
  allocate (.executable template)

/-- Make a closure of an executable. -/
def createClosure (executable : Cell) (realm : Realm) (captures : List Value) : MachineM Cell := do
  discard (MachineM.executable executable)
  allocate (.function { executable, realm, captures })

end MachineM

end InlineCache
