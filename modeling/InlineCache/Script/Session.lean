import InlineCache.Machine.Call
import InlineCache.Script.Program

/-!
# Sessions

A session is a machine with the programs of its entries, the names bound so far and a log of what
the programs did.
-/

namespace InlineCache.Script

/-- What an operation answers. -/
inductive Answer where
  | nothing
  | value (value : Value)
  | cell (cell : Cell)
  | cell? (cell : Option Cell)
  | code (code : CodeId)
  | code? (code : Option CodeId)
  | values? (values : Option (List Value))
  | entity? (entity : Option Entity)
  | truth (holds : Bool)
  /-- A link record, with its last callee and its monomorphic callee as far as they are alive. -/
  | link (link : Link) (lastCallee monomorphicCallee : Option Cell)
  | block (block : Block)
  | cells (cells : List (Cell × Slot Entity))
  | collected (report : CollectionReport)
  | config (config : Config)
  | text (text : String)
deriving Repr, Inhabited

inductive LogEntry where
  /-- An entry starts to run. -/
  | entered (entry : Entry) (frame : Frame)
  /-- A tail call is about to transfer control. -/
  | prepared
  /-- An operation of a program has ended. -/
  | done (op : Op) (result : Except MachineError Answer)
deriving Repr, Inhabited

structure Session where
  machine : Machine
  programs : List Program
  values : List (String × Value) := []
  codes : List (String × CodeId) := []
  /-- What has been logged, the latest first. -/
  log : List LogEntry := []
deriving Repr, Inhabited

/-- An operation of a session. -/
abbrev SessionM := ExceptT MachineError (StateM Session)

namespace Session

/-- The program of an entry. An entry that was not given a program does nothing. -/
def program (session : Session) (entry : Entry) : Program :=
  session.programs[entry.number]?.getD []

def note (session : Session) (entry : LogEntry) : Session :=
  { session with log := entry :: session.log }

/-- Give the answer of an operation a name. An answer that is neither a value nor a block cannot be
named. -/
def bind (session : Session) (name : String) : Answer → Session
  | .value value => { session with values := (name, value) :: session.values }
  | .cell cell => { session with values := (name, .cell cell) :: session.values }
  | .code code => { session with codes := (name, code) :: session.codes }
  | .code? (some code) => { session with codes := (name, code) :: session.codes }
  | _ => session

end Session

namespace SessionM

/-- Run an operation of the machine. -/
def onMachine {α : Type} (operation : MachineM α) : SessionM α :=
  ExceptT.mk fun session =>
    let (result, machine) := operation.exec session.machine
    (result, { session with machine })

instance : MonadLiftT MachineM SessionM := ⟨onMachine⟩

/-- Run an operation, and hand its error over as a result. -/
def attempt {α : Type} (operation : SessionM α) : SessionM (Except MachineError α) :=
  ExceptT.mk fun session =>
    let (result, after) := StateT.run (ExceptT.run operation) session
    (.ok result, after)

end SessionM

end InlineCache.Script
