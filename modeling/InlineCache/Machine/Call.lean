import InlineCache.Machine.Collection

/-!
# Calls

A call goes through three steps. First it finds its destination: a call from the host resolves the
callee, a call at a site reads the dispatch slot, and on a miss resolves the callee and links the
site. Then it enters: the frame is made and becomes active. When the entry has run, the frame is
left again. Everything that a call does to links and code happens in the first step.

While a call is in progress its callee, receiver and arguments are on the stack of roots.
-/

namespace InlineCache

/-- Where a call goes. -/
inductive Destination where
  | code (pointer : CodePointer)
  /-- The handler of a callable object; it runs without a block. -/
  | handler (entry : Entry)
deriving DecidableEq, Repr, Inhabited

/-- What is called, and how. -/
structure Call where
  callee : Cell
  receiver : Value
  arguments : List Value
  kind : Specialization
deriving DecidableEq, Repr, Inhabited

/-- The cells that a call keeps alive. -/
def Call.cells (call : Call) : List Cell :=
  call.callee :: (call.receiver :: call.arguments).filterMap Value.cell?

/-- A call that has found its destination. The stack of roots had height `base` before it. -/
structure Transfer where
  call : Call
  destination : Destination
  base : Nat
deriving DecidableEq, Repr, Inhabited

/-- A call whose frame is active. -/
structure Activation where
  entry : Entry
  frame : Frame
  base : Nat
deriving DecidableEq, Repr, Inhabited

/-- A call at a site of the block of a frame. -/
structure SiteCall where
  site : SiteRef
  callee : Value
  receiver : Value
  arguments : List Value
  /-- Is it executed as a tail call? -/
  tail : Bool
deriving DecidableEq, Repr, Inhabited

/-- What a callee turns out to be. -/
inductive Resolution where
  | function (resolved : Resolved) (realm : Realm)
  | handler (entry : Entry)
deriving DecidableEq, Repr, Inhabited

namespace MachineM

/-- The machine as it is. -/
def current : MachineM Machine := get

def alter (change : Machine → Machine) : MachineM Unit := modify change

/-- A call that cannot be made. -/
def notCallable {α : Type} (value : Value) (kind : Specialization) : MachineM α := do
  modify Machine.countTypeError
  throw (.notCallable ((← get).describe value) kind)

/-- Find out what a callee is. Its code is compiled if there is none. -/
def resolve (callee : Cell) (kind : Specialization) : MachineM Resolution := do
  match (← get).heap.get? callee with
  | none => throw (.deadCell callee)
  | some (.object (some handler)) => pure (.handler handler)
  | some (.object none) => notCallable (.cell callee) kind
  | some (.executable _) => notCallable (.cell callee) kind
  | some (.function closure) =>
    let executable ← MachineM.executable closure.executable
    if kind = .construct ∧ !executable.constructible then notCallable (.cell callee) kind
    else
      let id ← ensureCode closure.executable closure.realm kind
      let block ← MachineM.block id
      pure (.function
        { callee
          executable := closure.executable
          target := block.pointer
          parameters := executable.parameters } closure.realm)

/-- Why calls from a block to a realm are not cached. -/
def uncachable? (block : Block) (realm : Realm) : Option VirtualReason :=
  if !block.cachesCalls then some .cachingDisabled
  else if block.realm ≠ realm then some .crossRealm
  else none

/-- Run the linker on the record of a site. -/
def runLinker (site : SiteRef) (link : Link)
    (linking : Linker → Except LinkError LinkOutcome × Linker) : MachineM LinkOutcome := do
  let machine ← get
  let (outcome, linker) := linking { link, stats := machine.stats, lastStub := machine.lastStub }
  set ({ machine with stats := linker.stats, lastStub := linker.lastStub }.editLink site
    { link := linker.link, effects := linker.effects })
  match outcome with
  | .ok done => pure done
  | .error error => throw (.link error)

/-- Link a site to the function that it calls. -/
def linkFunction (site : SiteRef) (resolved : Resolved) (realm : Realm) : MachineM Unit := do
  let block ← MachineM.block site.caller
  let link ← MachineM.link site
  let machine ← get
  let outcome ← runLinker site link fun linker =>
    match uncachable? block realm with
    | some reason => (.ok .virtualized, linker.goVirtual reason)
    | none =>
      linker.linkCall machine.heap block.owner machine.config.polymorphicCapacity resolved
  match outcome with
  | .linked targets =>
    modify fun machine => targets.foldl (fun machine id => machine.addIncoming id site) machine
  | .virtualized => pure ()
  | .unchanged => pure ()

/-- Count a call that goes to the slow path, and note its callee in the record of the site. -/
def noteSlowCall (site : SiteRef) (callee : Cell) : MachineM Unit := do
  modify fun machine => { machine with stats :=
    { machine.stats with slowPathCalls := tick64 machine.stats.slowPathCalls } }
  let link ← MachineM.link site
  modify fun machine => machine.editLink site { link := link.recordSlowPath callee }

/-- Give up a site that has been used to call an object. -/
def virtualize (site : SiteRef) : MachineM Unit := do
  let link ← MachineM.link site
  discard (runLinker site link fun linker =>
    (.ok .virtualized, linker.goVirtual .callableObject))

end MachineM

/-! ### Finding the destination

The way of a call is written for any monad that runs the operations of the machine. `prepare` is
what a call does right before control goes over to its destination. Every way to a destination ends
with it.
-/

namespace CallPath

variable {m : Type → Type} [Monad m] [MonadLiftT MachineM m]

section

variable (prepare : m Unit)

/-- Resolve the callee without looking at any site. -/
def generic (call : Call) : m Destination := do
  match ← MachineM.resolve call.callee call.kind with
  | .handler entry =>
    prepare
    pure (.handler entry)
  | .function resolved _ =>
    prepare
    pure (.code resolved.target)

/-- Resolve the callee and link the site. -/
def slow (site : SiteRef) (call : Call) : m Destination := do
  MachineM.noteSlowCall site call.callee
  match ← MachineM.resolve call.callee call.kind with
  | .handler entry =>
    MachineM.virtualize site
    prepare
    pure (.handler entry)
  | .function resolved realm =>
    MachineM.linkFunction site resolved realm
    prepare
    pure (.code resolved.target)

/-- Go where the slot of a site has sent the call. -/
def fast (target : CodePointer) : m Destination := do
  MachineM.alter fun machine => { machine with stats :=
    { machine.stats with fastPathHits := tick64 machine.stats.fastPathHits } }
  prepare
  pure (.code target)

/-- Go where the slot of a site points. -/
def atSite (site : SiteRef) (call : Call) : m Destination := do
  let link ← MachineM.link site
  match link.site.target with
  | .slowPath => slow prepare site call
  | .guarded expected target =>
    if expected = call.callee then fast prepare target else slow prepare site call
  | .direct target => fast prepare target
  | .virtual =>
    MachineM.alter fun machine => { machine with stats :=
      { machine.stats with virtualCalls := tick64 machine.stats.virtualCalls } }
    generic prepare call
  | .stub stub =>
    match (← MachineM.current).heap.executableOf? call.callee with
    | none => slow prepare site call
    | some executable =>
      match stub.dispatch? call.callee executable with
      | none => slow prepare site call
      | some target =>
        MachineM.alter fun machine =>
          machine.editLink site { link := link.hitStub call.callee executable }
        fast prepare target

end

variable [MonadExcept MachineError m]

/-- Find the destination of a call while its cells are on the stack of roots. If none is found the
stack is as before. -/
def selecting (call : Call) (select : m Destination) : m Transfer := do
  let base := (← MachineM.current).stackRoots.length
  MachineM.alter fun machine => machine.pushRoots call.cells
  tryCatch
    (do pure { call, destination := ← select, base })
    (fun error => do
      MachineM.alter fun machine => machine.unwindTo base
      throw error)

/-- A call at a site finds its destination. The call is a safepoint, and the slot is read after
it. -/
def start (prepare : m Unit) (request : SiteCall) : m Transfer := do
  let link ← MachineM.link request.site
  if link.callType.isTail ≠ request.tail then
    throw (.modeMismatch request.site.caller request.site.index request.tail)
  if link.callType.isVarargs then
    let count := min (request.arguments.length + 1) word32Max
    MachineM.alter fun machine =>
      machine.editLink request.site { link := link.noteVarargs count }
  let kind := link.callType.specialization
  match request.callee with
  | .cell cell =>
    let call : Call :=
      { callee := cell, receiver := request.receiver, arguments := request.arguments, kind }
    selecting call (do
      MachineM.safepoint
      atSite prepare request.site call)
  | _ => MachineM.notCallable request.callee kind

end CallPath

namespace MachineM

/-! A call that has nothing to prepare. -/

def selectGeneric (call : Call) : MachineM Destination := CallPath.generic (pure ()) call

def selectSlow (site : SiteRef) (call : Call) : MachineM Destination :=
  CallPath.slow (pure ()) site call

def selectFast (target : CodePointer) : MachineM Destination := CallPath.fast (pure ()) target

def selectAtSite (site : SiteRef) (call : Call) : MachineM Destination :=
  CallPath.atSite (pure ()) site call

def startSiteCall (request : SiteCall) : MachineM Transfer := CallPath.start (pure ()) request

/-- A call from the host finds its destination. -/
def startHostCall (callee receiver : Value) (arguments : List Value) (kind : Specialization) :
    MachineM Transfer := do
  match callee with
  | .cell cell =>
    let call : Call := { callee := cell, receiver, arguments, kind }
    CallPath.selecting call (selectGeneric call)
  | _ => notCallable callee kind

/-! ### Entering and leaving -/

/-- The receiver that the callee sees: a constructor call makes a new object. -/
def receiverOf (call : Call) : MachineM Value := do
  match call.kind with
  | .construct => Value.cell <$> allocate (.object none)
  | .call => pure call.receiver

/-- Make the frame of a call and activate it. -/
def enter (transfer : Transfer) : MachineM Activation := do
  let (block, entry) ← match transfer.destination with
    | .handler entry => pure (CodeId.host, entry)
    | .code pointer =>
      if (← get).code.contains pointer.block then pure (pointer.block, pointer.entry)
      else
        modify fun machine => machine.unwindTo transfer.base
        throw (.danglingPointer pointer.block)
  let call := transfer.call
  let frame : Frame :=
    { block
      callee := call.callee
      receiver := ← receiverOf call
      arguments := call.arguments
      kind := call.kind }
  modify fun machine =>
    let pushed := machine.pushRoots frame.cells
    if block = CodeId.host then pushed
    else { pushed with running := pushed.running.enter block }
  pure { entry, frame, base := transfer.base }

/-- Leave the frame of a call whose entry has run. A constructor call answers with its object unless
the entry answered with another. -/
def leave (activation : Activation) (result : Except MachineError Value) : MachineM Value := do
  let frame := activation.frame
  modify fun machine =>
    { machine with running := machine.running.leave frame.block }.unwindTo activation.base
  match result with
  | .error error => throw error
  | .ok value =>
    match frame.kind, value with
    | .construct, .cell object => pure (.cell object)
    | .construct, _ => pure frame.receiver
    | .call, answer => pure answer

end MachineM

end InlineCache
