import InlineCache.Script.Command

/-!
# Running programs

A program runs until it returns, fails or ends. When it makes a call, the program of the entry that
the call goes to runs inside. Calls nest up to a bounded depth.
-/

namespace InlineCache.Script

/-- The largest number of programs that can run inside each other. -/
def depthLimit : Nat := 60

/-- What a call does right before control goes over: a tail call logs it. -/
def Caller.prepare : Caller → SessionM Unit
  | .site _ true => modify fun session => session.note .prepared
  | _ => pure ()

/-- A call whose expressions are evaluated in a scope finds its destination. -/
def CallExpr.start (scope : Scope) (call : CallExpr) : SessionM Transfer :=
  let callee := call.callee.eval scope
  let receiver := call.receiver.eval scope
  let arguments := call.arguments.flatMap (Item.eval scope)
  match call.caller with
  | .host kind => MachineM.startHostCall callee receiver arguments kind
  | .site index tail => CallPath.start call.caller.prepare
    { site := ⟨scope.block, index⟩, callee, receiver, arguments, tail }

section

variable (invoke : Activation → SessionM Value) (frame : Option Frame)

/-- Make a call. The function `invoke` runs the entry that it goes to. -/
def CallExpr.run (call : CallExpr) : SessionM Value := do
  let scope : Scope := ⟨← get, frame⟩
  let transfer ← call.start scope
  let activation ← SessionM.onMachine (MachineM.enter transfer)
  let result ← SessionM.attempt (invoke activation)
  SessionM.onMachine (MachineM.leave activation result)

def Op.run (op : Op) : SessionM Answer := do
  let scope : Scope := ⟨← get, frame⟩
  match op with
  | .command order => SessionM.onMachine (order.run scope)
  | .query question => SessionM.onMachine (MachineM.look fun _ => question.answer scope)
  | .call request => Answer.value <$> request.run invoke frame

/-- Run an operation and name its answer. -/
def Step.run (step : Step) : SessionM Answer := do
  let answer ← step.op.run invoke frame
  match step.name with
  | some name => modify fun session => session.bind name answer
  | none => pure ()
  pure answer

/-- Run an operation of a program, and log how it ended. -/
def Step.runLogged (step : Step) (caught : Bool) : SessionM Unit := do
  let result ← SessionM.attempt (step.run invoke frame)
  modify fun session => session.note (.done step.op result)
  match result with
  | .error error => if caught then pure () else throw error
  | .ok _ => pure ()

/-- Repeat a piece of a program until it returns. -/
def runLoop (body : SessionM (Option Value)) : Nat → SessionM (Option Value)
  | 0 => pure none
  | count + 1 => do
    match ← body with
    | some value => pure (some value)
    | none => runLoop body count

mutual

/-- Run an instruction. The answer is the value that it returns from the program, if it does. -/
def Instr.run : Instr → SessionM (Option Value)
  | .ret expr => do
    let scope : Scope := ⟨← get, frame⟩
    pure (some (expr.eval scope))
  | .fail message => throw (.thrown message)
  | .loop count body => runLoop (Instr.runAll body) count
  | .when expr body => do
    let scope : Scope := ⟨← get, frame⟩
    if expr.eval scope = .undefined then pure none else Instr.runAll body
  | .step action caught => do
    action.runLogged invoke frame caught
    pure none

def Instr.runAll : List Instr → SessionM (Option Value)
  | [] => pure none
  | instr :: rest => do
    match ← Instr.run instr with
    | some value => pure (some value)
    | none => Instr.runAll rest

end

end

/-- Run the program of an entry. Its calls may nest `depth` programs deep, itself included. -/
def runEntry : Nat → Activation → SessionM Value
  | 0, activation => do
    modify fun session => session.note (.entered activation.entry activation.frame)
    throw .tooDeep
  | depth + 1, activation => do
    modify fun session => session.note (.entered activation.entry activation.frame)
    let program := (← get).program activation.entry
    let returned ← Instr.runAll (runEntry depth) (some activation.frame) program
    pure (returned.getD .undefined)

/-- The host runs an operation. The log and the events are those of this operation. -/
def Session.perform (session : Session) (step : Step) : Except MachineError Answer × Session :=
  StateT.run (ExceptT.run (step.run (runEntry depthLimit) none))
    { session with log := [], machine := { session.machine with events := [] } }

end InlineCache.Script
