import InlineCache.Script.Eval

/-!
# Commands to the machine, and queries
-/

namespace InlineCache.Script

namespace Command

def allocateObjects : Nat → MachineM Unit
  | 0 => pure ()
  | count + 1 => do
    discard (MachineM.allocate (.object none))
    allocateObjects count

/-- Carry out a command whose expressions are evaluated in a scope. -/
def run (scope : Scope) (command : Command) : MachineM Answer := do
  match command with
  | .executable template => Answer.cell <$> MachineM.allocateExecutable template
  | .function expr => Answer.cell <$> MachineM.createClosure (← ofScope expr) {} []
  | .closure expr realm captures =>
    let cell ← ofScope expr
    Answer.cell <$> MachineM.createClosure cell realm (captures.flatMap (Item.eval scope))
  | .object handler => Answer.cell <$> MachineM.allocate (.object handler)
  | .objects count =>
    allocateObjects count
    pure .nothing
  | .addRoot expr =>
    let cell ← ofScope expr
    modify fun machine => machine.addRoot cell
    pure .nothing
  | .removeRoot expr =>
    let cell ← ofScope expr
    modify fun machine => machine.removeRoot cell
    pure .nothing
  | .compile expr kind => Answer.code <$> MachineM.compileFunction (← ofScope expr) kind
  | .replace code entry tier => Answer.code <$> MachineM.replaceCode (code.eval scope) entry tier
  | .jettison code =>
    MachineM.jettisonCode (code.eval scope)
    pure .nothing
  | .disallowStubs code index =>
    MachineM.disallowStubs ⟨code.eval scope, index⟩
    pure .nothing
  | .collect => Answer.collected <$> MachineM.collect
  | .safepoint =>
    MachineM.safepoint
    pure .nothing
  | .writeBarrier owner target =>
    let owner ← ofScope owner
    let target ← ofScope target
    modify fun machine => { machine with heap := machine.heap.writeBarrier owner target }
    pure .nothing
where
  ofScope (expr : Expr) : MachineM Cell := MachineM.look fun _ => expr.cell scope

end Command

namespace Query

/-- The answer to a query. -/
def answer (scope : Scope) (query : Query) : Except MachineError Answer := do
  let machine := scope.session.machine
  match query with
  | .value expr => pure (.value (expr.eval scope))
  | .captures expr =>
    pure (.values? ((machine.heap.closure? (← expr.cell scope)).map Closure.captures))
  | .executableOf expr => pure (.cell? (machine.heap.executableOf? (← expr.cell scope)))
  | .entity expr => pure (.entity? (machine.heap.get? (← expr.cell scope)))
  | .contains expr => pure (.truth (machine.heap.contains (← expr.cell scope)))
  | .currentCode expr kind => pure (.code? (machine.currentCode? (← expr.cell scope) kind))
  | .link code index =>
    let link ← machine.link ⟨code.eval scope, index⟩
    pure (.link link (link.lastCallee.get? machine.heap.contains)
      (link.monomorphicCallee? machine.heap.contains))
  | .block code => Answer.block <$> machine.block (code.eval scope)
  | .verifyLinks =>
    machine.verifyLinks
    pure .nothing
  | .cells => pure (.cells machine.heap.occupied)
  | .frame =>
    match scope.frame with
    | some active => pure (.text active.text)
    | none => pure .nothing
  | .machine => pure (.text machine.text)
  | .config => pure (.config machine.config)
  | .stats => pure (.text machine.stats.document)

end Query

end InlineCache.Script
