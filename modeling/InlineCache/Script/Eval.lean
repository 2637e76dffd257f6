import InlineCache.Script.Session

/-!
# Evaluating expressions
-/

namespace InlineCache.Script

/-- What an expression is evaluated in: a session, and the frame of the running entry if there is
one. -/
structure Scope where
  session : Session
  frame : Option Frame
deriving Repr, Inhabited

namespace Scope

def arguments (scope : Scope) : List Value :=
  (scope.frame.map Frame.arguments).getD []

/-- The block whose sites can be executed. -/
def block (scope : Scope) : CodeId :=
  (scope.frame.map Frame.block).getD CodeId.host

def captures (scope : Scope) : List Value :=
  ((scope.frame.bind fun frame => scope.session.machine.heap.closure? frame.callee).map
    Closure.captures).getD []

end Scope

namespace Expr

mutual

def eval (scope : Scope) : Expr → Value
  | .value found => found
  | .name key => (scope.session.values.lookup key).getD .undefined
  | .argument index => scope.arguments[index]?.getD .undefined
  | .receiver => (scope.frame.map Frame.receiver).getD .undefined
  | .callee => (scope.frame.map fun frame => Value.cell frame.callee).getD .undefined
  | .argumentCount => .int (Int64.ofNat (scope.arguments.length + 1))
  | .capture index => scope.captures[index]?.getD .undefined
  | .sum terms => .int (total scope terms)

def total (scope : Scope) : List Expr → Int64
  | [] => 0
  | term :: rest => (eval scope term).toInt + total scope rest

end

end Expr

def Item.eval (scope : Scope) : Item → List Value
  | .one expr => [expr.eval scope]
  | .rest first => scope.arguments.drop first
  | .fill count expr => List.replicate count (expr.eval scope)

def CodeExpr.eval (scope : Scope) : CodeExpr → CodeId
  | .id found => found
  | .name key => (scope.session.codes.lookup key).getD CodeId.host
  | .self => scope.block
  | .current executable kind =>
    match executable.eval scope with
    | .cell cell => ((scope.session.machine.currentCode? cell kind).getD CodeId.host)
    | _ => CodeId.host

/-- An expression that must be a cell. -/
def Expr.cell (scope : Scope) (expr : Expr) : Except MachineError Cell :=
  match expr.eval scope with
  | .cell found => .ok found
  | other => .error (.thrown (scope.session.machine.describe other ++ " is not a cell"))

end InlineCache.Script
