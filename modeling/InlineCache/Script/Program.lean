import InlineCache.Entity

/-!
# Programs

A native entry runs a program: a list of instructions that use the machine as the host does. An
instruction can also execute a call site of the code that the entry belongs to.

Values and blocks can be given names. The names are shared by all programs of a script, and they do
not keep cells alive.
-/

namespace InlineCache.Script

/-- An expression for a value. Outside of a frame there are no arguments and no captures. -/
inductive Expr where
  | value (value : Value)
  /-- A name that is not bound is undefined. -/
  | name (name : String)
  | argument (index : Nat)
  | receiver
  | callee
  /-- The number of arguments, with the receiver. -/
  | argumentCount
  /-- A captured value of the callee. -/
  | capture (index : Nat)
  /-- A sum that wraps around; what is not an integer counts as 0. -/
  | sum (terms : List Expr)
deriving Repr, Inhabited

/-- A part of a list of values. -/
inductive Item where
  | one (value : Expr)
  /-- The arguments of the frame from an index on. -/
  | rest (first : Nat)
  | fill (count : Nat) (value : Expr)
deriving Repr, Inhabited

/-- An expression for a block. Where there is no such block it stands for that of the host. -/
inductive CodeExpr where
  | id (id : CodeId)
  | name (name : String)
  /-- The block of the frame. -/
  | self
  /-- The current code of an executable. -/
  | current (executable : Expr) (kind : Specialization)
deriving Repr, Inhabited

/-- What changes the machine without running an entry. -/
inductive Command where
  | executable (template : Executable)
  /-- A closure of the default realm without captures. -/
  | function (executable : Expr)
  | closure (executable : Expr) (realm : Realm) (captures : List Item)
  | object (handler : Option Entry)
  | objects (count : Nat)
  | addRoot (cell : Expr)
  | removeRoot (cell : Expr)
  | compile (closure : Expr) (kind : Specialization)
  | replace (code : CodeExpr) (entry : Entry) (tier : Tier)
  | jettison (code : CodeExpr)
  | disallowStubs (code : CodeExpr) (site : Nat)
  | collect
  | safepoint
  | writeBarrier (owner target : Expr)
deriving Repr, Inhabited

/-- What looks at the machine and leaves it as it is. -/
inductive Query where
  | value (value : Expr)
  | captures (cell : Expr)
  | executableOf (cell : Expr)
  | entity (cell : Expr)
  | contains (cell : Expr)
  | currentCode (executable : Expr) (kind : Specialization)
  | link (code : CodeExpr) (site : Nat)
  | block (code : CodeExpr)
  | verifyLinks
  | cells
  | frame
  | machine
  | config
  | stats
deriving Repr, Inhabited

/-- Where a call comes from. -/
inductive Caller where
  | host (kind : Specialization)
  /-- A call site of the block of the frame. -/
  | site (index : Nat) (tail : Bool)
deriving DecidableEq, Repr, Inhabited

/-- A call that is to be made. -/
structure CallExpr where
  caller : Caller
  callee : Expr
  receiver : Expr
  arguments : List Item
deriving Repr, Inhabited

inductive Op where
  | command (command : Command)
  | query (query : Query)
  | call (call : CallExpr)
deriving Repr, Inhabited

/-- The name of an operation in the log. -/
def Op.verb : Op → String
  | .command order =>
    match order with
    | .executable _ => "exec"
    | .function _ => "fn"
    | .closure _ _ _ => "closure"
    | .object none => "object"
    | .object (some _) => "callable"
    | .objects _ => "objects"
    | .addRoot _ => "root"
    | .removeRoot _ => "unroot"
    | .compile _ _ => "compile"
    | .replace _ _ _ => "replace"
    | .jettison _ => "jettison"
    | .disallowStubs _ _ => "disallow"
    | .collect => "gc"
    | .safepoint => "safepoint"
    | .writeBarrier _ _ => "barrier"
  | .query question =>
    match question with
    | .value _ => "bind"
    | .captures _ => "captures"
    | .executableOf _ => "exec_of"
    | .entity _ => "exec_info"
    | .contains _ => "contains"
    | .currentCode _ _ => "code"
    | .link _ _ => "info"
    | .block _ => "block"
    | .verifyLinks => "verify"
    | .cells => "heap"
    | .frame => "frame"
    | .machine => "debug"
    | .config => "config"
    | .stats => "stats_json"
  | .call request =>
    match request.caller with
    | .host .call => "call"
    | .host .construct => "construct"
    | .site _ false => "icall"
    | .site _ true => "itail"

/-- An operation, and a name for its answer. -/
structure Step where
  op : Op
  name : Option String := none
deriving Repr, Inhabited

inductive Instr where
  | ret (value : Expr)
  | fail (message : String)
  | loop (count : Nat) (body : List Instr)
  /-- Run the body unless the value is undefined. -/
  | when (value : Expr) (body : List Instr)
  /-- Unless it is caught, an error ends the program. -/
  | step (step : Step) (caught : Bool)
deriving Repr, Inhabited

abbrev Program := List Instr

end InlineCache.Script
