import InlineCache.Cell
import InlineCache.Code.Pointer
import InlineCache.Stats

/-!
# Polymorphic stubs

A stub dispatches a call among several cases. A case is made for one callee, or widened to every
closure of one executable. All cases of a stub are of the same width: as soon as two cases share an
executable, or one case is wide, growing the stub widens all of them and merges those that become
equal. A stub that would have more cases than the capacity is not built.
-/

namespace InlineCache

/-- What a case of a stub tests. -/
inductive Variant where
  /-- The callee itself. -/
  | function (callee executable : Cell)
  /-- Any closure of the executable. -/
  | closure (executable : Cell)
deriving DecidableEq, Repr, Inhabited

namespace Variant

def executable : Variant → Cell
  | .function _ executable => executable
  | .closure executable => executable

def isClosure : Variant → Bool
  | .function _ _ => false
  | .closure _ => true

def widened (variant : Variant) : Variant := .closure variant.executable

/-- Does a call of `callee`, a closure of `executable`, take this case? -/
def accepts (variant : Variant) (callee executable : Cell) : Bool :=
  match variant with
  | .function expected _ => expected == callee
  | .closure expected => expected == executable

def cells : Variant → List Cell
  | .function callee executable => [callee, executable]
  | .closure executable => [executable]

def isLive (variant : Variant) (isLive : Cell → Bool) : Bool := variant.cells.all isLive

def text : Variant → String
  | .function callee executable =>
    Text.record "Function" [("callee", callee.text), ("executable", executable.text)]
  | .closure executable => Text.record "Closure" [("executable", executable.text)]

end Variant

structure Case where
  variant : Variant
  target : CodePointer
  hits : Nat := 0
deriving DecidableEq, Repr, Inhabited

namespace Case

def hit (case : Case) : Case := { case with hits := tick64 case.hits }

def widened (case : Case) : Case := { case with variant := case.variant.widened }

def text (case : Case) : String :=
  Text.record "PolymorphicCallCase"
    [("variant", case.variant.text), ("target", case.target.text),
     ("hits", Text.record "Cell" [("value", toString case.hits)])]

/-- Do two cases of the list have one executable? -/
def shareExecutable : List Case → Bool
  | [] => false
  | case :: rest =>
    (rest.any fun other => case.variant.executable == other.variant.executable) ||
      shareExecutable rest

/-- Add a case to a list without repeating a variant: the hits of a repeated one go to the case that
is there. -/
def merge (case : Case) : List Case → List Case
  | [] => [case]
  | first :: rest =>
    if first.variant = case.variant then
      { first with hits := addUpTo word64Max first.hits case.hits } :: rest
    else first :: merge case rest

end Case

/-- Stubs are numbered from 1 in the order in which they are asked for. -/
structure StubId where
  number : Nat
deriving DecidableEq, Repr, Inhabited

namespace StubId

def next (id : StubId) : StubId := ⟨id.number + 1⟩

def text (id : StubId) : String :=
  Text.wrapped "StubRoutineId" (toString id.number)

end StubId

structure Stub where
  id : StubId
  cases : List Case
deriving DecidableEq, Repr, Inhabited

/-- The outcome of growing a stub. `widened` says whether some case was made wide on the way. -/
inductive Growth where
  | built (stub : Stub) (widened : Bool)
  | overflow
deriving DecidableEq, Repr, Inhabited

namespace Stub

def size (stub : Stub) : Nat := stub.cases.length

/-- Build a stub from existing cases and one more. -/
def grow (id : StubId) (existing : List Case) (variant : Variant) (target : CodePointer)
    (capacity : Nat) : Growth :=
  let cases := existing ++ [({ variant, target } : Case)]
  let wide := Case.shareExecutable cases || cases.any fun case => case.variant.isClosure
  let input := if wide then cases.map Case.widened else cases
  let merged := input.foldl (fun done case => case.merge done) []
  if merged.length ≤ capacity then
    .built ⟨id, merged⟩ (wide && cases.any fun case => !case.variant.isClosure)
  else .overflow

/-- The case that a call takes: the first that accepts it. -/
def case? (stub : Stub) (callee executable : Cell) : Option Case :=
  stub.cases.find? fun case => case.variant.accepts callee executable

/-- Where a call goes. -/
def dispatch? (stub : Stub) (callee executable : Cell) : Option CodePointer :=
  (stub.case? callee executable).map Case.target

/-- Count a call at the case that it takes. -/
def hit (stub : Stub) (callee executable : Cell) : Stub :=
  { stub with cases := go stub.cases }
where
  go : List Case → List Case
    | [] => []
    | case :: rest =>
      if case.variant.accepts callee executable then case.hit :: rest else case :: go rest

def targets (stub : Stub) (code : CodeId) : Bool :=
  stub.cases.any fun case => case.target.block == code

/-- The cells that the tests of a stub name, case by case. -/
def dependents (stub : Stub) : List Cell :=
  stub.cases.flatMap fun case => case.variant.cells

/-- Send the cases that go to `old` to a new pointer. -/
def retargeted (stub : Stub) (old : CodeId) (new : CodePointer) : Stub :=
  { stub with cases := stub.cases.map fun case =>
      if case.target.block = old then { case with target := new } else case }

/-- Drop the cases that go to a block. -/
def withoutTarget (stub : Stub) (code : CodeId) : Stub :=
  { stub with cases := stub.cases.filter fun case => case.target.block != code }

/-- Keep the cases all of whose cells are live. -/
def pruned (stub : Stub) (isLive : Cell → Bool) : Stub :=
  { stub with cases := stub.cases.filter fun case => case.variant.isLive isLive }

def text (stub : Stub) : String :=
  Text.record "PolymorphicCallStubRoutine"
    [("id", stub.id.text), ("cases", Text.list (stub.cases.map Case.text))]

end Stub

end InlineCache
