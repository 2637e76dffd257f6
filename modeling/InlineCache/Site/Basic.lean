import InlineCache.Call.Kind
import InlineCache.Stats
import InlineCache.Stub

/-!
# Patchable call sites

A call site has a dispatch slot. A call reads the slot once and goes where it points. Linking and
unlinking patch the slot.
-/

namespace InlineCache

/-! ### Where the code of a site lies

The fast paths of a block's call sites lie one after the other from label 0 on, the slow paths
follow in the same order from a base label on. Labels are 32-bit words, and their arithmetic is
checked.
-/

def fastPathSize : Nat := 24

def slowPathSize : Nat := 40

/-- The arithmetic step that left the range of 32-bit words. -/
inductive Overflow where
  | multiply
  | add
deriving DecidableEq, Repr, Inhabited

def Overflow.message : Overflow → String
  | .multiply => "attempt to multiply with overflow"
  | .add => "attempt to add with overflow"

def mulWord32 (a b : Nat) : Except Overflow Nat :=
  if a * b ≤ word32Max then .ok (a * b) else .error .multiply

def addWord32 (a b : Nat) : Except Overflow Nat :=
  if a + b ≤ word32Max then .ok (a + b) else .error .add

/-- The labels of one call site: where its fast path starts, where its slow path starts, and where
both continue. -/
structure Locations where
  fastPath : Nat
  slowPath : Nat
  done : Nat
deriving DecidableEq, Repr, Inhabited

namespace Locations

/-- The labels of site number `index` when the slow paths start at `slowPathBase`. A site number is
cut to 32 bits. -/
def forSite (index slowPathBase : Nat) : Except Overflow Locations := do
  let number := index % (word32Max + 1)
  let fastPath ← mulWord32 number fastPathSize
  let slowPathOffset ← mulWord32 number slowPathSize
  let slowPath ← addWord32 slowPathBase slowPathOffset
  let done ← addWord32 fastPath fastPathSize
  pure { fastPath, slowPath, done }

/-- The labels of the sites of a block that has `count` of them. -/
def forBlock (count : Nat) : Except Overflow (List Locations) := do
  let slowPathBase ← mulWord32 (count % (word32Max + 1)) fastPathSize
  (List.range count).mapM fun index => forSite index slowPathBase

end Locations

/-! ### The dispatch slot -/

/-- What the dispatch slot of a call site holds. -/
inductive Target where
  /-- Resolve the callee and link the site. -/
  | slowPath
  /-- Go to the target if the callee is the expected cell. -/
  | guarded (expected : Cell) (target : CodePointer)
  | stub (routine : Stub)
  /-- Resolve the callee and leave the site as it is. -/
  | virtual
  /-- Go to the target, whatever the callee is. -/
  | direct (target : CodePointer)
deriving DecidableEq, Repr, Inhabited

namespace Target

def isSlowPath : Target → Bool
  | .slowPath => true
  | _ => false

/-- The code that the slot can send a call to. -/
def pointers : Target → List CodePointer
  | .guarded _ target => [target]
  | .direct target => [target]
  | .stub routine => routine.cases.map Case.target
  | .slowPath | .virtual => []

def text : Target → String
  | .slowPath => "SlowPath"
  | .guarded expected target =>
    Text.record "Guarded" [("expected", expected.text), ("target", target.text)]
  | .stub routine => Text.wrapped "Stub" routine.text
  | .virtual => "Virtual"
  | .direct target => Text.wrapped "Direct" target.text

end Target

structure CallSite where
  locations : Locations
  mode : TransferMode
  target : Target := .slowPath
  /-- How often the slot has been patched. -/
  patchCount : Nat := 0
deriving DecidableEq, Repr, Inhabited

namespace CallSite

def repatch (site : CallSite) (target : Target) : CallSite :=
  { site with target, patchCount := tick32 site.patchCount }

/-- Send the site to the slow path, if it is not there already. -/
def reset (site : CallSite) : CallSite :=
  if site.target.isSlowPath then site else site.repatch .slowPath

end CallSite

end InlineCache
