import InlineCache.Call.Kind
import InlineCache.Site.Basic
import InlineCache.WeakRef

/-!
# Link records

A link record says what is cached at a call site, and keeps the profile of the site. The link state
and the dispatch slot of the site describe the same link: an unlinked site has the slow path in its
slot, a monomorphic site a guard for its callee, a polymorphic site its stub, a virtual site the
virtual call and a direct site its target.

The cells of a link state are weak: a link does not keep its callee alive.
-/

namespace InlineCache

/-! ### How far a site has been linked -/

inductive LinkMode where
  /-- Not linked. -/
  | init
  /-- Linked to one callee. -/
  | monomorphic
  /-- Linked to a stub. -/
  | polymorphic
  /-- Given up for good. -/
  | virtual
  /-- A direct site that is linked to its executable. -/
  | linkedDirect
deriving DecidableEq, Repr, Inhabited

def LinkMode.name : LinkMode → String
  | .init => "init"
  | .monomorphic => "monomorphic"
  | .polymorphic => "polymorphic"
  | .virtual => "virtual"
  | .linkedDirect => "linked-direct"

/-! ### What is cached at a site -/

inductive LinkState where
  | unlinked
  | monomorphic (callee : WeakRef) (target : CodePointer)
  | polymorphic (stub : Stub)
  | virtual
  | direct (executable : WeakRef) (target : CodePointer)
deriving DecidableEq, Repr, Inhabited

namespace LinkState

def mode : LinkState → LinkMode
  | .unlinked => .init
  | .monomorphic _ _ => .monomorphic
  | .polymorphic _ => .polymorphic
  | .virtual => .virtual
  | .direct _ _ => .linkedDirect

/-- The cells that the state refers to. -/
def dependents : LinkState → List Cell
  | .monomorphic callee _ => callee.target.toList
  | .polymorphic stub => stub.dependents
  | .direct executable _ => executable.target.toList
  | .unlinked | .virtual => []

/-- Does the state send some call to the block? -/
def targets (state : LinkState) (code : CodeId) : Bool :=
  match state with
  | .monomorphic _ target => target.block == code
  | .direct _ target => target.block == code
  | .polymorphic stub => stub.targets code
  | .unlinked | .virtual => false

end LinkState

structure Link where
  /-- Position of the call instruction in the bytecode. -/
  origin : Nat
  callType : CallType
  state : LinkState
  site : CallSite
  /-- The callee of the last call that took the slow path. -/
  lastCallee : WeakRef
  seenOnce : Bool
  seenClosure : Bool
  /-- The collector took the last link away, and none was made since. -/
  clearedByCollector : Bool
  /-- The site has gone virtual. -/
  wentVirtual : Bool
  stubsAllowed : Bool
  slowPathCount : Nat
  /-- The longest computed argument list so far, with the receiver, up to the ceiling. -/
  varargsSeen : Nat
  varargsCeiling : Nat
  /-- The argument count of a direct site, with the receiver. -/
  arity : Nat
deriving DecidableEq, Repr, Inhabited

namespace Link

/-- The record of a site that has not been executed yet. -/
def fresh (descriptor : SiteDescriptor) (locations : Locations) (varargsCeiling : Nat) : Link where
  origin := descriptor.bytecodeIndex
  callType := descriptor.callType
  state := .unlinked
  site := { locations, mode := descriptor.callType.transferMode }
  lastCallee := .empty
  seenOnce := false
  seenClosure := false
  clearedByCollector := false
  wentVirtual := false
  stubsAllowed := true
  slowPathCount := 0
  varargsSeen := 0
  varargsCeiling := varargsCeiling
  arity := 0

def mode (link : Link) : LinkMode := link.state.mode

def isDirect (link : Link) : Bool := link.callType.isDirect

def targets (link : Link) (code : CodeId) : Bool := link.state.targets code

/-- The cells that the record refers to: those of the link state, then the last callee. -/
def dependents (link : Link) : List Cell :=
  link.state.dependents ++ link.lastCallee.target.toList

def monomorphicCallee? (link : Link) (isLive : Cell → Bool) : Option Cell :=
  match link.state with
  | .monomorphic callee _ => callee.get? isLive
  | _ => none

def cachedTarget? (link : Link) : Option CodePointer :=
  match link.state with
  | .monomorphic _ target => some target
  | .direct _ target => some target
  | _ => none

def stub? (link : Link) : Option Stub :=
  match link.state with
  | .polymorphic stub => some stub
  | _ => none

/-- The five flags of a record, one character each. -/
def flags (link : Link) : String :=
  String.ofList
    [mark link.seenOnce 'o', mark link.seenClosure 'c', mark link.clearedByCollector 'g',
     mark link.wentVirtual 'v', mark link.stubsAllowed 'a']
where
  mark (on : Bool) (letter : Char) : Char := if on then letter else '-'

/-! ### The profile of a site -/

def recordSlowPath (link : Link) (callee : Cell) : Link :=
  { link with
    slowPathCount := tick32 link.slowPathCount
    seenOnce := true
    lastCallee := .ofCell callee }

/-- Note the length of a computed argument list. -/
def noteVarargs (link : Link) (count : Nat) : Link :=
  { link with varargsSeen := max link.varargsSeen (min count link.varargsCeiling) }

def setArity (link : Link) (count : Nat) : Link :=
  { link with arity := count }

/-- Count a call at the stub case that it takes. The stub is one and the same in the link state and
in the slot. -/
def hitStub (link : Link) (callee executable : Cell) : Link :=
  { link with
    state := match link.state with
      | .polymorphic stub => .polymorphic (stub.hit callee executable)
      | state => state
    site := { link.site with
      target := match link.site.target with
        | .stub stub => .stub (stub.hit callee executable)
        | target => target } }

end Link

end InlineCache
