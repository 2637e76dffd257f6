/-!
# Kinds of call instruction

A call instruction calls, tail-calls or constructs; it has a fixed or a computed argument list; it
is direct when the compiler knew the executable that it reaches.
-/

namespace InlineCache

/-- What a compiled piece of code is for. -/
inductive Specialization where
  | call
  | construct
deriving DecidableEq, Repr, Inhabited

namespace Specialization

def name : Specialization → String
  | .call => "call"
  | .construct => "construct"

def text : Specialization → String
  | .call => "Call"
  | .construct => "Construct"

end Specialization

inductive CallMode where
  | regular
  | tail
  | construct
deriving DecidableEq, Repr, Inhabited

def CallMode.text : CallMode → String
  | .regular => "Regular"
  | .tail => "Tail"
  | .construct => "Construct"

/-- How the machine transfers control at a site: with a return address, or without. -/
inductive TransferMode where
  | regular
  | tail
deriving DecidableEq, Repr, Inhabited

def TransferMode.text : TransferMode → String
  | .regular => "Regular"
  | .tail => "Tail"

inductive CallType where
  | call
  | callVarargs
  | construct
  | constructVarargs
  | tailCall
  | tailCallVarargs
  | directCall
  | directConstruct
  | directTailCall
deriving DecidableEq, Repr, Inhabited

namespace CallType

def all : List CallType :=
  [.call, .callVarargs, .construct, .constructVarargs, .tailCall, .tailCallVarargs, .directCall,
    .directConstruct, .directTailCall]

def text : CallType → String
  | .call => "Call"
  | .callVarargs => "CallVarargs"
  | .construct => "Construct"
  | .constructVarargs => "ConstructVarargs"
  | .tailCall => "TailCall"
  | .tailCallVarargs => "TailCallVarargs"
  | .directCall => "DirectCall"
  | .directConstruct => "DirectConstruct"
  | .directTailCall => "DirectTailCall"

def ofText? (text : String) : Option CallType :=
  all.find? fun callType => callType.text == text

def mode : CallType → CallMode
  | .call | .callVarargs | .directCall => .regular
  | .tailCall | .tailCallVarargs | .directTailCall => .tail
  | .construct | .constructVarargs | .directConstruct => .construct

def isDirect : CallType → Bool
  | .directCall | .directConstruct | .directTailCall => true
  | _ => false

def isVarargs : CallType → Bool
  | .callVarargs | .constructVarargs | .tailCallVarargs => true
  | _ => false

def isTail (callType : CallType) : Bool := callType.mode == .tail

def specialization (callType : CallType) : Specialization :=
  match callType.mode with
  | .construct => .construct
  | .regular | .tail => .call

def transferMode (callType : CallType) : TransferMode :=
  match callType.mode with
  | .tail => .tail
  | .regular | .construct => .regular

end CallType

/-- A call instruction in the body of an executable: its type and its position in the bytecode. -/
structure SiteDescriptor where
  callType : CallType
  bytecodeIndex : Nat
deriving DecidableEq, Repr, Inhabited

end InlineCache
