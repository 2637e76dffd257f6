import InlineCache.Link.Edit
import InlineCache.Site.Basic

/-!
# Errors of the machine
-/

namespace InlineCache

/-- Why an operation of the machine fails. -/
inductive MachineError where
  /-- A value was called that is not callable in this way; `what` describes it. -/
  | notCallable (what : String) (kind : Specialization)
  /-- A program failed on its own account. -/
  | thrown (message : String)
  /-- Calls are nested too deeply. -/
  | tooDeep
  /-- A call was sent to code that no longer exists. -/
  | danglingPointer (code : CodeId)
  | unknownCode (code : CodeId)
  | unknownSite (code : CodeId) (index : Nat)
  | deadCell (cell : Cell)
  /-- A tail call at a site of another mode, or a call of another mode at a tail site. -/
  | modeMismatch (code : CodeId) (index : Nat) (tail : Bool)
  | link (error : LinkError)
  /-- The labels of a block do not fit. -/
  | overflow (step : Overflow)
deriving DecidableEq, Repr, Inhabited

namespace MachineError

/-- The name of the kind of error. -/
def kind : MachineError → String
  | .notCallable _ _ | .thrown _ | .tooDeep => "TypeError"
  | .danglingPointer _ => "DanglingCodePointer"
  | .unknownCode _ => "UnknownCodeBlock"
  | .unknownSite _ _ => "UnknownCallSite"
  | .deadCell _ => "DeadCell"
  | .modeMismatch _ _ _ => "CallModeMismatch"
  | .link _ => "LinkError"
  | .overflow _ => "panic"

def message : MachineError → String
  | .notCallable what kind =>
    "TypeError: " ++ what ++ " is not " ++ (match kind with
      | .call => "a function"
      | .construct => "a constructor")
  | .thrown text => "TypeError: " ++ text
  | .tooDeep => "TypeError: too deep"
  | .danglingPointer code => "dangling code pointer into " ++ code.text
  | .unknownCode code => "unknown code block " ++ code.text
  | .unknownSite code index => "unknown call site " ++ toString index ++ " in " ++ code.text
  | .deadCell cell => "dead cell " ++ cell.text
  | .modeMismatch code index tail =>
    "call site " ++ toString index ++ " in " ++ code.text ++ " is not a " ++
      (if tail then "tail" else "non-tail") ++ " site"
  | .link error => error.message
  | .overflow step => step.message

end MachineError

end InlineCache
