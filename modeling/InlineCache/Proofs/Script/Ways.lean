import InlineCache.Proofs.Machine.Calls
import InlineCache.Script.Run

/-!
# The ways of a call

A call comes to its destination through the slot of its site, through the slow path, or by resolving
its callee. Whichever way it takes, what it has to prepare comes last, when everything that the call
does to links and code is done. So a call that prepares something does to the machine what the same
call does without, and it is prepared once if it comes to a destination, and not at all if it does
not.
-/

namespace InlineCache.Script

open MachineM

namespace SessionM

variable {α β : Type} (session : Session)

def exec (operation : SessionM α) (session : Session) : Except MachineError α × Session :=
  StateT.run (ExceptT.run operation) session

theorem ext {first second : SessionM α} (h : ∀ session, first.exec session = second.exec session) :
    first = second := funext h

theorem exec_pure (value : α) : (pure value : SessionM α).exec session = (.ok value, session) := rfl

theorem exec_get : (get : SessionM Session).exec session = (.ok session, session) := rfl

theorem exec_modify (change : Session → Session) :
    (modify change : SessionM PUnit).exec session = (.ok ⟨⟩, change session) := rfl

theorem exec_bind (operation : SessionM α) (next : α → SessionM β) :
    (operation >>= next).exec session =
      match operation.exec session with
      | (.ok value, after) => (next value).exec after
      | (.error error, after) => (.error error, after) := by
  unfold exec
  simp only [ExceptT.run_bind, StateT.run_bind]
  generalize StateT.run (ExceptT.run operation) session = outcome
  rcases outcome with ⟨_ | _, _⟩ <;> rfl

theorem exec_tryCatch (operation : SessionM α) (handle : MachineError → SessionM α) :
    (tryCatch operation handle).exec session =
      match operation.exec session with
      | (.ok value, after) => (.ok value, after)
      | (.error error, after) => (handle error).exec after := by
  have hrun : (tryCatch operation handle).exec session =
      StateT.run (ExceptT.run operation >>= fun
        | .ok value => pure (.ok value)
        | .error error => ExceptT.run (handle error)) session := by
    unfold exec
    congr 1
    show ExceptT.run (ExceptT.tryCatch operation handle) = _
    unfold ExceptT.tryCatch
    rw [ExceptT.run_mk]
    refine bind_congr fun result => ?_
    rcases result with _ | _ <;> rfl
  rw [hrun, StateT.run_bind]
  unfold exec
  generalize StateT.run (ExceptT.run operation) session = outcome
  rcases outcome with ⟨_ | _, _⟩ <;> rfl

theorem exec_onMachine (operation : MachineM α) :
    (onMachine operation).exec session =
      ((operation.exec session.machine).1,
        { session with machine := (operation.exec session.machine).2 }) := rfl

theorem exec_lift (operation : MachineM α) :
    (liftM operation : SessionM α).exec session =
      ((operation.exec session.machine).1,
        { session with machine := (operation.exec session.machine).2 }) := rfl

theorem exec_attempt (operation : SessionM α) :
    (attempt operation).exec session =
      (.ok (operation.exec session).1, (operation.exec session).2) := rfl

theorem onMachine_bind (operation : MachineM α) (next : α → MachineM β) :
    onMachine (operation >>= next)
      = onMachine operation >>= fun value => onMachine (next value) := by
  refine ext fun session => ?_
  rw [exec_bind, exec_onMachine, exec_onMachine, MachineM.exec_bind]
  rcases operation.exec session.machine with ⟨_ | _, _⟩ <;> rfl

end SessionM

open SessionM

variable {α β : Type} (prepare : SessionM Unit)

/-- Run an operation of the machine, and prepare if it does not fail. -/
def preparing (operation : MachineM α) : SessionM α := do
  let value ← onMachine operation
  prepare
  pure value

theorem preparing_bind (operation : MachineM α) (next : α → MachineM β) :
    preparing prepare (operation >>= next)
      = onMachine operation >>= fun value => preparing prepare (next value) := by
  rw [preparing, onMachine_bind, bind_assoc]
  rfl

theorem exec_preparing (operation : MachineM α) (session : Session) :
    (preparing prepare operation).exec session =
      match operation.exec session.machine with
      | (.ok value, machine) =>
        (prepare >>= fun _ => pure value : SessionM α).exec { session with machine }
      | (.error error, machine) => (.error error, { session with machine }) := by
  rw [preparing, SessionM.exec_bind, exec_onMachine]
  rcases operation.exec session.machine with ⟨_ | _, _⟩ <;> rfl

theorem generic_eq (call : Call) :
    CallPath.generic prepare call = preparing prepare (selectGeneric call) := by
  rw [selectGeneric, CallPath.generic, CallPath.generic, lift_eq, preparing_bind]
  refine bind_congr fun resolution => ?_
  rcases resolution with _ | _ <;> rfl

theorem slow_eq (site : SiteRef) (call : Call) :
    CallPath.slow prepare site call = preparing prepare (selectSlow site call) := by
  rw [selectSlow, CallPath.slow, CallPath.slow, lift_eq, lift_eq, preparing_bind]
  refine bind_congr fun _ => ?_
  rw [preparing_bind]
  refine bind_congr fun resolution => ?_
  rcases resolution with _ | _ <;> dsimp only
  · rw [lift_eq, preparing_bind]
    rfl
  · rw [lift_eq, preparing_bind]
    rfl

theorem fast_eq (target : CodePointer) :
    CallPath.fast prepare target = preparing prepare (selectFast target) := rfl

theorem atSite_eq (site : SiteRef) (call : Call) :
    CallPath.atSite prepare site call = preparing prepare (selectAtSite site call) := by
  rw [selectAtSite, CallPath.atSite, CallPath.atSite, lift_eq, preparing_bind]
  refine bind_congr fun link => ?_
  rcases link.site.target with _ | ⟨expected, target⟩ | stub | _ | target <;> dsimp only
  · exact slow_eq prepare site call
  · split
    · exact fast_eq prepare target
    · exact slow_eq prepare site call
  · rw [lift_eq, preparing_bind]
    refine bind_congr fun machine => ?_
    split
    · exact slow_eq prepare site call
    · split
      · exact slow_eq prepare site call
      · rw [lift_eq, preparing_bind]
        rfl
  · rw [lift_eq, preparing_bind]
    exact bind_congr fun _ => generic_eq prepare call
  · exact fast_eq prepare target

theorem exec_selecting_session (call : Call) (select : SessionM Destination) (session : Session) :
    (CallPath.selecting call select).exec session =
      match select.exec { session with machine := session.machine.pushRoots call.cells } with
      | (.ok destination, after) =>
        (.ok { call, destination, base := session.machine.stackRoots.length }, after)
      | (.error error, after) => (.error error,
          { after with machine := after.machine.unwindTo session.machine.stackRoots.length }) := by
  rw [CallPath.selecting, SessionM.exec_bind, exec_lift, current, MachineM.exec_get]
  dsimp only
  rw [SessionM.exec_bind, exec_lift, alter, MachineM.exec_modify]
  dsimp only
  rw [SessionM.exec_tryCatch, SessionM.exec_bind]
  rcases select.exec { session with machine := session.machine.pushRoots call.cells } with
    ⟨error | destination, after⟩ <;> rfl

variable {prepare}

/-- Preparing does not fail, so the stack of roots stays as the call has left it. -/
theorem selecting_eq (hprepare : ∀ session, ∃ after, prepare.exec session = (.ok (), after))
    (call : Call) (select : MachineM Destination) :
    CallPath.selecting call (preparing prepare select)
      = preparing prepare (CallPath.selecting call select) := by
  refine ext fun session => ?_
  rw [exec_selecting_session, exec_preparing, exec_preparing, exec_selecting]
  dsimp only
  rcases select.exec (session.machine.pushRoots call.cells) with ⟨error | destination, found⟩ <;>
    dsimp only
  obtain ⟨after, hafter⟩ := hprepare { session with machine := found }
  rw [SessionM.exec_bind, SessionM.exec_bind, hafter]
  rfl

theorem selecting_atSite_eq
    (hprepare : ∀ session, ∃ after, prepare.exec session = (.ok (), after)) (site : SiteRef)
    (call : Call) :
    CallPath.selecting call (do
      safepoint
      CallPath.atSite prepare site call)
      = preparing prepare (CallPath.selecting call (do
        safepoint
        selectAtSite site call)) := by
  rw [← selecting_eq hprepare, preparing_bind]
  exact congrArg _ (bind_congr fun _ => atSite_eq prepare site call)

/-- A call at a site is prepared when it has found its destination. -/
theorem start_eq (hprepare : ∀ session, ∃ after, prepare.exec session = (.ok (), after))
    (request : SiteCall) :
    CallPath.start prepare request = preparing prepare (startSiteCall request) := by
  rw [startSiteCall, CallPath.start, CallPath.start, lift_eq, preparing_bind]
  refine bind_congr fun link => ?_
  dsimp only
  split
  · rw [preparing_bind]
    rfl
  · split
    · rw [lift_eq, preparing_bind]
      refine bind_congr fun _ => ?_
      rcases request.callee with _ | _ | cell
      · rfl
      · rfl
      · exact selecting_atSite_eq hprepare request.site _
    · rcases request.callee with _ | _ | cell
      · rfl
      · rfl
      · exact selecting_atSite_eq hprepare request.site _

/-! ### Calls of scripts -/

/-- How a call whose expressions are evaluated in a scope finds its destination, apart from what it
prepares. -/
def CallExpr.search (scope : Scope) (call : CallExpr) : MachineM Transfer :=
  let callee := call.callee.eval scope
  let receiver := call.receiver.eval scope
  let arguments := call.arguments.flatMap (Item.eval scope)
  match call.caller with
  | .host kind => startHostCall callee receiver arguments kind
  | .site index tail =>
    startSiteCall { site := ⟨scope.block, index⟩, callee, receiver, arguments, tail }

theorem Caller.prepare_ok (caller : Caller) (session : Session) :
    ∃ after, caller.prepare.exec session = (.ok (), after) := by
  unfold Caller.prepare
  split <;> exact ⟨_, rfl⟩

theorem CallExpr.start_eq (scope : Scope) (call : CallExpr) :
    call.start scope = preparing call.caller.prepare (call.search scope) := by
  rw [CallExpr.start, CallExpr.search]
  rcases hcaller : call.caller with kind | ⟨index, tail⟩ <;> dsimp only
  · exact (bind_pure _).symm
  · exact Script.start_eq (Caller.prepare_ok _) _

end InlineCache.Script
