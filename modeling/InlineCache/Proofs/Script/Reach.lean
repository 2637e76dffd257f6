import InlineCache.Proofs.Landing
import InlineCache.Proofs.Script.Ways

/-!
# Scripts drive machines by requests

Whatever a session does to its machine is a list of requests: the operations of its programs in the
order in which they are carried out, with a request that finishes the activation wherever a program
ends. So what holds of executions holds of scripts.
-/

namespace InlineCache.Script

open Machine MachineM SessionM

/-! ### Reaching by requests -/

/-- Some requests lead from one machine to the other, whatever calls are in progress around them. -/
def Reaches (before after : Machine) : Prop :=
  ∃ requests, ∀ active, (Execution.mk before active).run requests = ⟨after, active⟩

theorem Reaches.refl (machine : Machine) : Reaches machine machine := ⟨[], fun _ => rfl⟩

theorem Reaches.trans {before middle after : Machine} (hleft : Reaches before middle)
    (hright : Reaches middle after) : Reaches before after := by
  obtain ⟨first, hfirst⟩ := hleft
  obtain ⟨second, hsecond⟩ := hright
  refine ⟨first ++ second, fun active => ?_⟩
  rw [Execution.run_append, hfirst, hsecond]

theorem Reaches.order (machine : Machine) (order : Order) :
    Reaches machine (order.run.exec machine).2 := ⟨[.order order], fun _ => rfl⟩

/-- A machine in whose code every link is accounted for. -/
structure Sane (machine : Machine) : Prop where
  numbered : machine.code.Numbered
  linked : machine.code.Linked

theorem Reaches.sane {before after : Machine} (h : Reaches before after) (hsane : Sane before) :
    Sane after := by
  obtain ⟨requests, hrun⟩ := h
  have hlinked := Execution.linked_run ⟨before, []⟩ requests hsane.numbered hsane.linked
  rw [hrun] at hlinked
  exact ⟨hlinked.1, hlinked.2⟩

/-- Does the entry say that an operation failed with a dangling pointer? -/
def LogEntry.IsDangling (entry : LogEntry) : Prop :=
  ∃ op code, entry = .done op (.error (.danglingPointer code))

/-- The log grows, and no operation fails with a dangling pointer. -/
def Continues (before after : List LogEntry) : Prop :=
  ∃ added, after = added ++ before ∧ ∀ entry ∈ added, ¬ entry.IsDangling

theorem Continues.refl (log : List LogEntry) : Continues log log := ⟨[], rfl, by simp⟩

theorem Continues.trans {before middle after : List LogEntry} (hleft : Continues before middle)
    (hright : Continues middle after) : Continues before after := by
  obtain ⟨first, rfl, hfirst⟩ := hleft
  obtain ⟨second, rfl, hsecond⟩ := hright
  refine ⟨second ++ first, (List.append_assoc _ _ _).symm, fun entry hentry => ?_⟩
  rcases List.mem_append.mp hentry with hentry | hentry
  · exact hsecond entry hentry
  · exact hfirst entry hentry

theorem Continues.cons {entry : LogEntry} (hentry : ¬ entry.IsDangling) (log : List LogEntry) :
    Continues log (entry :: log) :=
  ⟨[entry], rfl, fun _ hmem => List.mem_singleton.mp hmem ▸ hentry⟩

theorem LogEntry.not_isDangling_prepared : ¬ LogEntry.prepared.IsDangling := by
  rintro ⟨_, _, ⟨⟩⟩

theorem LogEntry.not_isDangling_entered (entry : Entry) (frame : Frame) :
    ¬ (LogEntry.entered entry frame).IsDangling := by
  rintro ⟨_, _, ⟨⟩⟩

/-- What a piece of a script does: it drives the machine by requests, and meets no dangling
pointer. -/
structure Sound {α : Type} (before : Session) (outcome : Except MachineError α × Session) :
    Prop where
  reaches : Reaches before.machine outcome.2.machine
  result : ∀ code, outcome.1 ≠ .error (.danglingPointer code)
  log : Continues before.log outcome.2.log

namespace Sound

variable {α β : Type} {before middle after : Session}

theorem ok {value : α} (hmachine : after.machine = before.machine) (hlog : after.log = before.log) :
    Sound before (.ok value, after) :=
  ⟨hmachine ▸ .refl _, fun _ h => (nomatch h), hlog ▸ .refl _⟩

theorem after_sound {value : α} {outcome : Except MachineError β × Session}
    (hfirst : Sound before (.ok value, middle)) (hnext : Sound middle outcome) :
    Sound before outcome :=
  ⟨hfirst.reaches.trans hnext.reaches, hnext.result, hfirst.log.trans hnext.log⟩

theorem bind {operation : SessionM α} {next : α → SessionM β} (hsane : Sane before.machine)
    (hfirst : Sound before (operation.exec before))
    (hnext : ∀ value after, operation.exec before = (.ok value, after) → Sane after.machine →
      Sound after ((next value).exec after)) :
    Sound before ((operation >>= next).exec before) := by
  rw [SessionM.exec_bind]
  rcases hrun : operation.exec before with ⟨error | value, after⟩ <;> rw [hrun] at hfirst
  · exact ⟨hfirst.reaches, fun code h => hfirst.result code
      (congrArg Except.error (Except.error.inj h)), hfirst.log⟩
  · exact hfirst.after_sound (hnext value after hrun (hfirst.reaches.sane hsane))

theorem bind_get {next : Session → SessionM β} (h : Sound before ((next before).exec before)) :
    Sound before ((get >>= next).exec before) := h

theorem bind_modify {change : Session → Session} {next : PUnit → SessionM β}
    (hchange : Sound before (.ok PUnit.unit, change before))
    (h : Sound (change before) ((next ⟨⟩).exec (change before))) :
    Sound before ((modify change >>= next).exec before) :=
  hchange.after_sound h

theorem onMachine {operation : MachineM α}
    (hreaches : Reaches before.machine (operation.exec before.machine).2)
    (hresult : ∀ code, (operation.exec before.machine).1 ≠ .error (.danglingPointer code)) :
    Sound before ((SessionM.onMachine operation).exec before) :=
  ⟨hreaches, hresult, .refl _⟩

theorem attempt {operation : SessionM α} (h : Sound before (operation.exec before)) :
    Sound before ((SessionM.attempt operation).exec before) :=
  ⟨h.reaches, fun _ herror => (nomatch herror), h.log⟩

end Sound

/-! ### Commands and queries -/

variable {scope : Scope}

theorem Expr.cell_ne_dangling (expr : Expr) (code : CodeId) :
    expr.cell scope ≠ .error (.danglingPointer code) := by
  rw [Expr.cell]
  split <;> simp

/-- An operation of the machine that can stand in a script. -/
structure Served {α : Type} (before : Machine) (outcome : Except MachineError α × Machine) :
    Prop where
  reaches : Reaches before outcome.2
  result : ∀ code, outcome.1 ≠ .error (.danglingPointer code)

namespace Served

variable {α : Type} {before : Machine}

theorem order (hsane : Sane before) (order : Order) : Served before (order.run.exec before) :=
  ⟨.order before order, orderRun_ne_dangling order hsane.numbered hsane.linked⟩

/-- A command first looks up the cells that it names. -/
theorem ofScope {expr : Expr} {next : Cell → MachineM α}
    (h : ∀ cell, Served before ((next cell).exec before)) :
    Served before ((Command.run.ofScope scope expr >>= next).exec before) := by
  rw [MachineM.exec_bind, Command.run.ofScope, exec_look]
  rcases hcell : expr.cell scope with error | cell
  · exact ⟨.refl before, fun code herror => expr.cell_ne_dangling code
      (hcell.trans (congrArg Except.error (Except.error.inj herror)))⟩
  · exact h cell

end Served

theorem allocateObjects_served (count : Nat) (machine : Machine) :
    Served machine ((Command.allocateObjects count).exec machine) := by
  induction count generalizing machine with
  | zero => exact ⟨.refl machine, fun _ h => nomatch h⟩
  | succ count ih =>
      have hfirst := Reaches.order machine (.createObject none)
      have hrest := ih (machine.withCell (.object none))
      exact ⟨hfirst.trans hrest.reaches, hrest.result⟩

theorem Command.run_served (command : Command) {before : Machine} (hsane : Sane before) :
    Served before ((command.run scope).exec before) := by
  cases command with
  | executable template => exact .order hsane (.allocateExecutable template)
  | function expr => exact .ofScope fun cell => .order hsane (.createClosure cell {} [])
  | closure expr realm captures =>
      exact .ofScope fun cell =>
        .order hsane (.createClosure cell realm (captures.flatMap (Item.eval scope)))
  | object handler => exact .order hsane (.createObject handler)
  | objects count =>
      have hobjects := allocateObjects_served count before
      simp only [Command.run, MachineM.exec_bind]
      rcases hrun : (allocateObjects count).exec before with ⟨error | _, after⟩ <;>
        rw [hrun] at hobjects
      · exact ⟨hobjects.reaches, fun code h => hobjects.result code
          (congrArg Except.error (Except.error.inj h))⟩
      · exact ⟨hobjects.reaches, fun _ h => nomatch h⟩
  | addRoot expr => exact .ofScope fun cell => .order hsane (.addRoot cell)
  | removeRoot expr => exact .ofScope fun cell => .order hsane (.removeRoot cell)
  | compile expr kind => exact .ofScope fun cell => .order hsane (.compile cell kind)
  | replace code entry tier => exact .order hsane (.replace (code.eval scope) entry tier)
  | jettison code =>
      have hserved := Served.order hsane (.jettison (code.eval scope))
      rwa [Order.run, ← bind_pure_comp] at hserved
  | disallowStubs code index =>
      have hserved := Served.order hsane (.disallowStubs ⟨code.eval scope, index⟩)
      rwa [Order.run, ← bind_pure_comp] at hserved
  | collect => exact .order hsane .collect
  | safepoint =>
      have hserved := Served.order hsane .safepoint
      rwa [Order.run, ← bind_pure_comp] at hserved
  | writeBarrier owner target =>
      exact .ofScope fun owner => .ofScope fun target => .order hsane (.writeBarrier owner target)

theorem Query.answer_ne_dangling (query : Query) (hsane : Sane scope.session.machine)
    (code : CodeId) : query.answer scope ≠ .error (.danglingPointer code) := by
  have hcell : ∀ (expr : Expr) (next : Cell → Except MachineError Answer),
      (∀ cell, next cell ≠ .error (.danglingPointer code)) →
      (expr.cell scope >>= next) ≠ .error (.danglingPointer code) := by
    intro expr next hnext
    rcases hfound : expr.cell scope with error | cell
    · intro h
      exact expr.cell_ne_dangling code (hfound.trans (congrArg Except.error (Except.error.inj h)))
    · exact hnext cell
  cases query with
  | value expr => exact fun h => nomatch h
  | captures expr => exact hcell expr _ fun _ h => nomatch h
  | executableOf expr => exact hcell expr _ fun _ h => nomatch h
  | entity expr => exact hcell expr _ fun _ h => nomatch h
  | contains expr => exact hcell expr _ fun _ h => nomatch h
  | currentCode expr kind => exact hcell expr _ fun _ h => nomatch h
  | link code' index =>
      intro h
      simp only [Query.answer] at h
      rcases hlink : scope.session.machine.link ⟨code'.eval scope, index⟩ with error | link <;>
        rw [hlink] at h
      · exact link_ne_dangling _ _ code (hlink.trans (congrArg Except.error (Except.error.inj h)))
      · cases h
  | block code' =>
      intro h
      simp only [Query.answer] at h
      rcases hblock : scope.session.machine.block (code'.eval scope) with error | block <;>
        rw [hblock] at h
      · exact block_ne_dangling _ _ code
          (hblock.trans (congrArg Except.error (Except.error.inj h)))
      · cases h
  | verifyLinks =>
      intro h
      simp only [Query.answer] at h
      rcases hverify : scope.session.machine.verifyLinks with error | _ <;> rw [hverify] at h
      · refine fault?_ne_dangling hsane.numbered hsane.linked code ?_
        rw [← verifyLinks_eq_error_iff, hverify, Except.error.inj h]
      · cases h
  | cells => exact fun h => nomatch h
  | frame =>
      simp only [Query.answer]
      split <;> exact fun h => nomatch h
  | machine => exact fun h => nomatch h
  | config => exact fun h => nomatch h
  | stats => exact fun h => nomatch h

/-! ### Programs -/

/-- How a call of a script finds its destination. -/
theorem CallExpr.search_cases (call : CallExpr) {before : Machine} (hsane : Sane before) :
    (∃ request : Request, ∀ active, (Execution.mk before active).step request
        = (Execution.mk before active).call (call.search scope)) ∧
      Delivers anyWork before ((call.search scope).exec before) ∧
      ∀ {transfer after}, (call.search scope).exec before = (.ok transfer, after) →
        isLive after transfer.destination = true := by
  rw [CallExpr.search]
  rcases call.caller with kind | ⟨index, tail⟩
  · exact ⟨⟨.hostCall _ _ _ kind, fun _ => rfl⟩, startHostCall_delivers hsane.numbered _ _ _ _,
      startHostCall_lands hsane.numbered⟩
  · exact ⟨⟨.siteCall _, fun _ => rfl⟩,
      startSiteCall_delivers hsane.numbered _ fun _ _ => trivial,
      startSiteCall_lands hsane.numbered hsane.linked⟩

section

variable {invoke : Activation → SessionM Value} {frame : Option Frame} {before : Session}

/-- The entry that a call goes to runs between the request that enters it and the one that finishes
it. -/
theorem Reaches.call {machine entered ran : Machine} {start : MachineM Transfer}
    {request : Request} {activation : Activation} (result : Except MachineError Value)
    (hrequest : ∀ active, (Execution.mk machine active).step request
      = (Execution.mk machine active).call start)
    (hentered : (start >>= enter).exec machine = (.ok activation, entered))
    (hran : Reaches entered ran) :
    Reaches machine ((leave activation result).exec ran).2 := by
  obtain ⟨inside, hinside⟩ := hran
  refine ⟨request :: (inside ++ [.finish result]), fun active => ?_⟩
  have hstep : ((Execution.mk machine active).step request).2
      = ⟨entered, activation :: active⟩ := by
    rw [hrequest, Execution.call, hentered]
  rw [Execution.run, List.foldl_cons, hstep, ← Execution.run, Execution.run_append, hinside]
  rfl

/-- A call that does not enter is one request. -/
theorem Reaches.failed_call {machine : Machine} {start : MachineM Transfer} {request : Request}
    {error : MachineError} {after : Machine}
    (hrequest : ∀ active, (Execution.mk machine active).step request
      = (Execution.mk machine active).call start)
    (hfailed : (start >>= enter).exec machine = (.error error, after)) : Reaches machine after := by
  refine ⟨[request], fun active => ?_⟩
  show ((Execution.mk machine active).step request).2 = _
  rw [hrequest, Execution.call, hfailed]

theorem Caller.prepare_exec (caller : Caller) (session : Session) :
    ∃ log, caller.prepare.exec session = (.ok ⟨⟩, { session with log }) ∧
      Continues session.log log := by
  unfold Caller.prepare
  split
  · exact ⟨.prepared :: session.log, rfl, .cons LogEntry.not_isDangling_prepared _⟩
  · exact ⟨session.log, rfl, .refl _⟩

theorem CallExpr.run_sound (call : CallExpr) (hsane : Sane before.machine)
    (hinvoke : ∀ activation session, Sane session.machine →
      Sound session ((invoke activation).exec session)) :
    Sound before ((call.run invoke frame).exec before) := by
  have hcases : (∃ request : Request, ∀ active, (Execution.mk before.machine active).step request
      = (Execution.mk before.machine active).call (call.search ⟨before, frame⟩)) ∧ _ :=
    call.search_cases hsane
  obtain ⟨⟨request, hrequest⟩, hdelivers, hlands⟩ := hcases
  have hne := hdelivers.ne_dangling hsane.numbered hsane.linked
  refine .bind_get ?_
  rw [SessionM.exec_bind, CallExpr.start_eq, exec_preparing]
  rcases hstart : (call.search ⟨before, frame⟩).exec before.machine with
    ⟨error | transfer, found⟩ <;> rw [hstart] at hdelivers hne <;> dsimp only
  · have hfailed : (call.search ⟨before, frame⟩ >>= enter).exec before.machine
        = (.error error, found) := by
      rw [MachineM.exec_bind, hstart]
    exact ⟨.failed_call hrequest hfailed,
      fun code h => hne code (congrArg Except.error (Except.error.inj h)), .refl _⟩
  · obtain ⟨log, hprepare, hlog⟩ := call.caller.prepare_exec { before with machine := found }
    rw [SessionM.exec_bind, hprepare]
    dsimp only
    rw [SessionM.exec_pure]
    dsimp only
    rw [SessionM.exec_bind, exec_onMachine]
    have henters := enter_ne_dangling (hlands hstart)
    have hchanges : Changes anyWork found ((enter transfer).exec found).2 := enter_changes transfer
    have hcalled : (call.search ⟨before, frame⟩ >>= enter).exec before.machine
        = (enter transfer).exec found := by
      rw [MachineM.exec_bind, hstart]
    rcases henter : (enter transfer).exec found with ⟨error | activation, entered⟩ <;>
      rw [henter] at henters hchanges hcalled <;> dsimp only
    · exact ⟨.failed_call hrequest hcalled,
        fun code h => henters code (congrArg Except.error (Except.error.inj h)), hlog⟩
    · have hentered := (hdelivers.changes.trans hchanges).linked hsane.numbered hsane.linked
      have hran := hinvoke activation { before with machine := entered, log }
        ⟨hentered.1, hentered.2⟩
      rw [SessionM.exec_bind, exec_attempt]
      refine ⟨.call _ hrequest hcalled hran.reaches, fun code h => ?_, hlog.trans hran.log⟩
      exact hran.result code (leave_error h)

theorem runLoop_sound {body : SessionM (Option Value)}
    (hbody : ∀ session, Sane session.machine → Sound session (body.exec session)) (count : Nat)
    (hsane : Sane before.machine) : Sound before ((runLoop body count).exec before) := by
  induction count generalizing before with
  | zero => exact .ok rfl rfl
  | succ count ih =>
      refine .bind hsane (hbody before hsane) fun value after _ hafter => ?_
      rcases value with _ | value
      · exact ih hafter
      · exact .ok rfl rfl

section

variable (hinvoke : ∀ activation session, Sane session.machine →
  Sound session ((invoke activation).exec session))
include hinvoke

theorem Op.run_sound (op : Op) (hsane : Sane before.machine) :
    Sound before ((op.run invoke frame).exec before) := by
  refine .bind_get ?_
  cases op with
  | command order =>
      have hserved : Served before.machine ((order.run ⟨before, frame⟩).exec before.machine) :=
        order.run_served hsane
      exact .onMachine hserved.reaches hserved.result
  | query question =>
      exact .onMachine (.refl _) (question.answer_ne_dangling hsane)
  | call request =>
      show Sound before ((Answer.value <$> request.run invoke frame).exec before)
      rw [map_eq_pure_bind]
      exact .bind hsane (request.run_sound hsane hinvoke) fun _ _ _ _ => .ok rfl rfl

theorem Step.run_sound (step : Step) (hsane : Sane before.machine) :
    Sound before ((step.run invoke frame).exec before) := by
  refine .bind hsane (step.op.run_sound hinvoke hsane) fun answer after _ _ => ?_
  have hnamed : ∀ name, Sound after (.ok PUnit.unit, after.bind name answer) := by
    intro name
    unfold Session.bind
    split <;> exact .ok rfl rfl
  rcases step.name with _ | name
  · exact .ok rfl rfl
  · exact .bind_modify (hnamed name) (.ok rfl rfl)

theorem Step.runLogged_sound (step : Step) (caught : Bool) (hsane : Sane before.machine) :
    Sound before ((step.runLogged invoke frame caught).exec before) := by
  have hstep : Sound before ((step.run invoke frame).exec before) := step.run_sound hinvoke hsane
  refine .bind hsane (.attempt hstep) fun result after hrun _ => ?_
  rw [exec_attempt, Prod.mk.injEq] at hrun
  obtain ⟨hresult, rfl⟩ := hrun
  have hne : ∀ code, result ≠ .error (.danglingPointer code) := by
    rw [← Except.ok.inj hresult]
    exact hstep.result
  refine .bind_modify ⟨.refl _, fun _ h => (nomatch h), .cons ?_ _⟩ ?_
  · rintro ⟨_, code, heq⟩
    exact hne code (LogEntry.done.inj heq).2
  · rcases result with error | _
    · dsimp only
      split
      · exact .ok rfl rfl
      · exact ⟨.refl _, fun code h => hne code (congrArg Except.error (Except.error.inj h)),
          .refl _⟩
    · exact .ok rfl rfl

end

mutual

theorem Instr.run_sound
    (hinvoke : ∀ activation session, Sane session.machine →
      Sound session ((invoke activation).exec session))
    (instr : Instr) (session : Session) (hsane : Sane session.machine) :
    Sound session ((Instr.run invoke frame instr).exec session) := by
  cases instr with
  | ret expr =>
      rw [Instr.run]
      exact .bind_get (.ok rfl rfl)
  | fail message =>
      rw [Instr.run]
      exact ⟨.refl _, fun _ h => (nomatch h), .refl _⟩
  | loop count body =>
      rw [Instr.run]
      exact runLoop_sound (fun session => Instr.runAll_sound hinvoke body session) count hsane
  | «when» expr body =>
      rw [Instr.run]
      refine .bind_get ?_
      dsimp only
      split
      · exact .ok rfl rfl
      · exact Instr.runAll_sound hinvoke body session hsane
  | step action caught =>
      rw [Instr.run]
      exact .bind hsane (action.runLogged_sound hinvoke caught hsane) fun _ _ _ _ => .ok rfl rfl

theorem Instr.runAll_sound
    (hinvoke : ∀ activation session, Sane session.machine →
      Sound session ((invoke activation).exec session))
    (instrs : List Instr) (session : Session) (hsane : Sane session.machine) :
    Sound session ((Instr.runAll invoke frame instrs).exec session) := by
  cases instrs with
  | nil =>
      rw [Instr.runAll]
      exact .ok rfl rfl
  | cons instr rest =>
      rw [Instr.runAll]
      refine .bind hsane (Instr.run_sound hinvoke instr session hsane)
        fun value after _ hafter => ?_
      rcases value with _ | value
      · exact Instr.runAll_sound hinvoke rest after hafter
      · exact .ok rfl rfl

end

end

theorem note_entered_sound (session : Session) (activation : Activation) :
    Sound session (.ok PUnit.unit, session.note (.entered activation.entry activation.frame)) :=
  ⟨.refl _, fun _ h => (nomatch h), .cons (LogEntry.not_isDangling_entered _ _) _⟩

/-- An entry begins by logging that it has been entered. -/
theorem runEntry_noted (depth : Nat) (activation : Activation) (session : Session)
    (hsane : Sane session.machine) :
    Sound (session.note (.entered activation.entry activation.frame))
      ((runEntry depth activation).exec session) := by
  induction depth generalizing activation session with
  | zero =>
      rw [runEntry, SessionM.exec_bind, SessionM.exec_modify]
      exact ⟨.refl _, fun _ h => (nomatch h), .refl _⟩
  | succ depth ih =>
      have hinvoke : ∀ activation session, Sane session.machine →
          Sound session ((runEntry depth activation).exec session) :=
        fun activation session hsane =>
          (note_entered_sound session activation).after_sound (ih activation session hsane)
      rw [runEntry, SessionM.exec_bind, SessionM.exec_modify]
      refine .bind_get (.bind (by exact hsane) ?_ fun _ _ _ _ => .ok rfl rfl)
      exact Instr.runAll_sound hinvoke _ _ (by exact hsane)

theorem runEntry_sound (depth : Nat) (activation : Activation) (session : Session)
    (hsane : Sane session.machine) :
    Sound session ((runEntry depth activation).exec session) :=
  (note_entered_sound session activation).after_sound
    (runEntry_noted depth activation session hsane)

/-- An operation of the host drives the machine by requests, and neither it nor any operation of a
program that runs inside it meets a dangling pointer. -/
theorem perform_sound (session : Session) (step : Step) (hsane : Sane session.machine) :
    Reaches session.machine (session.perform step).2.machine ∧
      (∀ code, (session.perform step).1 ≠ .error (.danglingPointer code)) ∧
      ∀ entry ∈ (session.perform step).2.log, ¬ entry.IsDangling := by
  have hcleared := Reaches.order session.machine .takeEvents
  have hsound : Sound { session with log := [], machine := { session.machine with events := [] } }
      (session.perform step) :=
    step.run_sound (runEntry_sound depthLimit) (hcleared.sane hsane)
  obtain ⟨added, hlog, hnone⟩ := hsound.log
  rw [List.append_nil] at hlog
  exact ⟨hcleared.trans hsound.reaches, hsound.result,
    fun entry hentry => hnone entry (hlog ▸ hentry)⟩

/-! ### Every reachable state -/

theorem sane_of_reachable {config : Config} {execution : Execution}
    (h : execution.Reachable config) : Sane execution.machine := by
  obtain ⟨machine, requests, hcreate, rfl⟩ := h
  have hlinked := Execution.linked_run ⟨machine, []⟩ requests
    (Machine.numbered_of_create hcreate) (Machine.linked_of_create hcreate)
  exact ⟨hlinked.1, hlinked.2⟩

/-- In every state that a new machine can get into, a block that a link targets is there and has the
site of the link on its incoming list. So no request fails with a dangling pointer, unless it hands
on the failure of an entry, and no script meets one at any depth. -/
theorem targets_live_and_incoming {config : Config} {execution : Execution}
    (h : execution.Reachable config) :
    (∀ site link code, execution.machine.code.link? site = some link → link.targets code = true →
      ∃ block, execution.machine.code.get? code = some block ∧ site ∈ block.incoming) ∧
    (∀ request code,
      (execution.step request).1 ≠ .answered (.error (.danglingPointer code)) ∧
      ((execution.step request).1 = .returned (.error (.danglingPointer code)) →
        request = .finish (.error (.danglingPointer code)))) ∧
    ∀ (session : Session) (step : Step), session.machine = execution.machine →
      (∃ requests, (session.perform step).2.machine = (execution.run requests).machine) ∧
      (∀ code, (session.perform step).1 ≠ .error (.danglingPointer code)) ∧
      ∀ op code, .done op (.error (.danglingPointer code)) ∉ (session.perform step).2.log := by
  have hsane := sane_of_reachable h
  refine ⟨fun site link code hlink htargets => ?_,
    fun request code => execution.step_ne_dangling request hsane.numbered hsane.linked code,
    fun session step hmachine => ?_⟩
  · obtain ⟨route, hroute, rfl⟩ := Link.targets_iff.mp htargets
    obtain ⟨block, hblock, hentry⟩ := hsane.linked.incoming hlink route hroute
    exact ⟨block, hblock, hentry.resolve_right not_false⟩
  · obtain ⟨⟨requests, hrun⟩, hresult, hlog⟩ := perform_sound session step (hmachine ▸ hsane)
    refine ⟨⟨requests, ?_⟩, hresult, fun op code hentry => hlog _ hentry ⟨op, code, rfl⟩⟩
    have hsame := hrun execution.active
    rw [hmachine] at hsame
    exact (congrArg Execution.machine hsame).symm

/-- A call from one function to another, up to the point where the second function runs. -/
def callingRequests : List Request :=
  [.order (.allocateExecutable
     { name := "caller"
       entry := ⟨0⟩
       sites := [⟨.call, 0⟩] }),
   .order (.allocateExecutable { name := "callee", entry := ⟨1⟩ }),
   .order (.createClosure ⟨0, 0⟩ {} []),
   .order (.createClosure ⟨1, 0⟩ {} []),
   .hostCall (.cell ⟨2, 0⟩) .undefined [] .call,
   .siteCall ⟨⟨⟨1⟩, 0⟩, .cell ⟨3, 0⟩, .undefined, [], false⟩]

theorem targets_live_and_incoming_while_calling :
    ∃ (execution : Execution) (link : Link) (block : Block), execution.Reachable {} ∧
      execution.machine.code.link? ⟨⟨1⟩, 0⟩ = some link ∧ link.targets ⟨2⟩ = true ∧
      execution.machine.code.get? ⟨2⟩ = some block ∧ ⟨⟨1⟩, 0⟩ ∈ block.incoming := by
  have hreachable : Execution.Reachable {} ((Execution.mk
      { config := {}, heap := { settings := ({} : Config).heapSettings } } []).run
        callingRequests) :=
    ⟨_, callingRequests, rfl, rfl⟩
  generalize hexecution : (Execution.mk _ []).run callingRequests = execution at hreachable
  have hlinked :
      (execution.machine.code.link? ⟨⟨1⟩, 0⟩).any (fun link => link.targets ⟨2⟩) = true := by
    rw [← hexecution]
    decide
  rcases hlink : execution.machine.code.link? ⟨⟨1⟩, 0⟩ with _ | link <;> rw [hlink] at hlinked
  · cases hlinked
  · obtain ⟨block, hblock, hincoming⟩ :=
      (targets_live_and_incoming hreachable).1 _ link ⟨2⟩ hlink hlinked
    exact ⟨execution, link, block, hreachable, hlink, hlinked, hblock, hincoming⟩

end InlineCache.Script
