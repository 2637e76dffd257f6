import InlineCache.Proofs.Machine.Calls
import InlineCache.Script.Session

/-!
# Executions

A machine is driven by requests, one after the other, from the host or from the entries that run.
A call that finds its destination makes an activation; the requests that follow are those of its
entry, until one of them finishes the activation. Calls nest as activations do, so a list of
requests is any interleaving of operations at any depth.
-/

namespace InlineCache

/-- An operation that is not a call. -/
inductive Order where
  | allocateExecutable (template : Executable)
  | createClosure (executable : Cell) (realm : Realm) (captures : List Value)
  | createObject (handler : Option Entry)
  | addRoot (cell : Cell)
  | removeRoot (cell : Cell)
  | compile (function : Cell) (kind : Specialization)
  | replace (old : CodeId) (entry : Entry) (tier : Tier)
  | jettison (code : CodeId)
  | disallowStubs (site : SiteRef)
  | safepoint
  | collect
  | writeBarrier (owner target : Cell)
  | takeEvents
deriving DecidableEq, Repr

inductive Request where
  | order (order : Order)
  | hostCall (callee receiver : Value) (arguments : List Value) (kind : Specialization)
  | siteCall (call : SiteCall)
  /-- The entry of the innermost activation has run, with this result. -/
  | finish (result : Except MachineError Value)

inductive Reply where
  | answered (result : Except MachineError Script.Answer)
  /-- A call has entered. -/
  | entered (activation : Activation)
  /-- A call has ended: it could not enter, or its entry has run. -/
  | returned (result : Except MachineError Value)
  /-- There was no activation to finish. -/
  | refused

/-- The block that a call has entered, if it has. -/
def Reply.enteredBlock? : Reply → Option CodeId
  | .entered activation => some activation.frame.block
  | _ => none

/-- A machine with the activations of the calls in progress, the innermost first. -/
structure Execution where
  machine : Machine
  active : List Activation := []

namespace Order

open Script

def run : Order → MachineM Answer
  | .allocateExecutable template => Answer.cell <$> MachineM.allocateExecutable template
  | .createClosure executable realm captures =>
    Answer.cell <$> MachineM.createClosure executable realm captures
  | .createObject handler => Answer.cell <$> MachineM.allocate (.object handler)
  | .addRoot cell => (fun _ => Answer.nothing) <$> modify fun machine => machine.addRoot cell
  | .removeRoot cell => (fun _ => Answer.nothing) <$> modify fun machine => machine.removeRoot cell
  | .compile function kind => Answer.code <$> MachineM.compileFunction function kind
  | .replace old entry tier => Answer.code <$> MachineM.replaceCode old entry tier
  | .jettison code => (fun _ => Answer.nothing) <$> MachineM.jettisonCode code
  | .disallowStubs site => (fun _ => Answer.nothing) <$> MachineM.disallowStubs site
  | .safepoint => (fun _ => Answer.nothing) <$> MachineM.safepoint
  | .collect => Answer.collected <$> MachineM.collect
  | .writeBarrier owner target => (fun _ => Answer.nothing) <$> modify fun machine =>
      { machine with heap := machine.heap.writeBarrier owner target }
  | .takeEvents => (fun _ => Answer.nothing) <$> modify fun machine => { machine with events := [] }

end Order

/-- The cell of an executable that a request allocates with the code that it brings along. -/
def Request.adopts (machine : Machine) : Request → List Cell
  | .order (.allocateExecutable template) =>
    if template.isCompiled then [(machine.heap.allocate (.executable template)).1] else []
  | _ => []

/-- Does a request need some work to be done? -/
def Request.needs (machine : Machine) : Request → Work → Prop
  | .order .collect, .collecting => True
  | .order .safepoint, .collecting =>
    machine.heap.isMarking = true ∨ machine.heap.shouldCollect = true
  | .siteCall call, .collecting => (machine.arrive? call).isSome = true ∧
    (machine.heap.isMarking = true ∨ machine.heap.shouldCollect = true)
  | .order (.replace old _ _), .replacing current shared =>
    ∃ block, machine.code.get? old = some block ∧ machine.isCurrent block = current ∧
      machine.isShared block = shared
  | request, .adopting cell => cell ∈ request.adopts machine
  | _, _ => False

theorem Request.needs_adopting {machine : Machine} {request : Request} {cell : Cell} :
    request.needs machine (.adopting cell) ↔ cell ∈ request.adopts machine := by
  rcases request with order | _ | _ | _
  · cases order <;> rfl
  all_goals rfl

namespace Execution

/-- Make a call, once it is known how it finds its destination. -/
def call (execution : Execution) (start : MachineM Transfer) : Reply × Execution :=
  match (start >>= MachineM.enter).exec execution.machine with
  | (.ok activation, machine) =>
    (.entered activation, { machine, active := activation :: execution.active })
  | (.error error, machine) => (.returned (.error error), { execution with machine })

def step (execution : Execution) : Request → Reply × Execution
  | .order order =>
    let (result, machine) := order.run.exec execution.machine
    (.answered result, { execution with machine })
  | .hostCall callee receiver arguments kind =>
    execution.call (MachineM.startHostCall callee receiver arguments kind)
  | .siteCall request => execution.call (MachineM.startSiteCall request)
  | .finish result =>
    match execution.active with
    | [] => (.refused, execution)
    | activation :: outer =>
      let (result, machine) := (MachineM.leave activation result).exec execution.machine
      (.returned result, { machine, active := outer })

def run (execution : Execution) (requests : List Request) : Execution :=
  requests.foldl (fun execution request => (execution.step request).2) execution

/-- The executables that brought code along when a run allocated them. -/
def adopters (execution : Execution) : List Request → List Cell
  | [] => []
  | request :: rest =>
    request.adopts execution.machine ++ adopters (execution.step request).2 rest

/-- The execution comes about from a new machine. -/
def Reachable (config : Config) (execution : Execution) : Prop :=
  ∃ machine requests, Machine.create config = .ok machine ∧
    execution = (Execution.mk machine []).run requests

theorem run_append (execution : Execution) (first second : List Request) :
    execution.run (first ++ second) = (execution.run first).run second := List.foldl_append

theorem Reachable.step {config : Config} {execution : Execution} (h : execution.Reachable config)
    (request : Request) : (execution.step request).2.Reachable config := by
  obtain ⟨machine, requests, hcreate, rfl⟩ := h
  refine ⟨machine, requests ++ [request], hcreate, ?_⟩
  rw [run_append]
  rfl

end Execution

/-! ### Requests as chains of changes -/

open Machine MachineM

variable {may : Work → Prop} {before : Machine}

theorem Order.run_delivers (order : Order)
    (hclosure : ∀ executable realm captures, order ≠ .createClosure executable realm captures)
    (hmay : ∀ work, (Request.order order).needs before work → may work) :
    Delivers may before (order.run.exec before) := by
  cases order with
  | allocateExecutable template =>
      refine .map _ (.ok (.single (.allocation (.executable template) trivial fun hcode => ?_)))
      refine hmay _ ?_
      rw [Request.needs_adopting, Request.adopts, if_pos (by exact hcode)]
      exact List.mem_singleton_self _
  | createClosure executable realm captures => exact absurd rfl (hclosure executable realm captures)
  | createObject handler => exact .map _ (.ok (.single (.object handler)))
  | addRoot cell => exact .map _ (.ok (.bookkeeping rfl))
  | removeRoot cell =>
      refine .map _ (.ok (.bookkeeping ?_))
      show (before.removeRoot cell).store = before.store
      unfold Machine.removeRoot
      split <;> rfl
  | compile function kind => exact .map _ (compileFunction_delivers function kind)
  | replace old entry tier =>
      exact .map _ (replaceCode_delivers entry tier fun block hblock =>
        hmay _ ⟨block, hblock, rfl, rfl⟩)
  | jettison code => exact .map _ (jettisonCode_delivers code)
  | disallowStubs site => exact .map _ (disallowStubs_delivers site)
  | safepoint => exact .map _ (safepoint_delivers (hmay .collecting))
  | collect => exact .map _ (collect_delivers (hmay .collecting trivial))
  | writeBarrier owner target => exact .map _ (.ok (.single (.barrier owner target)))
  | takeEvents => exact .map _ (.ok (.bookkeeping rfl))

namespace Execution

theorem call_machine (execution : Execution) (start : MachineM Transfer) :
    (execution.call start).2.machine = ((start >>= enter).exec execution.machine).2 := by
  rw [call]
  rcases (start >>= enter).exec execution.machine with ⟨_ | _, _⟩ <;> rfl

theorem call_eq_entered_iff {execution : Execution} {start : MachineM Transfer}
    {activation : Activation} : (execution.call start).1 = .entered activation ↔
      ((start >>= enter).exec execution.machine).1 = .ok activation := by
  rw [call]
  rcases (start >>= enter).exec execution.machine with ⟨_ | _, _⟩ <;> simp

theorem call_changes (execution : Execution) {start : MachineM Transfer} {origin : Machine}
    (h : Delivers may origin (start.exec execution.machine)) :
    Changes may origin (execution.call start).2.machine := by
  rw [call_machine, exec_bind]
  rcases hrun : start.exec execution.machine with ⟨error | transfer, found⟩ <;> rw [hrun] at h
  · exact h.changes
  · exact h.changes.trans (enter_changes transfer)

/-- A request makes a closure of a live executable, or a chain of changes. -/
theorem step_cases (execution : Execution) (request : Request)
    (hnumbered : execution.machine.code.Numbered)
    (hmay : ∀ work, request.needs execution.machine work → may work) :
    (∃ closure : Closure, request
        = .order (.createClosure closure.executable closure.realm closure.captures) ∧
      (∃ executable, execution.machine.heap.executable? closure.executable = some executable) ∧
      (execution.step request).1
        = .answered (.ok (.cell (execution.machine.heap.allocate (.function closure)).1)) ∧
      (execution.step request).2
        = { execution with machine := execution.machine.withCell (.function closure) }) ∨
    Changes may execution.machine (execution.step request).2.machine := by
  cases request with
  | order order =>
      by_cases hclosure : ∃ executable realm captures,
          order = .createClosure executable realm captures
      · obtain ⟨cell, realm, captures, rfl⟩ := hclosure
        rcases hexecutable : execution.machine.heap.executable? cell with _ | executable
        · right
          refine .bookkeeping ?_
          simp only [step, Order.run, exec_map, createClosure, exec_bind, exec_discard,
            MachineM.executable, exec_look, Machine.executable, hexecutable]
          rfl
        · left
          refine ⟨⟨cell, realm, captures⟩, rfl, ⟨executable, hexecutable⟩, ?_, ?_⟩ <;>
          · simp only [step, Order.run, exec_map, createClosure, exec_bind, exec_discard,
              MachineM.executable, exec_look, Machine.executable, hexecutable]
            rfl
      · right
        refine (order.run_delivers (fun executable realm captures heq => ?_) hmay).changes
        exact hclosure ⟨executable, realm, captures, heq⟩
  | hostCall callee receiver arguments kind =>
      exact .inr (call_changes execution
        (startHostCall_delivers hnumbered callee receiver arguments kind))
  | siteCall site =>
      exact .inr (call_changes execution (startSiteCall_delivers hnumbered site
        fun harrive hdue => hmay .collecting ⟨harrive, hdue⟩))
  | finish result =>
      right
      rw [step]
      rcases execution.active with _ | ⟨activation, outer⟩
      · exact .refl _
      · exact leave_changes activation result

/-- What holds of a machine and is preserved by every change, and by the making of closures, is
preserved by every request. -/
theorem step_preserves (invariant : Machine → Prop)
    (hchange : ∀ {before after}, before.code.Numbered → Change may before after →
      invariant before → invariant after)
    (hclosure : ∀ {before closure executable}, before.code.Numbered →
      before.heap.executable? closure.executable = some executable →
      invariant before → invariant (before.withCell (.function closure)))
    (execution : Execution) (request : Request) (hnumbered : execution.machine.code.Numbered)
    (hmay : ∀ work, request.needs execution.machine work → may work)
    (h : invariant execution.machine) :
    (execution.step request).2.machine.code.Numbered ∧
      invariant (execution.step request).2.machine := by
  rcases execution.step_cases request hnumbered hmay with
    ⟨closure, _, ⟨executable, hexecutable⟩, _, hstep⟩ | hchanges
  · rw [hstep]
    exact ⟨hnumbered, hclosure hnumbered hexecutable h⟩
  · have hboth : ∀ {before after : Machine}, Change may before after →
        before.code.Numbered ∧ invariant before → after.code.Numbered ∧ invariant after := by
      rintro before after hstep ⟨hbefore, hinvariant⟩
      exact ⟨(hstep.evolves hbefore).numbered hbefore, hchange hbefore hstep hinvariant⟩
    exact hchanges.preserves (fun machine => machine.code.Numbered ∧ invariant machine) hboth
      ⟨hnumbered, h⟩

theorem adoptingIn_of_needs {adopters : List Cell} {machine : Machine} {request : Request}
    (hadopts : request.adopts machine ⊆ adopters) (work : Work)
    (hneeds : request.needs machine work) : adoptingIn adopters work := by
  rintro cell rfl
  exact hadopts (Request.needs_adopting.mp hneeds)

/-- What every change of a run and the making of closures preserve holds after the run. -/
theorem run_preserves_adopting {adopters : List Cell} (invariant : Machine → Prop)
    (hchange : ∀ {before after}, before.code.Numbered → Change (adoptingIn adopters) before after →
      invariant before → invariant after)
    (hclosure : ∀ {before closure executable}, before.code.Numbered →
      before.heap.executable? closure.executable = some executable →
      invariant before → invariant (before.withCell (.function closure)))
    (execution : Execution) (requests : List Request)
    (hadopts : execution.adopters requests ⊆ adopters)
    (hnumbered : execution.machine.code.Numbered) (h : invariant execution.machine) :
    (execution.run requests).machine.code.Numbered ∧
      invariant (execution.run requests).machine := by
  induction requests generalizing execution with
  | nil => exact ⟨hnumbered, h⟩
  | cons request rest ih =>
      obtain ⟨hfirst, hrest⟩ := List.append_subset.mp hadopts
      have hstep := step_preserves invariant hchange hclosure execution request hnumbered
        (adoptingIn_of_needs hfirst) h
      exact ih (execution.step request).2 hrest hstep.1 hstep.2

theorem run_preserves (invariant : Machine → Prop)
    (hchange : ∀ {before after}, before.code.Numbered → Change anyWork before after →
      invariant before → invariant after)
    (hclosure : ∀ {before closure executable}, before.code.Numbered →
      before.heap.executable? closure.executable = some executable →
      invariant before → invariant (before.withCell (.function closure)))
    (execution : Execution) (requests : List Request)
    (hnumbered : execution.machine.code.Numbered) (h : invariant execution.machine) :
    (execution.run requests).machine.code.Numbered ∧
      invariant (execution.run requests).machine :=
  run_preserves_adopting invariant
    (fun hbefore hstep => hchange hbefore (hstep.mono fun _ _ => trivial)) hclosure execution
    requests (List.Subset.refl _) hnumbered h

theorem config_run (execution : Execution) (requests : List Request)
    (hnumbered : execution.machine.code.Numbered) :
    (execution.run requests).machine.config = execution.machine.config :=
  (run_preserves (fun machine => machine.config = execution.machine.config)
    (fun _ hchange hconfig => hchange.config_eq.trans hconfig) (fun _ _ hconfig => hconfig)
    execution requests hnumbered rfl).2

end Execution

theorem Machine.create_eq_ok {config : Config} {machine : Machine}
    (h : Machine.create config = .ok machine) :
    machine = { config, heap := { settings := config.heapSettings } } := by
  rw [Machine.create] at h
  rcases hcheck : config.check with error | _ <;> rw [hcheck] at h
  · cases h
  · exact (Except.ok.inj h).symm

theorem Setting.range_of_checks {config : Config} {settings : List Setting} {setting : Setting}
    (h : settings.forM (fun setting => setting.check config) = .ok ()) (hmem : setting ∈ settings) :
    setting.least ≤ setting.read config ∧ setting.read config ≤ setting.greatest := by
  induction settings with
  | nil => cases hmem
  | cons first rest ih =>
      rw [List.forM] at h
      rcases hfirst : first.check config with error | _ <;> rw [hfirst] at h
      · cases h
      · rcases List.mem_cons.mp hmem with rfl | hrest
        · rw [check] at hfirst
          split at hfirst
          · assumption
          · cases hfirst
        · exact ih h hrest

theorem Machine.numbered_of_create {config : Config} {machine : Machine}
    (h : Machine.create config = .ok machine) : machine.code.Numbered := by
  rw [Machine.create_eq_ok h]
  exact ⟨List.Pairwise.nil, fun _ hmem => nomatch hmem⟩

end InlineCache
