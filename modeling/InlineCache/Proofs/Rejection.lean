import InlineCache.Proofs.Currency
import InlineCache.Proofs.Realms
import InlineCache.Proofs.Script.Reach

/-!
# Calls of what cannot be called

A call at a site that is not linked directly may name a cell that cannot be called: the cell is
gone, it is no function and has no handler, its executable is gone, or it cannot construct. The slot
never serves such a callee, since the code that a slot points to has its executable. So the callee
is resolved, which fails before anything is compiled, linked or entered. What is left of the call is
counted, and noted in the record of the site.
-/

namespace InlineCache

/-- Resolution turns the callee down with this error. -/
inductive Heap.Rejects (heap : Heap Entity) (callee : Cell) (kind : Specialization) :
    MachineError → Prop where
  | dead (hget : heap.get? callee = none) : Rejects heap callee kind (.deadCell callee)
  | object (hget : heap.get? callee = some (.object none)) :
      Rejects heap callee kind (.notCallable "object" kind)
  | executable {found : Executable} (hget : heap.get? callee = some (.executable found)) :
      Rejects heap callee kind (.notCallable "executable" kind)
  /-- The function has lost its executable. -/
  | orphan {closure : Closure} (hget : heap.get? callee = some (.function closure))
      (hgone : heap.executable? closure.executable = none) :
      Rejects heap callee kind (.deadCell closure.executable)
  | notConstructible {closure : Closure} {executable : Executable}
      (hget : heap.get? callee = some (.function closure))
      (hexecutable : heap.executable? closure.executable = some executable)
      (hkind : kind = .construct) (hcannot : executable.constructible = false) :
      Rejects heap callee kind (.notCallable executable.name kind)

theorem Link.Agrees.fast?_of_direct {link : Link} {heap : Heap Entity} {callee : Cell}
    (h : link.Agrees) (hdirect : link.isDirect = true) (hmode : link.mode ≠ .linkedDirect) :
    link.site.target.fast? heap callee = none := by
  unfold Link.Agrees at h
  rw [Link.mode] at hmode
  rcases hstate : link.state with _ | _ | _ | _ | _ <;> rw [hstate] at h hmode <;> dsimp only at h
  · rw [h]
    rfl
  · rw [h.1] at hdirect
    cases hdirect
  · rw [h.1] at hdirect
    cases hdirect
  · rw [h]
    rfl
  · exact absurd rfl hmode

namespace Machine

open CodeTable Heap

variable {machine : Machine} {overtaken : List CodeId} {adopters : List Cell} {site : SiteRef}
  {link : Link} {callee : Cell} {kind : Specialization} {error : MachineError}

/-! ### The slot does not serve the callee -/

theorem Suits.not_rejects {cell : Cell} (h : machine.Suits cell kind)
    (hcallee : machine.heap.executableOf? callee = some cell) :
    ¬ machine.heap.Rejects callee kind error := by
  obtain ⟨executable, hexecutable, hconstruct⟩ := h
  obtain ⟨closure, hclosure, hsame⟩ := Option.map_eq_some_iff.mp hcallee
  have hget := closure?_eq_some_iff.mp hclosure
  intro hrejects
  cases hrejects with
  | dead hnone => simp [hget] at hnone
  | object hobject => simp [hget] at hobject
  | executable hother => simp [hget] at hother
  | orphan hfound hgone =>
      obtain rfl := Entity.function.inj (Option.some.inj (hget.symm.trans hfound))
      rw [hsame, hexecutable] at hgone
      cases hgone
  | notConstructible hfound hother hfor hcannot =>
      obtain rfl := Entity.function.inj (Option.some.inj (hget.symm.trans hfound))
      rw [hsame, hexecutable] at hother
      obtain rfl := Option.some.inj hother
      rw [hconstruct hfor] at hcannot
      cases hcannot

/-- A site that is not linked directly does not send a callee anywhere that cannot be called, unless
the executable of the callee brought code along. -/
theorem Current.fast?_of_rejects (hcurrent : machine.Current adopters overtaken)
    (hlinked : machine.code.Linked) (haddressable : machine.heap.Addressable)
    (hlink : machine.code.link? site = some link) (hmode : link.mode ≠ .linkedDirect)
    (hplain : ∀ closure, machine.heap.get? callee = some (.function closure) →
      closure.executable ∉ adopters)
    (hrejects : machine.heap.Rejects callee link.callType.specialization error) :
    link.site.target.fast? machine.heap callee = none := by
  have hagrees := hlinked.agrees hlink
  rcases hdirect : link.isDirect
  · -- The slot would serve the callee by a route, and the code of a route suits the callees of it.
    by_contra hserved
    obtain ⟨pointer, hfast⟩ := Option.ne_none_iff_exists'.mp hserved
    obtain ⟨guard, hroute, hcallee⟩ := hagrees.route_of_fast? hdirect hfast
    obtain ⟨block, _, _, executable, hnames, hown⟩ :=
      (hcurrent.placed haddressable).block hlink _ hroute
    have hexecutable := hcallee _ hnames
    obtain ⟨closure, hclosure, rfl⟩ := Option.map_eq_some_iff.mp hexecutable
    obtain ⟨howner, hkind, hfits⟩ := hown (hplain closure (closure?_eq_some_iff.mp hclosure))
    have hsuits : machine.Suits block.owner block.kind := hfits.elim Serves.suits And.right
    rw [howner, hkind] at hsuits
    exact hsuits.not_rejects hexecutable hrejects
  · exact hagrees.fast?_of_direct hdirect hmode

/-! ### What is left of the call -/

/-- The machines differ in three counters, and in what the record of one site says of the calls that
its slot did not serve. -/
def OnlyCounts (before : Machine) (site : SiteRef) (link : Link) (after : Machine) : Prop :=
  ∃ slow virtual errors count seen last, after =
    { before with
      stats := { before.stats with
        slowPathCalls := slow, virtualCalls := virtual, typeErrors := errors }
      code := before.code.setLink site
        { link with slowPathCount := count, seenOnce := seen, lastCallee := last } }

end Machine

namespace MachineM

open Machine

variable {machine safe : Machine} {site : SiteRef} {link : Link} {callee : Cell}
  {kind : Specialization} {error : MachineError} {call : Call} {request : SiteCall}

theorem exec_resolve_of_rejects (h : machine.heap.Rejects callee kind error) :
    ∃ errors, (resolve callee kind).exec machine =
      (.error error, { machine with stats := { machine.stats with typeErrors := errors } }) := by
  rw [resolve, exec_bind, exec_get]
  dsimp only
  cases h with
  | dead hget =>
      rw [hget]
      exact ⟨_, rfl⟩
  | object hget =>
      rw [hget]
      dsimp only
      rw [exec_notCallable, describe, hget]
      exact ⟨_, rfl⟩
  | executable hget =>
      rw [hget]
      dsimp only
      rw [exec_notCallable, describe, hget]
      exact ⟨_, rfl⟩
  | @orphan closure hget hgone =>
      have hdead : machine.executable closure.executable
          = .error (.deadCell closure.executable) := by rw [Machine.executable, hgone]
      rw [hget]
      dsimp only
      rw [exec_bind, MachineM.executable, exec_look, hdead]
      exact ⟨_, rfl⟩
  | notConstructible hget hexecutable hkind hcannot =>
      rw [hget]
      dsimp only
      rw [exec_bind, MachineM.executable, exec_look, executable_eq_ok_iff.mpr hexecutable]
      dsimp only
      rw [if_pos ⟨hkind, by rw [hcannot]; rfl⟩, exec_notCallable, describe, hget]
      dsimp only
      rw [hexecutable]
      exact ⟨_, rfl⟩

theorem selectGeneric_of_rejects (h : machine.heap.Rejects call.callee call.kind error) :
    ∃ errors, (selectGeneric call).exec machine =
      (.error error, { machine with stats := { machine.stats with typeErrors := errors } }) := by
  obtain ⟨errors, hresolve⟩ := exec_resolve_of_rejects h
  rw [selectGeneric_eq, exec_map, hresolve]
  exact ⟨errors, rfl⟩

/-- The slow path notes the call in the record of the site before it resolves the callee. -/
theorem selectSlow_of_rejects (hlink : machine.code.link? site = some link)
    (h : machine.heap.Rejects call.callee call.kind error) :
    ∃ after, (selectSlow site call).exec machine = (.error error, after) ∧
      machine.OnlyCounts site link after := by
  obtain ⟨counted, hcounted⟩ : ∃ counted : Machine, counted = { machine with stats :=
    { machine.stats with slowPathCalls := tick64 machine.stats.slowPathCalls } } := ⟨_, rfl⟩
  have hfound : counted.link site = .ok link := by
    rw [link_eq_ok_iff, hcounted]
    exact hlink
  have hprofiled : (counted.editLink site { link := link.recordSlowPath call.callee }).heap.Rejects
      call.callee call.kind error := by
    rw [hcounted]
    exact h
  obtain ⟨errors, hresolve⟩ := exec_resolve_of_rejects hprofiled
  refine ⟨_, ?_, tick64 machine.stats.slowPathCalls, machine.stats.virtualCalls, errors,
    tick32 link.slowPathCount, true, .ofCell call.callee, rfl⟩
  rw [selectSlow_eq, exec_bind, exec_modify]
  dsimp only
  rw [← hcounted, exec_bind, MachineM.link, exec_look, hfound]
  dsimp only
  rw [exec_bind, exec_modify]
  dsimp only
  rw [exec_bind, hresolve, hcounted]
  rfl

theorem selectAtSite_of_rejects (hnumbered : machine.code.Numbered)
    (hlink : machine.code.link? site = some link)
    (hmissed : link.site.target.fast? machine.heap call.callee = none)
    (h : machine.heap.Rejects call.callee call.kind error) :
    ∃ after, (selectAtSite site call).exec machine = (.error error, after) ∧
      machine.OnlyCounts site link after := by
  cases selectAtSite_cases site call machine with
  | missing hmissing _ =>
      rw [link_eq_ok_iff.mpr hlink] at hmissing
      cases hmissing
  | slow _ _ houtcome =>
      rw [houtcome]
      exact selectSlow_of_rejects hlink h
  | resolved _ _ houtcome =>
      have hcounted : machine.countVirtual.heap.Rejects call.callee call.kind error := h
      obtain ⟨errors, hgeneric⟩ := selectGeneric_of_rejects hcounted
      rw [houtcome, hgeneric]
      refine ⟨_, rfl, machine.stats.slowPathCalls, tick64 machine.stats.virtualCalls, errors,
        link.slowPathCount, link.seenOnce, link.lastCallee, ?_⟩
      rw [hnumbered.setLink_self hlink]
      rfl
  | served hfound hfast _ =>
      rw [Option.some.inj (hfound.symm.trans hlink), hmissed] at hfast
      cases hfast
  | servedByStub executable hfound hfast _ =>
      rw [Option.some.inj (hfound.symm.trans hlink), hmissed] at hfast
      cases hfast

theorem startSiteCall_of_rejects (h : machine.Sound) (hread : machine.reading? request = some safe)
    (hlink : safe.code.link? request.site = some link) (hcallee : request.callee = .cell callee)
    (hmissed : link.site.target.fast? safe.heap callee = none)
    (hrejects : safe.heap.Rejects callee link.callType.specialization error) :
    ∃ after, safe.OnlyCounts request.site link after ∧ (startSiteCall request).exec machine =
      (.error error, { after with stackRoots := machine.stackRoots }) := by
  have hchanges := reading?_changes hread
  obtain ⟨_, harrive, _⟩ := Option.map_eq_some_iff.mp hread
  obtain ⟨origin, _, horigin, _⟩ := arrive?_eq_some_iff.mp harrive
  rw [hchanges.callType_eq h.numbered horigin hlink] at hrejects
  obtain ⟨after, hselect, hcounts⟩ : ∃ after, (selectAtSite request.site
      (request.call callee origin.callType.specialization)).exec safe = (.error error, after) ∧
      safe.OnlyCounts request.site link after :=
    selectAtSite_of_rejects (hchanges.sound h).numbered hlink hmissed hrejects
  obtain ⟨base, hstart⟩ := exec_startSiteCall_of_reading h hread horigin hcallee
  rw [hselect] at hstart
  have hstarts := startSiteCall_starts request machine
  rw [hstart] at hstarts
  refine ⟨after, hcounts, ?_⟩
  rw [hstart, ← (Prod.mk.inj hstarts).2]
  rfl

end MachineM

theorem Machine.reading?_of_quiet {machine : Machine} {request : SiteCall} {link : Link}
    {callee : Cell} (hlink : machine.code.link? request.site = some link)
    (hcallee : request.callee = .cell callee) (htail : link.callType.isTail = request.tail)
    (hmarking : machine.heap.isMarking = false) (hdue : machine.heap.shouldCollect = false) :
    machine.reading? request = some ((machine.noted request link).pushRoots
      (request.call callee link.callType.specialization).cells) := by
  have harrive := arrive?_eq_some_iff.mpr ⟨link, callee, hlink, hcallee, htail, rfl⟩
  have hheap := arrive?_heap harrive
  rw [reading?, harrive, Option.map_some, MachineM.exec_safepoint, hheap, hmarking, hdue]
  rfl

namespace Execution

open Machine MachineM

variable {config : Config} {machine safe : Machine} {request : SiteCall}

theorem current_reading (hcreate : Machine.create config = .ok machine) (requests : List Request)
    (hread : (run ⟨machine, []⟩ requests).machine.reading? request = some safe) :
    safe.code.Linked ∧ ∃ overtaken, safe.Current (adopters ⟨machine, []⟩ requests) overtaken := by
  have hrule := (Watched.rule_of_create hcreate).run requests (List.Subset.refl _)
  rw [← Watched.run_execution (Watched.mk ⟨machine, []⟩ [])] at hread
  generalize Watched.run _ requests = watched at hrule hread
  obtain ⟨prepared, harrive, rfl⟩ := Option.map_eq_some_iff.mp hread
  have harrived : Stages (Work.KeepsCurrent (adopters ⟨machine, []⟩ requests)) []
      watched.execution.machine prepared := (arrive?_changes harrive).stages
  have hstages := harrived.trans (safepoint_stages (List.nil_subset _))
  obtain ⟨hfaithful, hcurrent⟩ := Stages.preserves_faithful
    (fun machine => machine.Current (adopters ⟨_, []⟩ requests) watched.overtaken)
    (fun _ hmay => hmay) (fun hfaithful hstage => hstage.current hfaithful) hstages
    hrule.faithful hrule.current
  exact ⟨hfaithful.linked, _, hcurrent⟩

end Execution

/-- The call at a site that an expression for a call stands for. -/
def Script.CallExpr.siteCall? (scope : Scope) (call : CallExpr) : Option SiteCall :=
  match call.caller with
  | .host _ => none
  | .site index tail => some
      { site := ⟨scope.block, index⟩
        callee := call.callee.eval scope
        receiver := call.receiver.eval scope
        arguments := call.arguments.flatMap (Item.eval scope)
        tail }

namespace Script

open Machine MachineM

variable {session : Session} {frame : Option Frame} {call : CallExpr} {request : SiteCall}
  {error : MachineError} {after : Machine}

theorem CallExpr.search_of_siteCall? {scope : Scope} (h : call.siteCall? scope = some request) :
    call.search scope = startSiteCall request := by
  rw [siteCall?] at h
  rw [search]
  rcases hcaller : call.caller with kind | ⟨index, tail⟩ <;> rw [hcaller] at h
  · cases h
  · rw [← Option.some.inj h]

theorem CallExpr.run_of_error (invoke : Activation → SessionM Value)
    (hcall : call.siteCall? ⟨session, frame⟩ = some request)
    (hstart : (startSiteCall request).exec session.machine = (.error error, after)) :
    (call.run invoke frame).exec session = (.error error, { session with machine := after }) := by
  rw [CallExpr.run, SessionM.exec_bind, SessionM.exec_get]
  dsimp only
  rw [SessionM.exec_bind, start_eq, exec_preparing, search_of_siteCall? hcall, hstart]

end Script

namespace Execution

open Machine MachineM Script

variable {execution : Execution} {config : Config} {machine safe : Machine} {link : Link}
  {callee : Cell} {error : MachineError} {request : SiteCall}

/-- In every state that a new machine can get into, a call at a site that is not linked directly
fails if its callee cannot be called, and leaves the links alone. Nothing is prepared, and no entry
runs. What has changed since the safepoint of the call is three counters and what the record of the
site says of the calls that the slot did not serve; the stack of roots is as before the call. This
is so as long as every slot of the heap has a handle of its own, unless the callee is a closure of
an executable that brought code along. -/
theorem rejected_call_spares_links (hcreate : Machine.create config = .ok machine)
    (requests : List Request) (hexecution : execution = (Execution.mk machine []).run requests)
    (hread : execution.machine.reading? request = some safe)
    (hlink : safe.code.link? request.site = some link) (hmode : link.mode ≠ .linkedDirect)
    (hcallee : request.callee = .cell callee)
    (hrejects : safe.heap.Rejects callee link.callType.specialization error)
    (haddressable : safe.heap.Addressable)
    (hplain : ∀ closure, safe.heap.get? callee = some (.function closure) →
      closure.executable ∉ adopters ⟨machine, []⟩ requests) :
    ∃ counted, safe.OnlyCounts request.site link counted ∧
      let after := { counted with stackRoots := execution.machine.stackRoots }
      execution.step (.siteCall request)
        = (.returned (.error error), { execution with machine := after }) ∧
      ∀ session frame call invoke, session.machine = execution.machine →
        CallExpr.siteCall? ⟨session, frame⟩ call = some request →
        (call.run invoke frame).exec session
          = (.error error, { session with machine := after }) := by
  have hreachable : execution.Reachable config := ⟨machine, requests, hcreate, hexecution⟩
  have hmissed : link.site.target.fast? safe.heap callee = none := by
    rw [hexecution] at hread
    obtain ⟨hlinked, overtaken, hcurrent⟩ := current_reading hcreate requests hread
    exact hcurrent.fast?_of_rejects hlinked haddressable hlink hmode hplain hrejects
  obtain ⟨counted, hcounts, hstart⟩ :=
    startSiteCall_of_rejects hreachable.sound hread hlink hcallee hmissed hrejects
  refine ⟨counted, hcounts, ?_, fun session frame call invoke hmachine hcall => ?_⟩
  · rw [step, Execution.call, exec_bind, hstart]
  · rw [← hmachine] at hstart ⊢
    exact CallExpr.run_of_error invoke hcall hstart

/-- After calls of two closures of one executable, an object is made that has no handler. -/
def siblingCallsAndObject : List Request :=
  siblingCalls ++ [.order (.createObject none)]

theorem rejected_call_of_object :
    ∃ (execution : Execution) (safe counted : Machine) (link : Link) (session : Session),
      let request : SiteCall := ⟨⟨⟨1⟩, 0⟩, .cell ⟨6, 0⟩, .undefined, [], false⟩
      let call : CallExpr := ⟨.site 0 false, .value (.cell ⟨6, 0⟩), .value .undefined, []⟩
      let frame : Frame := ⟨⟨1⟩, ⟨2, 0⟩, .undefined, [], .call⟩
      let after := { counted with stackRoots := execution.machine.stackRoots }
      let error := MachineError.notCallable "object" .call
      execution.Reachable {} ∧ session.machine = execution.machine ∧
      execution.machine.reading? request = some safe ∧ safe.heap.Addressable ∧
      safe.code.link? request.site = some link ∧ link.mode = .polymorphic ∧
      safe.heap.get? ⟨6, 0⟩ = some (.object none) ∧ safe.OnlyCounts request.site link counted ∧
      execution.step (.siteCall request)
        = (.returned (.error error), { execution with machine := after }) ∧
      (call.run (runEntry depthLimit) (some frame)).exec session
        = (.error error, { session with machine := after }) := by
  obtain ⟨machine, hcreate⟩ : ∃ machine, Machine.create {} = .ok machine := ⟨_, rfl⟩
  have hmachine := create_eq_ok hcreate
  obtain ⟨execution, hexecution⟩ : ∃ execution,
      execution = (Execution.mk machine []).run siblingCallsAndObject := ⟨_, rfl⟩
  have hreachable : execution.Reachable {} := ⟨machine, siblingCallsAndObject, hcreate, hexecution⟩
  obtain ⟨request, hrequest⟩ : ∃ request : SiteCall,
      request = ⟨⟨⟨1⟩, 0⟩, .cell ⟨6, 0⟩, .undefined, [], false⟩ := ⟨_, rfl⟩
  have hsite : (execution.machine.reading? request).any (fun safe =>
      safe.heap.slots.length ≤ UInt32.size ∧ safe.heap.get? ⟨6, 0⟩ = some (.object none) ∧
      (safe.code.link? request.site).any (fun link =>
        link.mode = .polymorphic ∧ link.callType.specialization = .call) = true) = true := by
    rw [hexecution, hmachine, hrequest]
    decide +kernel
  simp only [Option.any_eq_true, decide_eq_true_eq] at hsite
  obtain ⟨safe, hread, haddressable, hobject, link, hlink, hmode, hkind⟩ := hsite
  have hnot : link.mode ≠ .linkedDirect := by
    rw [hmode]
    decide
  have hrejects : safe.heap.Rejects ⟨6, 0⟩ link.callType.specialization
      (.notCallable "object" .call) := by
    rw [hkind]
    exact .object hobject
  have hplain : ∀ closure, safe.heap.get? ⟨6, 0⟩ = some (.function closure) →
      closure.executable ∉ adopters ⟨machine, []⟩ siblingCallsAndObject := by
    intro closure hclosure
    rw [hobject] at hclosure
    cases hclosure
  obtain ⟨counted, hcounts, hstep, hrun⟩ := rejected_call_spares_links hcreate siblingCallsAndObject
    hexecution hread hlink hnot (by rw [hrequest]) hrejects haddressable hplain
  subst hrequest
  exact ⟨execution, safe, counted, link, ⟨execution.machine, [], [], [], []⟩, hreachable, rfl,
    hread, haddressable, hlink, hmode, hobject, hcounts, hstep, hrun _ _ _ _ rfl rfl⟩

def EntersRejected (execution : Execution) (request : SiteCall) : Prop :=
  ∃ safe link callee error block, execution.machine.reading? request = some safe ∧
    safe.code.link? request.site = some link ∧ link.mode ≠ .linkedDirect ∧
    request.callee = .cell callee ∧
    safe.heap.Rejects callee link.callType.specialization error ∧
    (execution.step (.siteCall request)).1.enteredBlock? = some block

theorem entersRejected_of_fast? {pointer : CodePointer} (hsound : execution.machine.Sound)
    (hread : execution.machine.reading? request = some safe)
    (hlink : safe.code.link? request.site = some link) (hmode : link.mode ≠ .linkedDirect)
    (hcallee : request.callee = .cell callee)
    (hrejects : safe.heap.Rejects callee link.callType.specialization error)
    (hfast : link.site.target.fast? safe.heap callee = some pointer) :
    execution.EntersRejected request := by
  obtain ⟨prepared, harrive, _⟩ := Option.map_eq_some_iff.mp hread
  obtain ⟨first, _, hfirst, _⟩ := arrive?_eq_some_iff.mp harrive
  obtain ⟨activation, after, _, hrun, _⟩ :=
    siteCall_of_fast? hsound hread hfirst hcallee hlink hfast
  refine ⟨safe, link, callee, error, activation.frame.block, hread, hlink, hmode, hcallee,
    hrejects, ?_⟩
  rw [step, Execution.call, hrun]
  rfl

/-- A copy of the callee brings the code of the callee along. A closure of the copy is made while
the marker runs and is called at a site. The collection then takes the copy. -/
def orphanedCall : List Request :=
  [.order (.allocateExecutable { name := "caller", entry := ⟨0⟩, sites := [⟨.call, 0⟩] }),
   .order (.allocateExecutable { name := "callee", entry := ⟨1⟩ }),
   .order (.createClosure ⟨0, 0⟩ {} []),
   .order (.createClosure ⟨1, 0⟩ {} []),
   .order (.addRoot ⟨3, 0⟩),
   .order (.compile ⟨3, 0⟩ .call),
   .order (.allocateExecutable { name := "callee", entry := ⟨1⟩, callCode := some ⟨1⟩ }),
   .hostCall (.cell ⟨2, 0⟩) .undefined [] .call,
   .order .safepoint,
   .order (.createClosure ⟨4, 0⟩ {} []),
   .siteCall ⟨⟨⟨2⟩, 0⟩, .cell ⟨5, 0⟩, .undefined, [], false⟩,
   .finish (.ok .undefined),
   .order .collect]

/-- A closure of a copy that is gone is still sent to the code of the original, and in a crowded
heap an object is sent to the code of the closure that it has overwritten. -/
theorem rejected_call_enters :
    (∃ machine, Machine.create { allocationThreshold := 1, markBudget := 1 } = .ok machine ∧
      (run ⟨machine, []⟩ orphanedCall).machine.heap.Addressable ∧
      (run ⟨machine, []⟩ orphanedCall).EntersRejected
        ⟨⟨⟨2⟩, 0⟩, .cell ⟨5, 0⟩, .undefined, [], false⟩) ∧
    ∃ machine requests, Machine.create {} = .ok machine ∧ adopters ⟨machine, []⟩ requests = [] ∧
      (run ⟨machine, []⟩ requests).EntersRejected
        ⟨⟨⟨1⟩, 0⟩, .cell ⟨3, 0⟩, .undefined, [], false⟩ := by
  constructor
  · obtain ⟨machine, hcreate⟩ : ∃ machine,
        Machine.create { allocationThreshold := 1, markBudget := 1 } = .ok machine := ⟨_, rfl⟩
    have hmachine := create_eq_ok hcreate
    obtain ⟨execution, hexecution⟩ : ∃ execution,
        execution = run ⟨machine, []⟩ orphanedCall := ⟨_, rfl⟩
    have hreachable : execution.Reachable _ := ⟨machine, orphanedCall, hcreate, hexecution⟩
    obtain ⟨request, hrequest⟩ : ∃ request : SiteCall,
        request = ⟨⟨⟨2⟩, 0⟩, .cell ⟨5, 0⟩, .undefined, [], false⟩ := ⟨_, rfl⟩
    have haddressable : execution.machine.heap.Addressable := by
      rw [hexecution, hmachine, Heap.Addressable]
      decide +kernel
    have hfacts : (execution.machine.reading? request).any (fun safe =>
        safe.heap.closure? ⟨5, 0⟩ = some ⟨⟨4, 0⟩, {}, []⟩ ∧
          (safe.heap.executable? ⟨4, 0⟩).isNone ∧
          (safe.code.link? request.site).any (fun link => link.mode ≠ .linkedDirect ∧
            link.site.target.fast? safe.heap ⟨5, 0⟩ = some ⟨⟨1⟩, ⟨1⟩⟩)) = true := by
      rw [hexecution, hmachine, hrequest]
      decide +kernel
    simp only [Option.any_eq_true, decide_eq_true_eq] at hfacts
    obtain ⟨safe, hread, hclosure, hgone, link, hlink, hmode, hfast⟩ := hfacts
    have hrejects : safe.heap.Rejects ⟨5, 0⟩ link.callType.specialization (.deadCell ⟨4, 0⟩) :=
      .orphan (Heap.closure?_eq_some_iff.mp hclosure) (Option.isNone_iff_eq_none.mp hgone)
    refine ⟨machine, hcreate, hexecution ▸ haddressable, ?_⟩
    rw [← hexecution, ← hrequest]
    exact entersRejected_of_fast? hreachable.sound hread hlink hmode (by rw [hrequest]) hrejects
      hfast
  · obtain ⟨machine, requests, link, hcreate, hplain, hlink, htype, hmode, htarget, hget, hmarking,
      hdue⟩ := callee_overwritten
    have hreachable : (run ⟨machine, []⟩ requests).Reachable {} :=
      ⟨machine, requests, hcreate, rfl⟩
    obtain ⟨request, hrequest⟩ : ∃ request : SiteCall,
        request = ⟨⟨⟨1⟩, 0⟩, .cell ⟨3, 0⟩, .undefined, [], false⟩ := ⟨_, rfl⟩
    refine ⟨machine, requests, hcreate, hplain, ?_⟩
    generalize run ⟨machine, []⟩ requests = execution at hreachable hlink hget hmarking hdue ⊢
    rw [← hrequest]
    have hcallee : request.callee = .cell ⟨3, 0⟩ := by rw [hrequest]
    have hsite : execution.machine.code.link? request.site = some link := by rwa [hrequest]
    have hread := reading?_of_quiet hsite hcallee (by rw [htype, hrequest]; rfl) hmarking hdue
    have hnoted : execution.machine.noted request link = execution.machine := by
      rw [noted, htype]
      rfl
    rw [hnoted] at hread
    have hfast : link.site.target.fast? execution.machine.heap ⟨3, 0⟩ = some ⟨⟨2⟩, ⟨1⟩⟩ := by
      rw [htarget, Target.fast?]
      exact if_pos rfl
    have hindirect : link.mode ≠ .linkedDirect := by
      rw [hmode]
      decide
    exact entersRejected_of_fast? hreachable.sound hread hsite hindirect hcallee (.object hget)
      hfast

end Execution

end InlineCache
