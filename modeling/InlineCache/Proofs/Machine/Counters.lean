import InlineCache.Proofs.Execution
import InlineCache.Proofs.Machine.Steady
import Mathlib.Data.List.Forall2

/-!
# Counters

The counters of a machine go up and stop at the largest 64-bit word. No operation sets one back, and
none takes one past its limit. So a counter that is ticked once for each of some sites has gone up
by their number, or has come to its limit.
-/

namespace InlineCache

theorem addUpTo_le (limit counter amount : Nat) : addUpTo limit counter amount ≤ limit :=
  Nat.min_le_right _ _

theorem addUpTo_zero {limit counter : Nat} (h : counter ≤ limit) :
    addUpTo limit counter 0 = counter :=
  Nat.min_eq_left h

theorem addUpTo_addUpTo (limit counter first second : Nat) :
    addUpTo limit (addUpTo limit counter first) second
      = addUpTo limit counter (first + second) := by
  simp only [addUpTo]
  omega

/-- A counter within its limit has gone up or stayed, and is within its limit. -/
def CountsUp (before after : Nat) : Prop :=
  before ≤ word64Max → before ≤ after ∧ after ≤ word64Max

namespace CountsUp

@[simp] theorem refl (counter : Nat) : CountsUp counter counter :=
  fun hbefore => ⟨Nat.le_refl _, hbefore⟩

theorem trans {before middle after : Nat} (hleft : CountsUp before middle)
    (hright : CountsUp middle after) : CountsUp before after := by
  intro hbefore
  obtain ⟨hfirst, hmiddle⟩ := hleft hbefore
  obtain ⟨hsecond, hafter⟩ := hright hmiddle
  exact ⟨Nat.le_trans hfirst hsecond, hafter⟩

@[simp] theorem add (counter amount : Nat) :
    CountsUp counter (addUpTo word64Max counter amount) :=
  fun hbefore => ⟨Nat.le_min.mpr ⟨Nat.le_add_right _ _, hbefore⟩, addUpTo_le _ _ _⟩

@[simp] theorem tick (counter : Nat) : CountsUp counter (tick64 counter) := add counter 1

end CountsUp

namespace Stats

def counters (stats : Stats) : List Nat := stats.entries.map Prod.snd

/-- No counter has been set back or taken past its limit. -/
def Grows (before after : Stats) : Prop :=
  List.Forall₂ CountsUp before.counters after.counters

variable {before middle after : Stats}

theorem Grows.refl (stats : Stats) : stats.Grows stats :=
  List.forall₂_same.mpr fun counter _ => .refl counter

theorem Grows.of_eq (h : after = before) : before.Grows after := h ▸ .refl before

theorem Grows.trans (hleft : before.Grows middle) (hright : middle.Grows after) :
    before.Grows after := by
  unfold Grows at *
  generalize before.counters = first, middle.counters = second, after.counters = third at *
  induction hleft generalizing third with
  | nil => exact hright
  | cons hhead _ ih =>
      cases hright with
      | cons hhead' htail' => exact .cons (hhead.trans hhead') (ih _ htail')

/-- Every counter is a 64-bit word. -/
def Within (stats : Stats) : Prop := ∀ counter ∈ stats.counters, counter ≤ word64Max

theorem Grows.within (h : before.Grows after) (hbefore : before.Within) : after.Within := by
  unfold Grows Within at *
  generalize before.counters = first, after.counters = second at *
  induction h with
  | nil => exact hbefore
  | cons hhead _ ih =>
      obtain ⟨hfirst, hrest⟩ := List.forall_mem_cons.mp hbefore
      exact List.forall_mem_cons.mpr ⟨(hhead hfirst).2, ih hrest⟩

theorem Within.upgrades_le (h : after.Within) : after.upgrades ≤ word64Max :=
  h _ (by simp [counters, entries])

theorem Within.jettisonUnlinks_le (h : after.Within) : after.jettisonUnlinks ≤ word64Max :=
  h _ (by simp [counters, entries])

end Stats

attribute [local simp] Stats.Grows Stats.counters Stats.entries

/-! ### The parts of operations -/

namespace CodeTable

theorem visitLink_grows (isLive : Cell → Bool) (link : Link) (stats : Stats) :
    stats.Grows (visitLink isLive link stats).2 := by
  rw [visitLink]
  rcases link.visitWeak isLive with ⟨_ | _ | count, edit⟩ <;> simp

theorem visitLinks_grows (isLive : Cell → Bool) (links : List Link) (stats : Stats) :
    stats.Grows (visitLinks isLive links stats).2.2 := by
  induction links generalizing stats with
  | nil => exact .refl stats
  | cons link rest ih => exact (visitLink_grows isLive link stats).trans (ih _)

theorem visitBlocks_grows (isLive : Cell → Bool) (blocks : List Block) (stats : Stats) :
    stats.Grows (visitBlocks isLive blocks stats).2.2 := by
  induction blocks generalizing stats with
  | nil => exact .refl stats
  | cons block rest ih => exact (visitLinks_grows isLive block.links stats).trans (ih _)

end CodeTable

namespace Machine

open CodeTable

theorem sweepHeap_grows (machine : Machine) : machine.stats.Grows machine.sweepHeap.2.stats := by
  rw [sweepHeap]
  by_cases hmarking : machine.heap.isMarking = true
  · simp only [hmarking, if_true]
    exact visitBlocks_grows _ _ _
  · simp only [hmarking]
    exact visitBlocks_grows _ _ _

/-- A site that goes to the replaced code is counted. -/
theorem upgradeSite_stats (machine : Machine) (old : CodeId) (site : SiteRef) (new : CodePointer) :
    (machine.upgradeSite old site new).stats = if machine.code.goesTo old site then
      { machine.stats with upgrades := tick64 machine.stats.upgrades } else machine.stats := by
  rw [upgradeSite, retargetSite, goesTo]
  rcases machine.code.link? site with _ | link <;> dsimp only
  · rfl
  · by_cases htargets : link.targets old = true
    · have hupgraded := (Link.retarget_of_targets new htargets).1
      rw [if_pos htargets]
      rcases hretarget : link.retarget old (some new) with ⟨outcome, edit⟩
      rw [hretarget] at hupgraded
      obtain rfl : outcome = .upgraded := hupgraded
      rfl
    · rw [if_neg htargets, Link.retarget_of_not_targets _ (Bool.eq_false_iff.mpr htargets)]
      rfl

/-- A site that goes to the discarded code is counted. -/
theorem dropSite_stats (machine : Machine) (old : CodeId) (site : SiteRef) :
    (machine.dropSite old site).stats = if machine.code.goesTo old site then
      { machine.stats with jettisonUnlinks := tick64 machine.stats.jettisonUnlinks }
      else machine.stats := by
  rw [dropSite, retargetSite, goesTo]
  rcases machine.code.link? site with _ | link <;> dsimp only
  · rfl
  · by_cases htargets : link.targets old = true
    · have haffected := (Link.retarget_none_of_targets htargets).1
      rw [if_pos htargets]
      rcases hretarget : link.retarget old none with ⟨_ | _ | _ | _, edit⟩ <;>
        rw [hretarget] at haffected
      · exact absurd rfl haffected
      all_goals rfl
    · rw [if_neg htargets, Link.retarget_of_not_targets _ (Bool.eq_false_iff.mpr htargets)]
      rfl

theorem foldl_grows {step : Machine → SiteRef → Machine}
    (hstep : ∀ (machine : Machine) (site : SiteRef), machine.stats.Grows (step machine site).stats)
    (sites : List SiteRef) (machine : Machine) :
    machine.stats.Grows (sites.foldl step machine).stats := by
  induction sites generalizing machine with
  | nil => exact .refl _
  | cons site rest ih => exact (hstep machine site).trans (ih _)

theorem upgradeSite_grows (machine : Machine) (old : CodeId) (site : SiteRef)
    (new : CodePointer) : machine.stats.Grows (machine.upgradeSite old site new).stats := by
  rw [upgradeSite_stats]
  split
  · simp
  · exact .refl _

theorem dropSite_grows (machine : Machine) (old : CodeId) (site : SiteRef) :
    machine.stats.Grows (machine.dropSite old site).stats := by
  rw [dropSite_stats]
  split
  · simp
  · exact .refl _

theorem revertLinks_stats (machine : Machine) (id : CodeId) :
    (machine.revertLinks id).stats = machine.stats := by
  rw [revertLinks]
  rcases machine.code.get? id with _ | found <;> rfl

theorem releaseCode_stats (machine : Machine) (block : Block) :
    (machine.releaseCode block).stats = machine.stats := by
  rw [releaseCode]
  rcases machine.heap.executable? block.owner with _ | executable
  · rfl
  · dsimp only
    split <;> rfl

/-- What discarding a block counts is the sites that go there. -/
theorem jettison_stats (machine : Machine) (block : Block) : (machine.jettison block).stats =
    (block.incoming.foldl (fun machine site => machine.dropSite block.id site)
      (machine.clearIncoming block.id)).stats := by
  show ((Machine.revertLinks _ block.id).releaseCode block).stats = _
  rw [releaseCode_stats, revertLinks_stats]

theorem jettison_grows (machine : Machine) (block : Block) :
    machine.stats.Grows (machine.jettison block).stats := by
  rw [jettison_stats]
  exact foldl_grows (fun machine site => dropSite_grows machine block.id site) block.incoming
    (machine.clearIncoming block.id)

theorem noted_stats (machine : Machine) (request : SiteCall) (link : Link) :
    (machine.noted request link).stats = machine.stats := by
  rw [noted]
  split <;> rfl

end Machine

namespace Linker

theorem goVirtual_grows (linker : Linker) (reason : VirtualReason) :
    linker.stats.Grows (linker.goVirtual reason).stats := by
  rw [goVirtual]
  split
  · exact .refl _
  · simp [apply, report]

theorem linkPolymorphic_grows (linker : Linker) (heap : Heap Entity) (owner : Cell)
    (capacity : Nat) (callee : Resolved) :
    linker.stats.Grows (linker.linkPolymorphic heap owner capacity callee).2.stats := by
  rw [linkPolymorphic]
  split
  · exact goVirtual_grows linker _
  · dsimp only
    split
    · exact goVirtual_grows { linker with lastStub := linker.lastStub.next } _
    · have hcounted : linker.stats.Grows (if linker.link.mode = .monomorphic
          then { linker.stats with polymorphicLinks := tick64 linker.stats.polymorphicLinks }
          else { linker.stats with
            stubRegenerations := tick64 linker.stats.stubRegenerations }) := by
        split <;> simp
      split <;> exact hcounted

theorem linkCall_grows (linker : Linker) (heap : Heap Entity) (owner : Cell) (capacity : Nat)
    (callee : Resolved) :
    linker.stats.Grows (linker.linkCall heap owner capacity callee).2.stats := by
  rw [linkCall]
  split
  · rw [linkDirect]
    split
    · exact .refl _
    · split <;> exact .refl _
  · split
    · split
      · simp [apply]
      · exact .refl _
    · exact linkPolymorphic_grows linker heap owner capacity callee
    · exact linkPolymorphic_grows linker heap owner capacity callee
    · exact .refl _
    · exact .refl _

end Linker

/-! ### Operations -/

namespace MachineM

open Machine

variable {α β : Type}

/-- The operation counts, and sets no counter back. -/
def Counts (operation : MachineM α) : Prop :=
  ∀ machine : Machine, machine.stats.Grows (operation.exec machine).2.stats

theorem countsChains : Chains fun before after => before.stats.Grows after.stats where
  refl := fun machine => .refl machine.stats
  trans := Stats.Grows.trans

namespace Counts

theorem of_keeps {operation : MachineM α} (h : Keeps Machine.stats operation) :
    Counts operation :=
  fun machine => .of_eq (h machine)

theorem of_pure (value : α) : Counts (pure value : MachineM α) := .of_keeps (.of_pure value)

theorem of_throw (error : MachineError) : Counts (throw error : MachineM α) :=
  .of_keeps (.of_throw error)

theorem of_look (look : Machine → Except MachineError α) : Counts (MachineM.look look) :=
  .of_keeps (.of_look look)

theorem of_modify {change : Machine → Machine}
    (h : ∀ machine : Machine, machine.stats.Grows (change machine).stats) :
    Counts (modify change : MachineM PUnit) := h

theorem of_modifyGet {change : Machine → α × Machine}
    (h : ∀ machine : Machine, machine.stats.Grows (change machine).2.stats) :
    Counts (modifyGet change : MachineM α) := h

theorem bind {operation : MachineM α} {next : α → MachineM β} (h : Counts operation)
    (hnext : ∀ value, Counts (next value)) : Counts (operation >>= next) :=
  countsChains.bind h hnext

theorem bind_get {next : Machine → MachineM β} (hnext : ∀ machine, Counts (next machine)) :
    Counts (get >>= next) :=
  bind (fun machine => .refl machine.stats) hnext

theorem map {operation : MachineM α} (change : α → β) (h : Counts operation) :
    Counts (change <$> operation) := by
  intro machine
  rw [exec_map]
  exact h machine

end Counts

theorem compile_counts (request : Compilation) : Counts (compile request) := by
  refine .of_keeps fun machine => ?_
  rw [exec_compile]
  rcases Locations.forBlock request.executable.sites.length with overflow | labels <;> rfl

theorem ensureCode_counts (owner : Cell) (realm : Realm) (kind : Specialization) :
    Counts (ensureCode owner realm kind) := by
  refine .of_keeps fun machine => ?_
  have hcases := ensureCode_cases machine owner realm kind
  generalize (ensureCode owner realm kind).exec machine = outcome at hcases
  cases hcases <;> rfl

theorem compileFunction_counts (function : Cell) (kind : Specialization) :
    Counts (compileFunction function kind) :=
  countsChains.compileFunction ensureCode_counts function kind

theorem replaceCode_counts (old : CodeId) (entry : Entry) (tier : Tier) :
    Counts (replaceCode old entry tier) := by
  refine .bind (.of_look _) fun block => .bind (.of_look _) fun executable =>
    .bind (compile_counts _) fun id => .of_modifyGet fun machine => ?_
  show machine.stats.Grows
    ((machine.clearIncoming old).upgradeSites old ⟨id, entry⟩ block.incoming).2.stats
  rw [upgradeSites_eq_foldl]
  exact foldl_grows (fun machine site => upgradeSite_grows machine old site ⟨id, entry⟩)
    block.incoming (machine.clearIncoming old)

theorem jettisonCode_counts (id : CodeId) : Counts (jettisonCode id) :=
  .bind (.of_look _) fun block => .of_modify fun machine => jettison_grows machine block

theorem disallowStubs_counts (site : SiteRef) : Counts (disallowStubs site) := by
  refine .bind (.of_look _) fun link => .bind (.of_modify fun machine => .refl machine.stats) ?_
  intro _
  split
  · exact .of_modify fun _ => by simp
  · exact .of_pure _

theorem collect_counts : Counts collect :=
  countsChains.collect sweepHeap_grows jettisonCode_counts fun machine _ => .refl machine.stats

theorem safepoint_counts : Counts safepoint :=
  countsChains.safepoint collect_counts (fun machine => .refl machine.stats)
    fun machine => .refl machine.stats

/-! ### Calls -/

theorem notCallable_counts (value : Value) (kind : Specialization) :
    Counts (notCallable value kind : MachineM α) :=
  .bind (.of_modify fun _ => by simp [countTypeError]) fun _ => .bind_get fun _ => .of_throw _

theorem resolve_counts (callee : Cell) (kind : Specialization) : Counts (resolve callee kind) :=
  countsChains.resolve (fun _ => by simp [countTypeError]) ensureCode_counts callee kind

theorem runLinker_counts (site : SiteRef) (link : Link)
    {linking : Linker → Except LinkError LinkOutcome × Linker}
    (h : ∀ linker : Linker, linker.stats.Grows (linking linker).2.stats) :
    Counts (runLinker site link linking) := by
  intro machine
  rw [exec_runLinker]
  exact h { link, stats := machine.stats, lastStub := machine.lastStub }

theorem linkFunction_counts (site : SiteRef) (resolved : Resolved) (realm : Realm) :
    Counts (linkFunction site resolved realm) := by
  refine .bind (.of_look _) fun block => .bind (.of_look _) fun link => .bind_get fun machine =>
    .bind (runLinker_counts site link fun linker => ?_) fun outcome => ?_
  · split
    · exact linker.goVirtual_grows _
    · exact linker.linkCall_grows _ _ _ _
  · rcases outcome with targets | _ | _
    · refine .of_modify fun machine => ?_
      rw [foldl_addIncoming]
      exact .refl _
    · exact .of_pure _
    · exact .of_pure _

theorem selectSlow_counts (site : SiteRef) (call : Call) : Counts (selectSlow site call) := by
  rw [selectSlow_eq]
  refine .bind (.of_modify fun _ => by simp) fun _ => .bind (.of_look _) fun link =>
    .bind (.of_modify fun machine => .refl machine.stats) fun _ =>
      .bind (resolve_counts _ _) fun resolution => ?_
  rcases resolution with ⟨resolved, realm⟩ | entry
  · exact .bind (linkFunction_counts site resolved realm) fun _ => .of_pure _
  · refine .bind (.bind (.of_look _) fun found => ?_) fun _ => .of_pure _
    exact .map _ (runLinker_counts site found fun linker => linker.goVirtual_grows _)

theorem selectFast_counts (target : CodePointer) : Counts (selectFast target) := by
  rw [selectFast_eq]
  exact .bind (.of_modify fun _ => by simp) fun _ => .of_pure _

theorem selectGeneric_counts (call : Call) : Counts (selectGeneric call) := by
  rw [selectGeneric_eq]
  exact .map _ (resolve_counts call.callee call.kind)

theorem selectAtSite_counts (site : SiteRef) (call : Call) : Counts (selectAtSite site call) := by
  intro machine
  cases selectAtSite_cases site call machine with
  | missing hlink houtcome =>
      rw [houtcome]
      exact .refl _
  | slow hlink hmissed houtcome =>
      rw [houtcome]
      exact selectSlow_counts site call machine
  | resolved hlink htarget houtcome =>
      have hcounted : machine.stats.Grows machine.countVirtual.stats := by simp [countVirtual]
      rw [houtcome]
      exact hcounted.trans (selectGeneric_counts call machine.countVirtual)
  | served hlink hfast houtcome =>
      rw [houtcome]
      exact selectFast_counts _ machine
  | servedByStub executable hlink hfast houtcome =>
      rw [houtcome]
      exact selectFast_counts _ (machine.editLink site _)

theorem selecting_counts {select : MachineM Destination} (h : Counts select) (call : Call) :
    Counts (CallPath.selecting call select) := by
  intro machine
  have hselected := h (machine.pushRoots call.cells)
  rw [exec_selecting]
  rcases hrun : select.exec (machine.pushRoots call.cells) with ⟨error | destination, after⟩ <;>
    rw [hrun] at hselected <;> exact hselected

theorem startHostCall_counts (callee receiver : Value) (arguments : List Value)
    (kind : Specialization) : Counts (startHostCall callee receiver arguments kind) := by
  rcases callee with _ | _ | cell
  · exact notCallable_counts _ kind
  · exact notCallable_counts _ kind
  · exact selecting_counts (selectGeneric_counts _) _

theorem startSiteCall_counts (request : SiteCall) : Counts (startSiteCall request) := by
  intro machine
  rcases hlink : machine.code.link? request.site with _ | link
  · obtain ⟨error, _, hrun⟩ := exec_startSiteCall_of_missing hlink
    rw [hrun]
    exact .refl _
  · by_cases htail : link.callType.isTail = request.tail
    · rw [exec_startSiteCall hlink htail, ← noted_stats machine request link]
      rcases request.callee with _ | _ | cell
      · exact notCallable_counts _ _ _
      · exact notCallable_counts _ _ _
      · exact selecting_counts (.bind safepoint_counts fun _ => selectAtSite_counts _ _) _ _
    · rw [exec_startSiteCall_of_mismatch hlink htail]
      exact .refl _

theorem enter_counts (transfer : Transfer) : Counts (enter transfer) :=
  .of_keeps fun machine => congrArg Prod.snd (enter_keeps transfer machine)

theorem leave_counts (activation : Activation) (result : Except MachineError Value) :
    Counts (leave activation result) := by
  refine .bind (.of_modify fun machine => .refl machine.stats) fun _ => ?_
  rcases result with error | value
  · exact .of_throw _
  · dsimp only
    split <;> exact .of_pure _

end MachineM

/-! ### Runs -/

open MachineM

theorem Order.run_counts (order : Order) : Counts order.run := by
  cases order with
  | allocateExecutable template => exact .map _ fun machine => .refl machine.stats
  | createClosure executable realm captures =>
      exact .map _ (.bind (.map _ (.of_look _)) fun _ machine => .refl machine.stats)
  | createObject handler => exact .map _ fun machine => .refl machine.stats
  | addRoot cell => exact .map _ fun machine => .refl machine.stats
  | removeRoot cell =>
      refine .map _ (.of_modify fun machine => ?_)
      rw [Machine.removeRoot]
      split <;> exact .refl _
  | compile function kind => exact .map _ (compileFunction_counts function kind)
  | replace old entry tier => exact .map _ (replaceCode_counts old entry tier)
  | jettison code => exact .map _ (jettisonCode_counts code)
  | disallowStubs site => exact .map _ (disallowStubs_counts site)
  | safepoint => exact .map _ safepoint_counts
  | collect => exact .map _ collect_counts
  | writeBarrier owner target => exact .map _ fun machine => .refl machine.stats
  | takeEvents => exact .map _ fun machine => .refl machine.stats

namespace Execution

theorem call_grows (execution : Execution) {start : MachineM Transfer} (h : Counts start) :
    execution.machine.stats.Grows (execution.call start).2.machine.stats := by
  rw [call_machine]
  exact Counts.bind h enter_counts execution.machine

theorem step_grows (execution : Execution) (request : Request) :
    execution.machine.stats.Grows (execution.step request).2.machine.stats := by
  cases request with
  | order order => exact order.run_counts execution.machine
  | hostCall callee receiver arguments kind =>
      exact execution.call_grows (startHostCall_counts callee receiver arguments kind)
  | siteCall call => exact execution.call_grows (startSiteCall_counts call)
  | finish result =>
      rw [step]
      rcases execution.active with _ | ⟨activation, outer⟩
      · exact .refl _
      · exact leave_counts activation result execution.machine

/-- No run sets a counter back. -/
theorem run_grows (execution : Execution) (requests : List Request) :
    execution.machine.stats.Grows (execution.run requests).machine.stats := by
  induction requests generalizing execution with
  | nil => exact .refl _
  | cons request rest ih => exact (execution.step_grows request).trans (ih _)

/-- The counters of every machine that a new one can become are 64-bit words. -/
theorem Reachable.within {config : Config} {execution : Execution}
    (h : execution.Reachable config) : execution.machine.stats.Within := by
  obtain ⟨machine, requests, hcreate, rfl⟩ := h
  refine (run_grows ⟨machine, []⟩ requests).within ?_
  rw [Machine.create_eq_ok hcreate]
  simp [Stats.Within]

end Execution

end InlineCache
