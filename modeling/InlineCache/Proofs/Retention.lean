import InlineCache.Proofs.Execution
import InlineCache.Proofs.Heap.Tricolor
import InlineCache.Proofs.Machine.Heap

/-!
# What collections keep

A collection that finishes sweeps the heap once. What it reclaims depends on the closures that were
made since marking began: they are black from the start and nobody tells the marker what they refer
to. A collection keeps everything that is alive exactly if the marker finds in another way what
these closures refer to. All other operations, and all other parts of the operations that collect,
keep every cell.
-/

namespace InlineCache

/-- A plain cell refers to nothing. -/
theorem Entity.IsPlain.children {entity : Entity} (h : entity.IsPlain) : entity.children = [] := by
  cases entity with
  | function closure => exact h.elim
  | executable executable => rfl
  | object handler => rfl

namespace Heap

variable {heap after : Heap Entity} {born : List Cell}

theorem Tricolor.setCode (h : heap.Tricolor born) (cell : Cell) (kind : Specialization)
    (code : Option CodeId) : (heap.setCode cell kind code).Tricolor born := by
  refine h.update cell fun entity => ?_
  cases entity <;> rfl

theorem Tricolor.barriers (hbarriers : heap.Barriers after) (h : heap.Tricolor born) :
    after.Tricolor born := by
  induction hbarriers with
  | refl => exact h
  | issue owner target _ ih => exact ih (h.writeBarrier owner target)

theorem contains_setCode {cell other : Cell} {kind : Specialization} {code : Option CodeId} :
    (heap.setCode cell kind code).contains other = heap.contains other := by
  rw [Bool.eq_iff_iff, contains_iff_color?, contains_iff_color?, setCode, color?_update]

theorem contains_allocate {entity : Entity} {cell : Cell} (h : heap.contains cell = true) :
    (heap.allocate entity).2.contains cell = true := by
  rcases get?_allocate heap entity cell with ⟨hget, _⟩ | ⟨_, hget, _⟩
  · rw [contains_congr hget, h]
  · exact contains_iff.mpr ⟨entity, hget⟩

end Heap

namespace Machine

open Heap

variable {may : Work → Prop} {before after : Machine} {born : List Cell} {cell : Cell}

/-- The rule for the colours is kept by every change. -/
theorem Change.tricolor (h : Change may before after) (hrule : before.heap.Tricolor born) :
    after.heap.Tricolor born := by
  cases h with
  | bookkeeping hstore =>
      rw [show after.heap = before.heap from congrArg Store.heap hstore]
      exact hrule
  | allocation entity hplain => exact hrule.allocate (fun _ h => h) (.inl hplain.children)
  | barrier owner target => exact hrule.writeBarrier owner target
  | startMarking => exact hrule.startMarking _
  | markStep _ budget => exact hrule.markStep budget
  | sweep =>
      rw [sweepHeap_heap]
      exact .reclaim _
  | profile => exact hrule
  | giveUp => exact hrule
  | install => exact hrule
  | compile labels => exact hrule.setCode _ _ _
  | replace entry tier labels =>
      exact .barriers (replaced_barriers before _ _ entry tier labels) (hrule.setCode _ _ _)
  | @jettison block =>
      obtain ⟨heap, hbarriers, hheap⟩ := jettison_heap before block
      rw [hheap]
      split
      · exact (hrule.barriers hbarriers).setCode _ _ _
      · exact hrule.barriers hbarriers
  | prune => exact hrule

theorem Changes.tricolor (h : Changes may before after)
    (hrule : before.heap.Tricolor born) : after.heap.Tricolor born :=
  h.preserves (fun machine => machine.heap.Tricolor born) (fun hchange => hchange.tricolor) hrule

/-- Without the collector no cell goes. -/
theorem Change.contains (h : Change withoutCollecting before after)
    (hlive : before.heap.contains cell = true) : after.heap.contains cell = true := by
  cases h with
  | bookkeeping hstore =>
      rw [show after.heap = before.heap from congrArg Store.heap hstore]
      exact hlive
  | allocation entity => exact contains_allocate hlive
  | barrier owner target =>
      rw [contains_congr get?_writeBarrier]
      exact hlive
  | startMarking hmay => exact absurd rfl hmay
  | markStep hmay => exact absurd rfl hmay
  | sweep hmay => exact absurd rfl hmay
  | profile => exact hlive
  | giveUp => exact hlive
  | install => exact hlive
  | compile labels => exact contains_setCode.trans hlive
  | replace entry tier labels =>
      rw [contains_congr ((replaced_barriers before _ _ entry tier labels).get? cell)]
      exact contains_setCode.trans hlive
  | @jettison block =>
      obtain ⟨heap, hbarriers, hheap⟩ := jettison_heap before block
      rw [← contains_congr (hbarriers.get? cell)] at hlive
      rw [hheap]
      split
      · exact contains_setCode.trans hlive
      · exact hlive
  | prune => exact hlive

theorem Changes.contains (h : Changes withoutCollecting before after)
    (hlive : before.heap.contains cell = true) : after.heap.contains cell = true :=
  h.preserves (fun machine => machine.heap.contains cell = true)
    (fun hchange => hchange.contains) hlive

/-- A sweep keeps exactly what the marker could still find. -/
theorem contains_sweepHeap_iff {machine : Machine} (hrule : machine.heap.Tricolor born) :
    machine.sweepHeap.2.heap.contains cell = true ↔ machine.heap.Found machine.rootSet cell := by
  rw [sweepHeap_heap, contains_reclaim]
  rcases hphase : machine.heap.phase with _ | _
  · have hmarking : ¬ machine.heap.isMarking = true := by simp [isMarking, hphase]
    rw [if_neg hmarking]
    refine (hrule.startMarking_marks hphase machine.rootSet).isMarked_completeMarking ?_
    rw [Heap.startMarking, hphase]
  · have hmarking : machine.heap.isMarking = true := by simp [isMarking, hphase]
    rw [if_pos hmarking]
    exact (Marks.refl (hrule.queued hphase)).isMarked_completeMarking hphase

/-- The machine that a safepoint sweeps, if it finishes a collection. -/
def sweptAtSafepoint? (machine : Machine) : Option Machine :=
  if machine.heap.isMarking && (machine.heap.markStep machine.config.markBudget).1 then
    some machine.marked
  else none

theorem sweptAtSafepoint?_eq_some_iff {machine swept : Machine} :
    machine.sweptAtSafepoint? = some swept ↔
      (machine.heap.isMarking = true ∧
        (machine.heap.markStep machine.config.markBudget).1 = true) ∧ machine.marked = swept := by
  rw [sweptAtSafepoint?, Option.ite_none_right_eq_some, Bool.and_eq_true, Option.some.injEq]

theorem marked_contains (machine : Machine) :
    machine.marked.heap.contains cell = machine.heap.contains cell :=
  contains_congr (get?_markStep _)

theorem safepoint_swept {machine swept : Machine} (h : machine.sweptAtSafepoint? = some swept) :
    Changes anyWork machine swept ∧
      Changes withoutCollecting swept.sweepHeap.2 (MachineM.safepoint.exec machine).2 := by
  obtain ⟨⟨hmarking, hdone⟩, rfl⟩ := sweptAtSafepoint?_eq_some_iff.mp h
  rw [MachineM.exec_safepoint, if_pos hmarking, if_pos hdone]
  constructor
  · exact .single (.markStep trivial machine.config.markBudget)
  · exact (MachineM.Delivers.discard MachineM.collect_after_sweep).changes

theorem safepoint_keeps {machine : Machine} (h : machine.sweptAtSafepoint? = none)
    (hlive : machine.heap.contains cell = true) :
    (MachineM.safepoint.exec machine).2.heap.contains cell = true := by
  rw [MachineM.exec_safepoint]
  by_cases hmarking : machine.heap.isMarking = true
  · rw [if_pos hmarking]
    by_cases hdone : (machine.heap.markStep machine.config.markBudget).1 = true
    · rw [sweptAtSafepoint?, if_pos (by rw [hmarking, hdone]; rfl)] at h
      cases h
    · rw [if_neg hdone]
      exact (marked_contains machine).trans hlive
  · rw [if_neg hmarking]
    split
    · exact (contains_congr get?_startMarking).trans hlive
    · exact hlive

end Machine

/-- The machine that a request sweeps, if it finishes a collection. -/
def Request.swept? (machine : Machine) : Request → Option Machine
  | .order .collect => some machine
  | .order .safepoint => machine.sweptAtSafepoint?
  | .siteCall call => (machine.arrive? call).bind Machine.sweptAtSafepoint?
  | _ => none

theorem Request.collects_cases {machine : Machine} {request : Request}
    (h : request.needs machine .collecting) :
    request = .order .collect ∨ request = .order .safepoint ∨ ∃ call, request = .siteCall call := by
  unfold Request.needs at h
  split at h
  · exact .inl rfl
  · exact .inr (.inl rfl)
  · exact .inr (.inr ⟨_, rfl⟩)
  · rename_i heq
    cases heq
  · rename_i heq
    cases heq
  · exact h.elim

namespace Execution

open Machine MachineM

variable {execution : Execution} {request : Request} {swept : Machine} {cell : Cell}

theorem order_machine (order : Order) :
    (execution.step (.order order)).2.machine = (order.run.exec execution.machine).2 := rfl

/-- Up to the sweep and from the sweep on, a request is a chain of changes. The second one keeps
every cell. -/
theorem step_swept (hnumbered : execution.machine.code.Numbered)
    (h : request.swept? execution.machine = some swept) :
    Changes anyWork execution.machine swept ∧
      Changes withoutCollecting swept.sweepHeap.2 (execution.step request).2.machine := by
  unfold Request.swept? at h
  split at h
  · obtain rfl := Option.some.inj h
    exact ⟨.refl _, (Delivers.map _ collect_after_sweep).changes⟩
  · have hsafe := safepoint_swept h
    refine ⟨hsafe.1, ?_⟩
    rw [order_machine, Order.run, exec_map]
    exact hsafe.2
  · rename_i call
    obtain ⟨prepared, hprepared, hswept⟩ := Option.bind_eq_some_iff.mp h
    have hsafe := safepoint_swept hswept
    refine ⟨(arrive?_changes hprepared).trans hsafe.1, hsafe.2.trans ?_⟩
    exact call_changes execution (startSiteCall_arrived hnumbered hprepared)
  · cases h

/-- A request that finishes no collection keeps every cell. -/
theorem step_keeps (hnumbered : execution.machine.code.Numbered)
    (h : request.swept? execution.machine = none)
    (hlive : execution.machine.heap.contains cell = true) :
    (execution.step request).2.machine.heap.contains cell = true := by
  by_cases hcollects : request.needs execution.machine .collecting
  · rcases Request.collects_cases hcollects with rfl | rfl | ⟨call, rfl⟩
    · cases h
    · rw [order_machine, Order.run, exec_map]
      exact safepoint_keeps h hlive
    · rcases harrive : execution.machine.arrive? call with _ | prepared
      · exact (call_changes execution (startSiteCall_stopped harrive)).contains hlive
      · refine (call_changes execution (startSiteCall_arrived hnumbered harrive)).contains ?_
        refine safepoint_keeps ?_ (arrive?_heap harrive ▸ hlive)
        exact (Option.bind_eq_none_iff.mp h) prepared harrive
  · have hmay : ∀ work, request.needs execution.machine work → withoutCollecting work := by
      rintro work hneeds rfl
      exact hcollects hneeds
    rcases execution.step_cases request hnumbered hmay with ⟨_, _, _, _, hstep⟩ | hchanges
    · rw [hstep]
      exact Heap.contains_allocate hlive
    · exact hchanges.contains hlive

end Execution

/-! ### Closures made while marking -/

/-- The closure that a request has made. -/
def Request.made : Request → Reply → List Cell
  | .order (.createClosure _ _ _), .answered (.ok (.cell cell)) => [cell]
  | _, _ => []

/-- An execution with the closures that it has made since its marking began. -/
structure Tracked where
  execution : Execution
  born : List Cell := []

namespace Tracked

def step (tracked : Tracked) (request : Request) : Tracked :=
  let next := tracked.execution.step request
  { execution := next.2
    born := if next.2.machine.heap.isMarking then request.made next.1 ++ tracked.born else [] }

def run (tracked : Tracked) (requests : List Request) : Tracked :=
  requests.foldl step tracked

theorem run_execution (tracked : Tracked) (requests : List Request) :
    (tracked.run requests).execution = tracked.execution.run requests := by
  induction requests generalizing tracked with
  | nil => rfl
  | cons request rest ih => exact ih (tracked.step request)

/-- Only the closures made since marking began hide white cells from the marker. -/
structure Rule (tracked : Tracked) : Prop where
  numbered : tracked.execution.machine.code.Numbered
  tricolor : tracked.execution.machine.heap.Tricolor tracked.born

theorem Rule.step {tracked : Tracked} (h : tracked.Rule) (request : Request) :
    (tracked.step request).Rule := by
  have hnext : (tracked.execution.step request).2.machine.code.Numbered ∧
      (tracked.execution.step request).2.machine.heap.Tricolor
        (request.made (tracked.execution.step request).1 ++ tracked.born) := by
    rcases tracked.execution.step_cases request h.numbered fun _ _ => trivial with
      ⟨closure, hrequest, _, hreply, hstep⟩ | hchanges
    · rw [hstep, hreply, hrequest]
      refine ⟨h.numbered, h.tricolor.allocate (fun _ => List.mem_append_right _) (.inr ?_)⟩
      exact List.mem_append_left _ (List.mem_singleton.mpr rfl)
    · refine ⟨(hchanges.evolves h.numbered).numbered h.numbered, ?_⟩
      exact (hchanges.tricolor h.tricolor).mono fun _ => List.mem_append_right _
  refine ⟨hnext.1, ?_⟩
  show Heap.Tricolor _ (if _ then _ else _)
  split
  · exact hnext.2
  · rename_i hmarking
    have hidle : (tracked.execution.step request).2.machine.heap.phase = .idle := by
      rcases hphase : (tracked.execution.step request).2.machine.heap.phase with _ | _
      · rfl
      · exact absurd (by rw [Heap.isMarking, hphase]; rfl) hmarking
    exact .of_idle hidle (hnext.2.idle hidle)

theorem Rule.run {tracked : Tracked} (h : tracked.Rule) (requests : List Request) :
    (tracked.run requests).Rule := by
  induction requests generalizing tracked with
  | nil => exact h
  | cons request rest ih => exact ih (h.step request)

end Tracked

/-- The first machine with nothing done. -/
theorem Tracked.rule_of_create {config : Config} {machine : Machine}
    (h : Machine.create config = .ok machine) : Tracked.Rule ⟨⟨machine, []⟩, []⟩ := by
  refine ⟨Machine.numbered_of_create h, ?_⟩
  rw [Machine.create_eq_ok h]
  exact .of_idle rfl fun _ => rfl

/-- A collection keeps what is alive exactly if the marker finds what the closures refer to that
were made since marking began. What it keeps stays for the rest of the request, and a request that
finishes no collection keeps every cell. -/
theorem collection_keeps_reachable_iff {config : Config} {machine : Machine}
    (hcreate : Machine.create config = .ok machine) (requests : List Request) (request : Request) :
    let tracked := (Tracked.mk ⟨machine, []⟩ []).run requests
    let before := tracked.execution.machine
    let after := (tracked.execution.step request).2.machine
    (∀ swept, request.swept? before = some swept →
      ((∀ cell, swept.heap.Reaches swept.rootSet cell →
          swept.sweepHeap.2.heap.contains cell = true) ↔
        ∀ closure ∈ tracked.born, swept.heap.Reaches swept.rootSet closure →
          ∀ cell, swept.heap.Edge closure cell → swept.heap.Found swept.rootSet cell) ∧
      ∀ cell, swept.sweepHeap.2.heap.contains cell = true → after.heap.contains cell = true) ∧
    (request.swept? before = none →
      ∀ cell, before.heap.contains cell = true → after.heap.contains cell = true) := by
  intro tracked before after
  have hrule : tracked.Rule := (Tracked.rule_of_create hcreate).run requests
  refine ⟨fun swept hswept => ?_, fun hnone cell => Execution.step_keeps hrule.numbered hnone⟩
  obtain ⟨hbefore, hafter⟩ := Execution.step_swept hrule.numbered hswept
  have htricolor : swept.heap.Tricolor tracked.born := hbefore.tricolor hrule.tricolor
  refine ⟨?_, fun cell => hafter.contains⟩
  rw [← htricolor.reaches_found_iff]
  exact forall₂_congr fun cell _ => Machine.contains_sweepHeap_iff htricolor

/-- A machine that starts to collect after every allocation. -/
def eagerMachine : Machine :=
  { config := { allocationThreshold := 1 }
    heap := { settings := { allocationThreshold := 1 } } }

/-- A closure is made of an executable that is not marked, while marking. -/
def closureWhileMarking : List Request :=
  [.order (.allocateExecutable { name := "f", entry := ⟨0⟩ }),
   .order .safepoint,
   .order (.createClosure ⟨0, 0⟩ {} []),
   .order (.addRoot ⟨1, 0⟩)]

theorem collection_keeps_reachable_iff_rooted :
    let tracked := (Tracked.mk ⟨eagerMachine, []⟩ []).run
      (closureWhileMarking ++ [.order (.addRoot ⟨0, 0⟩)])
    Machine.create { allocationThreshold := 1 } = .ok eagerMachine ∧ tracked.born = [⟨1, 0⟩] ∧
      ∃ swept, (Request.order .safepoint).swept? tracked.execution.machine = some swept ∧
        ((∀ cell, swept.heap.Reaches swept.rootSet cell →
            swept.sweepHeap.2.heap.contains cell = true) ↔
          ∀ closure ∈ tracked.born, swept.heap.Reaches swept.rootSet closure →
            ∀ cell, swept.heap.Edge closure cell → swept.heap.Found swept.rootSet cell) := by
  intro tracked
  have hcreate : Machine.create { allocationThreshold := 1 } = .ok eagerMachine := rfl
  have hswept : ((Request.order .safepoint).swept? tracked.execution.machine).isSome = true := by
    decide
  obtain ⟨swept, hswept⟩ := Option.isSome_iff_exists.mp hswept
  exact ⟨hcreate, by decide, swept, hswept,
    ((collection_keeps_reachable_iff hcreate _ _).1 swept hswept).1⟩

/-- A live closure outlives its executable. -/
theorem executable_of_live_closure_reclaimed :
    let execution := (Execution.mk eagerMachine []).run closureWhileMarking
    let after := (execution.step (.order .safepoint)).2.machine
    Machine.create { allocationThreshold := 1 } = .ok eagerMachine ∧
      execution.machine.heap.executableOf? ⟨1, 0⟩ = some ⟨0, 0⟩ ∧
      execution.machine.heap.Reaches execution.machine.rootSet ⟨0, 0⟩ ∧
      after.heap.contains ⟨1, 0⟩ = true ∧ after.heap.contains ⟨0, 0⟩ = false := by
  intro execution after
  have hclosure : execution.machine.heap.closure? ⟨1, 0⟩ = some { executable := ⟨0, 0⟩ } := by
    decide
  refine ⟨rfl, by decide, ?_, by decide, by decide⟩
  have hroot : execution.machine.heap.Reaches execution.machine.rootSet ⟨1, 0⟩ :=
    .root (by decide) (by decide)
  exact .edge hroot
    ⟨_, Heap.closure?_eq_some_iff.mp hclosure, List.mem_cons_self, by decide⟩

end InlineCache
