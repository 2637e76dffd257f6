import InlineCache.Proofs.Collecting
import InlineCache.Proofs.Placement
import InlineCache.Proofs.Retention

/-!
# Requests in stages

In the middle of a collection there is code whose executable has just been swept away. Nobody sees
it: the collector discards the code before anything else happens. So what holds between requests is
shown by stages, and a whole collection is one of them. The other stages keep every executable.
-/

namespace InlineCache

namespace Machine

open CodeTable Heap

variable {may : Work → Prop} {stack : List Cell} {machine before after : Machine} {cell : Cell}

/-- What every other invariant rests on: blocks have their numbers, routes are on record where they
go, and as long as every slot has a handle of its own, only empty slots are free. -/
structure Orderly (machine : Machine) : Prop where
  numbered : machine.code.Numbered
  linked : machine.code.Linked
  tidy : machine.heap.Addressable → machine.heap.Tidy

theorem Change.orderly (h : Change may before after) (horderly : before.Orderly) :
    after.Orderly where
  numbered := (h.evolves horderly.numbered).numbered horderly.numbered
  linked := h.linked horderly.numbered horderly.linked
  tidy := by
    intro hafter
    have hbefore := h.addressable hafter
    exact h.tidy (fun _ => hbefore) (horderly.tidy hbefore)

theorem Changes.orderly (h : Changes may before after) (horderly : before.Orderly) :
    after.Orderly :=
  h.preserves Orderly Change.orderly horderly

theorem Orderly.withClosure (h : machine.Orderly) (closure : Closure) :
    (machine.withCell (.function closure)).Orderly where
  numbered := h.numbered
  linked := h.linked
  tidy := fun hafter => (h.tidy (Nat.le_trans (length_slots_allocate _) hafter)).allocate _

theorem orderly_of_create {config : Config} (h : Machine.create config = .ok machine) :
    machine.Orderly where
  numbered := numbered_of_create h
  linked := linked_of_create h
  tidy := by
    rw [create_eq_ok h]
    exact fun _ => ⟨List.nodup_nil, fun _ hmem => (nomatch hmem)⟩

/-- One stage of a request, where only some work may be done, and the collector may run. The cells
of the calls in progress are on the stack when it does. -/
inductive Stage (may : Work → Prop) (stack : List Cell) (before : Machine) : Machine → Prop where
  | change {after : Machine} (h : Change may before after) : Stage may stack before after
  | startMarking : Stage may stack before before.startMarking
  | markStep : Stage may stack before before.marked
  | collect (hstack : stack ⊆ before.stackRoots) :
      Stage may stack before (MachineM.collect.exec before).2

def Stages (may : Work → Prop) (stack : List Cell) : Machine → Machine → Prop :=
  Relation.ReflTransGen (Stage may stack)

theorem Stage.changes_adopting {adopters : List Cell}
    (hadopts : ∀ cell, may (.adopting cell) → cell ∈ adopters) (h : Stage may stack before after) :
    Changes (adoptingIn adopters) before after := by
  cases h with
  | change h =>
      refine .single (h.mono fun work hmay cell hwork => ?_)
      rw [hwork] at hmay
      exact hadopts cell hmay
  | startMarking => exact .single (.startMarking nofun)
  | markStep => exact .single (.markStep nofun _)
  | collect hstack => exact (MachineM.collect_delivers nofun).changes

theorem Stage.changes (h : Stage may stack before after) : Changes anyWork before after := by
  cases h with
  | change h => exact .single (h.mono fun _ _ => trivial)
  | startMarking => exact .single (.startMarking trivial)
  | markStep => exact .single (.markStep trivial _)
  | collect hstack => exact (MachineM.collect_delivers trivial).changes

/-- A stage is a change, leaves code and cells as they are, or is a collection. -/
theorem Stage.cases (h : Stage may stack before after) (hnumbered : before.code.Numbered)
    (hlinked : before.code.Linked) :
    Change may before after ∨
    (after.code = before.code ∧ ∀ cell, after.heap.get? cell = before.heap.get? cell) ∨
    stack ⊆ before.stackRoots ∧ before.Collected after := by
  cases h with
  | change h => exact .inl h
  | startMarking => exact .inr (.inl ⟨rfl, fun _ => get?_startMarking⟩)
  | markStep => exact .inr (.inl ⟨rfl, fun _ => get?_markStep _⟩)
  | collect hstack =>
      obtain ⟨after, hrun, hcollected⟩ := MachineM.exec_collect hnumbered hlinked
      rw [hrun]
      exact .inr (.inr ⟨hstack, hcollected⟩)

theorem Changes.stages (h : Changes may before after) : Stages may stack before after :=
  Relation.ReflTransGen.mono (fun _ _ => Stage.change) _ _ h

theorem Changes.addressable (h : Changes may before after) (hafter : after.heap.Addressable) :
    before.heap.Addressable := by
  induction h with
  | refl => exact hafter
  | tail _ hlast ih => exact ih (hlast.addressable hafter)

/-- What each stage preserves is preserved by all of them. -/
theorem Stages.preserves (invariant : Machine → Prop)
    (hstage : ∀ {before after}, before.Orderly → Stage may stack before after →
      invariant before → invariant after)
    (h : Stages may stack before after) (horderly : before.Orderly) (hbefore : invariant before) :
    after.Orderly ∧ invariant after := by
  induction h with
  | refl => exact ⟨horderly, hbefore⟩
  | tail _ hlast ih => exact ⟨hlast.changes.orderly ih.1, hstage ih.1 hlast ih.2⟩

theorem safepoint_stages {machine : Machine} (hstack : stack ⊆ machine.stackRoots) :
    Stages may stack machine (MachineM.safepoint.exec machine).2 := by
  rw [MachineM.exec_safepoint]
  split
  · have hmarked : Stages may stack machine machine.marked := .single .markStep
    split
    · rw [MachineM.exec_discard]
      exact hmarked.tail (.collect hstack)
    · exact hmarked
  · split
    · exact .single .startMarking
    · exact .refl

/-! ### Executables -/

theorem executable?_setCode_kept {heap : Heap Entity} {owner : Cell} {kind : Specialization}
    {code : Option CodeId} {executable : Executable}
    (h : heap.executable? cell = some executable) :
    ∃ kept, (heap.setCode owner kind code).executable? cell = some kept ∧
      kept.constructible = executable.constructible := by
  rw [executable?_setCode]
  split
  · rename_i heq
    rw [← heq, h]
    exact ⟨_, rfl, Executable.setCode_constructible _ _ _⟩
  · exact ⟨executable, h, rfl⟩

/-- Without the collector, what is an executable stays one. -/
theorem Change.executable {executable : Executable} (h : Change withoutCollecting before after)
    (htidy : before.heap.Tidy) (hcell : before.heap.executable? cell = some executable) :
    ∃ kept, after.heap.executable? cell = some kept ∧
      kept.constructible = executable.constructible := by
  have hsame : (∀ other, after.heap.get? other = before.heap.get? other) →
      ∃ kept, after.heap.executable? cell = some kept ∧
        kept.constructible = executable.constructible := by
    intro hget
    refine ⟨executable, ?_, rfl⟩
    rw [executable?, hget]
    exact hcell
  cases h with
  | bookkeeping hstore =>
      refine hsame fun _ => ?_
      rw [show after.heap = before.heap from congrArg Store.heap hstore]
  | allocation entity =>
      exact ⟨executable, executable?_eq_some_iff.mpr
        (htidy.get?_allocate entity (executable?_eq_some_iff.mp hcell)), rfl⟩
  | barrier owner target => exact hsame fun _ => get?_writeBarrier
  | startMarking hmay => exact absurd rfl hmay
  | markStep hmay => exact absurd rfl hmay
  | sweep hmay => exact absurd rfl hmay
  | profile => exact hsame fun _ => rfl
  | giveUp => exact hsame fun _ => rfl
  | install => exact hsame fun _ => rfl
  | compile labels => exact executable?_setCode_kept hcell
  | @replace block executable entry tier labels =>
      have hbarriers := replaced_barriers before block executable entry tier labels
      rw [executable?, hbarriers.get?]
      exact executable?_setCode_kept hcell
  | @jettison block =>
      obtain ⟨heap, hbarriers, hheap⟩ := jettison_heap before block
      have hmarked : heap.executable? cell = some executable := by
        rw [executable?, hbarriers.get?]
        exact hcell
      rw [hheap]
      split
      · exact executable?_setCode_kept hmarked
      · exact ⟨executable, hmarked, rfl⟩
  | prune => exact hsame fun _ => rfl

/-! ### Closures -/

section Closures

variable {callee : Cell} {born : List Cell}

/-- Without the collector, a closure stays what it is. -/
theorem Change.closure? {closure : Closure} (h : Change withoutCollecting before after)
    (hnumbered : before.code.Numbered) (htidy : before.heap.Tidy)
    (hcallee : before.heap.closure? callee = some closure) :
    after.heap.closure? callee = some closure := by
  rcases h.cases hnumbered with hquiet | ⟨hmay, _⟩ |
    ⟨block, template, entry, tier, labels, _, _, rfl⟩ | ⟨_, _, _, _, _, _, _, _, _, _, rfl⟩
  · exact hquiet.closure htidy hcallee
  · exact absurd rfl hmay
  · exact (closure?_replaced before block template entry tier labels callee).trans hcallee
  · exact hcallee

/-- A collection keeps the callees on the stack. -/
theorem Stage.closure? {closure : Closure} (h : Stage withoutCollecting stack before after)
    (horderly : before.Orderly) (hrule : before.heap.Tricolor born)
    (haddressable : before.heap.Addressable) (hcallee : callee ∈ stack)
    (hclosure : before.heap.closure? callee = some closure) :
    after.heap.closure? callee = some closure := by
  rcases h.cases horderly.numbered horderly.linked with
    hchange | ⟨_, hget⟩ | ⟨hstack, hcollected⟩
  · exact hchange.closure? horderly.numbered (horderly.tidy haddressable) hclosure
  · rwa [Heap.closure?, hget]
  · have hfound : before.heap.Found before.rootSet callee :=
      .root (List.mem_append_right _ (hstack hcallee))
        (Heap.contains_iff.mpr ⟨_, closure?_eq_some_iff.mp hclosure⟩)
    rw [Heap.closure?, hcollected.heap_eq,
      get?_sweepHeap_of_contains ((contains_sweepHeap_iff hrule).mpr hfound)]
    exact hclosure

theorem Stages.closure? {closure : Closure} (h : Stages withoutCollecting stack before after)
    (horderly : before.Orderly) (hrule : before.heap.Tricolor born)
    (haddressable : after.heap.Addressable) (hcallee : callee ∈ stack)
    (hclosure : before.heap.closure? callee = some closure) :
    after.heap.closure? callee = some closure := by
  refine (h.preserves (fun machine => machine.heap.Tricolor born ∧
    (machine.heap.Addressable → machine.heap.closure? callee = some closure)) ?_
    horderly ⟨hrule, fun _ => hclosure⟩).2.2 haddressable
  rintro before after horderly hstage ⟨hrule, hbefore⟩
  refine ⟨hstage.changes.tricolor hrule, fun hafter => ?_⟩
  have haddressable := hstage.changes.addressable hafter
  exact hstage.closure? horderly hrule haddressable hcallee (hbefore haddressable)

end Closures

end Machine

/-- The stages of a request that finishes a collection, up to the sweep. -/
theorem Request.swept?_stages {may : Work → Prop} (stack : List Cell) {machine swept : Machine}
    {request : Request} (h : request.swept? machine = some swept) :
    Machine.Stages may stack machine swept := by
  unfold Request.swept? at h
  split at h
  · obtain rfl := Option.some.inj h
    exact .refl
  · obtain ⟨_, rfl⟩ := Machine.sweptAtSafepoint?_eq_some_iff.mp h
    exact .single .markStep
  · obtain ⟨prepared, hprepared, hswept⟩ := Option.bind_eq_some_iff.mp h
    obtain ⟨_, rfl⟩ := Machine.sweptAtSafepoint?_eq_some_iff.mp hswept
    exact (Machine.arrive?_changes hprepared).stages.tail .markStep
  · cases h

namespace Execution

open Machine MachineM

variable {may : Work → Prop} {request : Request}

/-- A request makes a closure of a live executable, or goes through stages. -/
theorem step_stages (execution : Execution) (request : Request)
    (hnumbered : execution.machine.code.Numbered)
    (hmay : ∀ work, request.needs execution.machine work → work ≠ .collecting → may work) :
    (∃ closure : Closure, request
        = .order (.createClosure closure.executable closure.realm closure.captures) ∧
      (∃ executable, execution.machine.heap.executable? closure.executable = some executable) ∧
      (execution.step request).2
        = { execution with machine := execution.machine.withCell (.function closure) }) ∨
    Stages may execution.machine.stackRoots execution.machine
      (execution.step request).2.machine := by
  by_cases hcollects : request.needs execution.machine .collecting
  · right
    rcases Request.collects_cases hcollects with rfl | rfl | ⟨call, rfl⟩
    · rw [order_machine, Order.run, exec_map]
      exact .single (.collect (List.Subset.refl _))
    · rw [order_machine, Order.run, exec_map]
      exact safepoint_stages (List.Subset.refl _)
    · rcases harrive : execution.machine.arrive? call with _ | prepared
      · exact (call_changes execution (startSiteCall_stopped harrive)).stages
      · have harrived : Stages may execution.machine.stackRoots execution.machine prepared :=
          (arrive?_changes harrive).stages
        refine (harrived.trans (safepoint_stages (arrive?_stackRoots harrive))).trans ?_
        exact (call_changes execution (startSiteCall_arrived hnumbered harrive)).stages
  · have hallowed : ∀ work, request.needs execution.machine work → may work := by
      intro work hneeds
      refine hmay work hneeds ?_
      rintro rfl
      exact hcollects hneeds
    rcases execution.step_cases request hnumbered hallowed with
      ⟨closure, hrequest, hexecutable, _, hstep⟩ | hchanges
    · exact .inl ⟨closure, hrequest, hexecutable, hstep⟩
    · exact .inr hchanges.stages

theorem Reachable.orderly {config : Config} {execution : Execution}
    (h : execution.Reachable config) : execution.machine.Orderly := by
  obtain ⟨machine, requests, hcreate, rfl⟩ := h
  have horderly := orderly_of_create hcreate
  exact (run_preserves Orderly (fun _ hchange => hchange.orderly)
    (fun _ _ horderly => horderly.withClosure _) _ requests horderly.numbered horderly).2

end Execution

end InlineCache
