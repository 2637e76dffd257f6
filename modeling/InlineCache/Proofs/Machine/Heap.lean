import InlineCache.Proofs.Heap.Tidy
import InlineCache.Proofs.Machine.Change

/-!
# What changes do to the heap

A change of links issues write barriers, and these change colours only. What cells hold changes
where an executable gets or loses its current code, and where cells are allocated or swept.
-/

namespace InlineCache

/-- Write barriers alone lead from one heap to the other. -/
inductive Heap.Barriers {α : Type} : Heap α → Heap α → Prop where
  | refl (heap : Heap α) : Barriers heap heap
  | issue {before after : Heap α} (owner target : Cell)
      (h : Barriers (before.writeBarrier owner target) after) : Barriers before after

namespace Heap.Barriers

variable {α : Type} {before middle after : Heap α}

theorem trans (hleft : Barriers before middle) (hright : Barriers middle after) :
    Barriers before after := by
  induction hleft with
  | refl => exact hright
  | issue owner target _ ih => exact .issue owner target (ih hright)

theorem get? (h : Barriers before after) (cell : Cell) : after.get? cell = before.get? cell := by
  induction h with
  | refl => rfl
  | issue owner target _ ih => rw [ih, get?_writeBarrier]

theorem room (h : Barriers before after) : after.room = before.room := by
  induction h with
  | refl => rfl
  | issue owner target _ ih => rw [ih, room_writeBarrier]

theorem phase (h : Barriers before after) : after.phase = before.phase := by
  induction h with
  | refl => rfl
  | issue owner target _ ih => rw [ih, writeBarrier_phase]

/-- Barriers do nothing while there is no marker. -/
theorem eq_of_idle (h : Barriers before after) (hidle : before.phase = .idle) : after = before := by
  induction h with
  | refl => rfl
  | issue owner target _ ih =>
      have hsame := writeBarrier_of_idle hidle owner target
      rw [hsame] at ih
      exact ih hidle

end Heap.Barriers

theorem Heap.setCode_phase {heap : Heap Entity} {cell : Cell} {kind : Specialization}
    {code : Option CodeId} : (heap.setCode cell kind code).phase = heap.phase :=
  update_phase _

/-- An allocation leaves every closure alone. -/
theorem Heap.Tidy.closure?_allocate {heap : Heap Entity} (h : heap.Tidy) (entity : Entity)
    {cell : Cell} {closure : Closure} (hcell : heap.closure? cell = some closure) :
    (heap.allocate entity).2.closure? cell = some closure :=
  closure?_eq_some_iff.mpr (h.get?_allocate entity (closure?_eq_some_iff.mp hcell))

namespace Machine

open Heap

variable (machine : Machine) (old : CodeId) (site : SiteRef)

theorem perform_barriers (effects : List Effect) :
    machine.heap.Barriers (machine.perform effects).heap := by
  show machine.heap.Barriers (machine.heap.issueBarriers effects)
  unfold Heap.issueBarriers
  generalize machine.heap = heap
  induction effects.filterMap Effect.barrier? generalizing heap with
  | nil => exact .refl heap
  | cons pair rest ih => exact .issue pair.1 pair.2 (ih _)

theorem retargetSite_barriers (new : Option CodePointer) :
    machine.heap.Barriers (machine.retargetSite old new site).2.heap := by
  rw [retargetSite]
  rcases machine.code.link? site with _ | link
  · exact .refl _
  · exact perform_barriers _ _

theorem upgradeSite_barriers (new : CodePointer) :
    machine.heap.Barriers (machine.upgradeSite old site new).heap := by
  have hheap : (machine.upgradeSite old site new).heap
      = (machine.retargetSite old (some new) site).2.heap := by
    rw [upgradeSite]
    rcases machine.retargetSite old (some new) site with ⟨_ | _ | _ | _, moved⟩ <;> rfl
  rw [hheap]
  exact retargetSite_barriers machine old site (some new)

theorem dropSite_barriers : machine.heap.Barriers (machine.dropSite old site).heap := by
  have hheap : (machine.dropSite old site).heap = (machine.retargetSite old none site).2.heap := by
    rw [dropSite]
    rcases machine.retargetSite old none site with ⟨_ | _ | _ | _, moved⟩ <;> rfl
  rw [hheap]
  exact retargetSite_barriers machine old site none

theorem foldl_barriers {step : Machine → SiteRef → Machine}
    (hstep : ∀ (machine : Machine) (site : SiteRef), machine.heap.Barriers (step machine site).heap)
    (sites : List SiteRef) : machine.heap.Barriers (sites.foldl step machine).heap := by
  induction sites generalizing machine with
  | nil => exact .refl _
  | cons site rest ih => exact (hstep machine site).trans (ih _)

theorem revertLinks_barriers : machine.heap.Barriers (machine.revertLinks old).heap := by
  rw [revertLinks]
  rcases machine.code.get? old with _ | block
  · exact .refl _
  · exact perform_barriers _ _

/-- The heap after a block has been replaced: its executable has new code. -/
theorem replaced_barriers (block : Block) (executable : Executable) (entry : Entry) (tier : Tier)
    (labels : List Locations) :
    (machine.heap.setCode block.owner block.kind (some machine.nextCode)).Barriers
      (machine.replaced block executable entry tier labels).heap := by
  rw [replaced, upgradeSites_eq_foldl]
  have hfold := foldl_barriers
    ((machine.compiled (block.replacement executable entry tier) labels).clearIncoming block.id)
    (fun moved site => upgradeSite_barriers moved block.id site ⟨machine.nextCode, entry⟩)
    block.incoming
  exact hfold

theorem releaseCode_heap (block : Block) : (machine.releaseCode block).heap =
    if machine.currentCode? block.owner block.kind = some block.id then
      machine.heap.setCode block.owner block.kind none
    else machine.heap := by
  rw [releaseCode, currentCode?]
  rcases machine.heap.executable? block.owner with _ | executable
  · rfl
  · dsimp only [Option.bind_some]
    split <;> rfl

theorem currentCode?_congr {before after : Machine}
    (h : ∀ cell, after.heap.get? cell = before.heap.get? cell) (cell : Cell)
    (kind : Specialization) : after.currentCode? cell kind = before.currentCode? cell kind := by
  rw [currentCode?, currentCode?, executable?, executable?, h]

/-- The heap after a block has been discarded: its executable has lost its code, if that was it. -/
theorem jettison_heap (block : Block) : ∃ heap, machine.heap.Barriers heap ∧
    (machine.jettison block).heap =
      if machine.currentCode? block.owner block.kind = some block.id then
        heap.setCode block.owner block.kind none
      else heap := by
  have hdropped : machine.heap.Barriers _ := (foldl_barriers (machine.clearIncoming block.id)
    (fun machine site => dropSite_barriers machine block.id site) block.incoming).trans
      (revertLinks_barriers _ block.id)
  refine ⟨_, hdropped, ?_⟩
  rw [← currentCode?_congr hdropped.get?]
  exact releaseCode_heap _ block

theorem sweepHeap_heap : machine.sweepHeap.2.heap =
    ((if machine.heap.isMarking = true then machine.heap
      else machine.heap.startMarking machine.rootSet).completeMarking
        machine.rootSet).reclaim.2 := by
  rw [sweepHeap]
  by_cases hmarking : machine.heap.isMarking = true
  · simp only [hmarking, if_true]
    rfl
  · simp only [hmarking]
    rfl

/-- A sweep follows some marking. The links are visited with the cells that are marked. -/
theorem sweepHeap_marked : ∃ marked : Heap Entity, marked.room = machine.heap.room ∧
    (∀ cell, marked.get? cell = machine.heap.get? cell) ∧
    machine.sweepHeap.2.heap = marked.reclaim.2 ∧
    machine.sweepHeap.2.code = (machine.code.visitWeak marked.isMarked machine.stats).1 := by
  rw [sweepHeap_heap, sweepHeap_code]
  by_cases hmarking : machine.heap.isMarking = true
  · rw [if_pos hmarking, if_pos hmarking]
    exact ⟨_, room_completeMarking, fun _ => get?_completeMarking, rfl, rfl⟩
  · rw [if_neg hmarking, if_neg hmarking]
    refine ⟨_, ?_, fun cell => ?_, rfl, rfl⟩
    · rw [room_completeMarking, room_startMarking]
    · rw [get?_completeMarking, get?_startMarking]

theorem closure?_jettison (block : Block) (cell : Cell) :
    (machine.jettison block).heap.closure? cell = machine.heap.closure? cell := by
  obtain ⟨heap, hbarriers, hheap⟩ := jettison_heap machine block
  have hsame : heap.closure? cell = machine.heap.closure? cell := by
    rw [closure?, closure?, hbarriers.get?]
  rw [hheap]
  split
  · rw [closure?_setCode, hsame]
  · exact hsame

/-- Slots are taken and freed only where a cell is allocated and where the heap is swept. -/
theorem Change.room_cases {may : Work → Prop} {before after : Machine}
    (h : Change may before after) :
    after.heap.room = before.heap.room ∨
    (∃ entity, after.heap = (before.heap.allocate entity).2) ∨
    may .collecting ∧ after = before.sweepHeap.2 := by
  have hcode : ∀ (heap : Heap Entity) (cell : Cell) (kind : Specialization) (code : Option CodeId),
      (heap.setCode cell kind code).room = heap.room := fun _ _ _ _ => room_update _
  cases h with
  | bookkeeping hstore =>
      rw [show after.heap = before.heap from congrArg Store.heap hstore]
      exact .inl rfl
  | allocation entity => exact .inr (.inl ⟨entity, rfl⟩)
  | barrier owner target => exact .inl room_writeBarrier
  | startMarking => exact .inl room_startMarking
  | markStep _ budget => exact .inl (room_markStep budget)
  | sweep hmay => exact .inr (.inr ⟨hmay, rfl⟩)
  | profile => exact .inl rfl
  | giveUp => exact .inl rfl
  | install => exact .inl rfl
  | compile labels => exact .inl (hcode _ _ _ _)
  | @replace block executable entry tier labels =>
      have hbarriers := replaced_barriers before block executable entry tier labels
      exact .inl (hbarriers.room.trans (hcode _ _ _ _))
  | @jettison block =>
      obtain ⟨heap, hbarriers, hheap⟩ := jettison_heap before block
      rw [hheap]
      split
      · exact .inl ((hcode _ _ _ _).trans hbarriers.room)
      · exact .inl hbarriers.room
  | prune => exact .inl rfl

theorem Change.addressable {may : Work → Prop} {before after : Machine}
    (h : Change may before after) (hafter : after.heap.Addressable) : before.heap.Addressable := by
  rcases h.room_cases with hroom | ⟨entity, hheap⟩ | ⟨_, rfl⟩
  · rwa [Addressable, ← length_slots_of_room hroom]
  · rw [hheap] at hafter
    exact Nat.le_trans (length_slots_allocate entity) hafter
  · obtain ⟨marked, hroom, _, hheap, _⟩ := sweepHeap_marked before
    rw [hheap] at hafter
    have hlength : marked.reclaim.2.slots.length = marked.slots.length := List.length_map _
    rwa [Addressable, ← length_slots_of_room hroom, ← hlength]

theorem Change.tidy {may : Work → Prop} {before after : Machine} (h : Change may before after)
    (haddressable : may .collecting → before.heap.Addressable) (htidy : before.heap.Tidy) :
    after.heap.Tidy := by
  rcases h.room_cases with hroom | ⟨entity, hheap⟩ | ⟨hmay, rfl⟩
  · exact htidy.of_room hroom
  · rw [hheap]
    exact htidy.allocate entity
  · obtain ⟨marked, hroom, _, hheap, _⟩ := sweepHeap_marked before
    have hfits := haddressable hmay
    rw [Addressable, ← length_slots_of_room hroom] at hfits
    have hroom' : marked.reclaim.2.room = marked.sweep.room := rfl
    rw [hheap]
    exact ((htidy.of_room hroom).sweep hfits).of_room hroom'

end Machine

end InlineCache
