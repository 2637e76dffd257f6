import InlineCache.Proofs.Heap.Exactness

/-!
# Handles are never given out twice

Slots are reused, and a handle tells the cells of a slot apart by the generation of the slot alone.
A slot takes the next generation when its cell is reclaimed. So the handles of a slot that have been
reclaimed are those of its earlier generations, and a handle that has been given out names a cell or
has been reclaimed. A generation has 32 bits: it comes round only after as many allocations.

To its user a heap is then a map whose keys are fresh: a handle reads as what was allocated with it
and changed through it, until a collection reports it.
-/

namespace InlineCache

/-- How many allocations a slot has seen. -/
def Slot.allocations {α : Type} (slot : Slot α) : Nat :=
  slot.generation.toNat + if slot.content.isSome then 1 else 0

theorem Slot.allocations_swept {α : Type} (slot : Slot α) :
    slot.swept.allocations ≤ slot.allocations := by
  rcases slot with ⟨generation, ⟨_ | _ | _, tag⟩, _ | content⟩ <;>
    simp [swept, allocations, UInt32.toNat_add, Nat.mod_le]

namespace Heap

variable {α : Type} {heap after : Heap α} {cell : Cell} {issued taken : List Cell}

/-! ### The generations of a slot -/

/-- The handle is of an earlier generation of its slot. -/
def Outdated (heap : Heap α) (cell : Cell) : Prop :=
  cell.generation < heap.generationAt cell.index.toNat

theorem contains_iff_slot : heap.contains cell = true ↔
    ∃ slot, heap.slots[cell.index.toNat]? = some slot ∧ slot.generation = cell.generation ∧
      slot.content.isSome = true := by
  simp only [contains, Option.isSome_iff_exists, slot?_eq_some_iff]

theorem contains_of_room (hroom : after.room = heap.room) (h : heap.contains cell = true) :
    after.contains cell = true := by
  obtain ⟨slot, hslot, hgeneration, hoccupied⟩ := contains_iff_slot.mp h
  obtain ⟨found, hfound, hsame, hcontent⟩ := slot_of_room hroom hslot
  exact contains_iff_slot.mpr ⟨found, hfound, hsame.trans hgeneration, hcontent.trans hoccupied⟩

theorem generation_of_contains (h : heap.contains cell = true) :
    heap.generationAt cell.index.toNat = cell.generation := by
  obtain ⟨slot, hslot, hgeneration, _⟩ := contains_iff_slot.mp h
  rw [generationAt_of_getElem? hslot, hgeneration]

/-- A handle that does not resolve is of no use. -/
theorem useless_of_not_contains (h : ¬ heap.contains cell = true) :
    heap.get? cell = none ∧ heap.contains cell = false ∧ heap.header? cell = none ∧
      ∀ change, heap.update cell change = heap := by
  have hslot : heap.slot? cell = none := by simpa [contains] using h
  refine ⟨by rw [get?, hslot]; rfl, Bool.eq_false_iff.mpr h, by rw [header?, hslot]; rfl, ?_⟩
  intro change
  rw [update, updateSlot, hslot]

theorem Outdated.not_contains (h : heap.Outdated cell) : ¬ heap.contains cell = true := by
  intro hlive
  rw [Outdated, generation_of_contains hlive] at h
  exact UInt32.lt_irrefl _ h

/-! ### The handles that a heap has given out -/

/-- The handles that a heap has given out, and those that it has reported as reclaimed. -/
structure Records (heap : Heap α) (issued taken : List Cell) : Prop where
  tidy : heap.Tidy
  length_slots_le : heap.slots.length ≤ issued.length
  allocations_le : ∀ {index : Nat} {slot}, heap.slots[index]? = some slot →
    slot.allocations ≤ issued.length
  mem_taken_iff : ∀ {cell}, cell ∈ taken ↔ heap.Outdated cell
  mem_issued_iff : ∀ {cell}, cell ∈ issued ↔ cell ∈ taken ∨ heap.contains cell = true
  nodup_issued : issued.Nodup
  nodup_taken : taken.Nodup

namespace Records

theorem empty (settings : HeapSettings) : ({ settings } : Heap α).Records [] [] where
  tidy := ⟨List.nodup_nil, nofun⟩
  length_slots_le := Nat.le_refl 0
  allocations_le := nofun
  mem_taken_iff := by simp [Outdated, generationAt]
  mem_issued_iff := by simp [contains_iff_slot]
  nodup_issued := List.nodup_nil
  nodup_taken := List.nodup_nil

theorem addressable (h : heap.Records issued taken) (hfew : issued.length < UInt32.size) :
    heap.Addressable :=
  Nat.le_of_lt (Nat.lt_of_le_of_lt h.length_slots_le hfew)

theorem of_room (h : heap.Records issued taken) (hroom : after.room = heap.room) :
    after.Records issued taken where
  tidy := h.tidy.of_room hroom
  length_slots_le := by
    rw [length_slots_of_room hroom]
    exact h.length_slots_le
  allocations_le := by
    intro index slot hslot
    obtain ⟨found, hfound, hgeneration, hcontent⟩ := slot_of_room hroom.symm hslot
    have hbound := h.allocations_le hfound
    rwa [Slot.allocations, hgeneration, hcontent] at hbound
  mem_taken_iff := by
    intro cell
    rw [h.mem_taken_iff, Outdated, Outdated, generationAt_of_room hroom]
  mem_issued_iff := h.mem_issued_iff.trans
    (or_congr_right ⟨contains_of_room hroom, contains_of_room hroom.symm⟩)
  nodup_issued := h.nodup_issued
  nodup_taken := h.nodup_taken

theorem generationAt_le (h : heap.Records issued taken) (index : Nat) :
    (heap.generationAt index).toNat ≤ issued.length := by
  rcases hslot : heap.slots[index]? with _ | slot
  · simp [generationAt, hslot]
  · have hbound := h.allocations_le hslot
    rw [Slot.allocations] at hbound
    rw [generationAt_of_getElem? hslot]
    omega

end Records

/-! ### Allocating -/

section

variable [Traceable α]

/-- The slot of a new cell. -/
def newSlot (heap : Heap α) (index : Nat) (content : α) : Slot α where
  generation := heap.generationAt index
  header := ⟨if heap.phase = .marking then .black else .white, Traceable.tag content⟩
  content := some content

/-- A new cell takes a slot that is empty or one that is yet to be made, in its generation. -/
theorem Tidy.allocate_slots (h : heap.Tidy) (content : α) : ∃ index,
    index ≤ heap.slots.length ∧
    (heap.allocate content).1 = ⟨UInt32.ofNat index, heap.generationAt index⟩ ∧
    (∀ slot, heap.slots[index]? = some slot → slot.content = none) ∧
    (heap.allocate content).2.slots.length ≤ heap.slots.length + 1 ∧
    ∀ other : Nat, (heap.allocate content).2.slots[other]? =
      if other = index then some (heap.newSlot index content) else heap.slots[other]? := by
  rw [Heap.allocate]
  rcases hfree : heap.free with _ | ⟨index, rest⟩ <;> dsimp only
  · have hfirst : heap.generationAt heap.slots.length = 0 := by simp [generationAt]
    refine ⟨heap.slots.length, Nat.le_refl _, by rw [hfirst], by simp, by simp, fun other => ?_⟩
    rw [newSlot, hfirst, List.getElem?_append]
    split
    · rw [if_neg (by omega)]
    · by_cases hother : other = heap.slots.length
      · simp [hother]
      · rw [if_neg hother, List.getElem?_eq_none (by simp; omega),
          List.getElem?_eq_none (by omega)]
  · obtain ⟨slot, hslot, hempty⟩ := h.empty index (by rw [hfree]; exact .head _)
    have hbound := (List.getElem?_eq_some_iff.mp hslot).1
    refine ⟨index, Nat.le_of_lt hbound, rfl, fun found hfound => ?_, by simp, fun other => ?_⟩
    · rwa [← Option.some.inj (hslot.symm.trans hfound)]
    · rw [List.getElem?_set]
      by_cases hother : other = index
      · rw [if_pos hother.symm, if_pos hother, if_pos (hother ▸ hbound)]
        rfl
      · rw [if_neg (Ne.symm hother), if_neg hother]

theorem Records.get?_allocate_self (h : heap.Records issued taken) (content : α)
    (hfew : issued.length + 1 < UInt32.size) :
    (heap.allocate content).2.get? (heap.allocate content).1 = some content := by
  obtain ⟨index, hplace, hcell, _, _, hslots⟩ := h.tidy.allocate_slots content
  have hbound := h.length_slots_le
  have hindex : (UInt32.ofNat index).toNat = index := UInt32.toNat_ofNat_of_lt' (by omega)
  refine get?_eq_some_iff.mpr ⟨heap.newSlot index content, ?_, rfl⟩
  rw [slot?_eq_some_iff, hslots, hcell]
  exact ⟨if_pos hindex, rfl, rfl⟩

theorem Records.allocate (h : heap.Records issued taken) (content : α)
    (hfew : issued.length + 1 < UInt32.size) :
    (heap.allocate content).2.Records (issued ++ [(heap.allocate content).1]) taken := by
  obtain ⟨index, hplace, hcell, hempty, hlength, hslots⟩ := h.tidy.allocate_slots content
  have hbound := h.length_slots_le
  have hindex : (UInt32.ofNat index).toNat = index := UInt32.toNat_ofNat_of_lt' (by omega)
  have hgeneration : ∀ other, (heap.allocate content).2.generationAt other
      = heap.generationAt other := by
    intro other
    by_cases hother : other = index
    · rw [generationAt, hslots, if_pos hother, hother]
      rfl
    · rw [generationAt, hslots, if_neg hother, generationAt]
  have hvacant : ∀ {other : Cell}, other.index.toNat = index → ¬ heap.contains other = true := by
    intro other hother hlive
    obtain ⟨slot, hslot, _, hoccupied⟩ := contains_iff_slot.mp hlive
    rw [hempty slot (hother ▸ hslot)] at hoccupied
    cases hoccupied
  have hlive : ∀ other, (heap.allocate content).2.contains other = true ↔
      heap.contains other = true ∨ other = (heap.allocate content).1 := by
    intro other
    rw [contains_iff_slot, hslots, hcell]
    by_cases hother : other.index.toNat = index
    · rw [if_pos hother, or_iff_right (hvacant hother)]
      constructor
      · rintro ⟨slot, hslot, hgeneration, _⟩
        rw [← Option.some.inj hslot] at hgeneration
        exact eq_of_index_generation hother hgeneration
      · rintro rfl
        exact ⟨_, rfl, rfl, rfl⟩
    · have hne : other ≠ ⟨UInt32.ofNat index, heap.generationAt index⟩ := by
        rintro rfl
        exact hother hindex
      rw [if_neg hother, or_iff_left hne, contains_iff_slot]
  refine ⟨h.tidy.allocate content, ?_, ?_, ?_, ?_, ?_, h.nodup_taken⟩
  · rw [List.length_append, List.length_singleton]
    omega
  · intro other slot hslot
    rw [List.length_append, List.length_singleton]
    rw [hslots] at hslot
    split at hslot
    · rw [← Option.some.inj hslot]
      exact Nat.succ_le_succ (h.generationAt_le index)
    · exact Nat.le_succ_of_le (h.allocations_le hslot)
  · intro other
    rw [h.mem_taken_iff, Outdated, Outdated, hgeneration]
  · intro other
    rw [List.mem_append, List.mem_singleton, h.mem_issued_iff, hlive, or_assoc]
  · rw [List.nodup_append]
    refine ⟨h.nodup_issued, by simp, ?_⟩
    rintro other hother _ hnew rfl
    obtain rfl := List.mem_singleton.mp hnew
    rcases h.mem_issued_iff.mp hother with hreclaimed | hcontained
    · rw [h.mem_taken_iff, Outdated, hcell, hindex] at hreclaimed
      exact UInt32.lt_irrefl _ hreclaimed
    · exact hvacant (by rw [hcell]; exact hindex) hcontained

end

/-! ### Sweeping -/

theorem generationAt_sweep (index : Nat) : heap.sweep.generationAt index =
    if index ∈ heap.deadIndices then heap.generationAt index + 1 else heap.generationAt index := by
  have hslots : heap.sweep.slots[index]? = (heap.slots[index]?).map Slot.swept := List.getElem?_map
  rcases hslot : heap.slots[index]? with _ | slot
  · rw [if_neg, generationAt, generationAt, hslots, hslot]
    · rfl
    · rw [mem_deadIndices, hslot]
      simp
  · have hdead : index ∈ heap.deadIndices ↔
        slot.content.isSome = true ∧ slot.header.color = .white := by
      rw [mem_deadIndices, hslot]
      simp
    rw [generationAt, hslots, hslot, generationAt_of_getElem? hslot]
    simp only [hdead]
    rcases slot with ⟨generation, ⟨_ | _ | _, tag⟩, _ | content⟩ <;> simp [Slot.swept]

theorem mem_garbage_iff_deadIndices (haddressable : heap.Addressable) : cell ∈ heap.garbage ↔
    cell.index.toNat ∈ heap.deadIndices ∧ cell.generation = heap.generationAt cell.index.toNat := by
  constructor
  · intro hmem
    refine ⟨?_, (generation_of_contains ((mem_garbage_iff haddressable).mp hmem).1).symm⟩
    rw [← index_garbage haddressable]
    exact List.mem_map_of_mem hmem
  · rintro ⟨hdead, hgeneration⟩
    obtain ⟨slot, hslot, hoccupied, hwhite⟩ := mem_deadIndices.mp hdead
    rw [generationAt_of_getElem? hslot] at hgeneration
    refine mem_garbage_of_color? ?_
    rw [color?, slot?_eq_some_iff.mpr ⟨hslot, hgeneration.symm, hoccupied⟩, Option.map_some, hwhite]

/-- A slot that a sweep empties can tell its next cell from all before, as long as fewer cells than
there are generations have been allocated. -/
theorem Records.toNat_generationAt_succ {index : Nat}
    (h : heap.Records issued taken) (hfew : issued.length < UInt32.size)
    (hdead : index ∈ heap.deadIndices) :
    (heap.generationAt index + 1).toNat = (heap.generationAt index).toNat + 1 := by
  obtain ⟨slot, hslot, hoccupied, _⟩ := mem_deadIndices.mp hdead
  have hbound := h.allocations_le hslot
  rw [Slot.allocations, if_pos hoccupied] at hbound
  rw [generationAt_of_getElem? hslot, UInt32.toNat_add, UInt32.toNat_one]
  exact Nat.mod_eq_of_lt (Nat.lt_of_le_of_lt hbound hfew)

theorem Records.outdated_sweep (h : heap.Records issued taken)
    (hfew : issued.length < UInt32.size) :
    heap.sweep.Outdated cell ↔ heap.Outdated cell ∨ cell ∈ heap.garbage := by
  rw [mem_garbage_iff_deadIndices (h.addressable hfew), Outdated, Outdated, generationAt_sweep]
  split
  · rename_i hdead
    rw [UInt32.lt_iff_toNat_lt, h.toNat_generationAt_succ hfew hdead, UInt32.lt_iff_toNat_lt,
      ← UInt32.toNat_inj]
    simp only [hdead, true_and]
    omega
  · rename_i hkept
    simp [hkept]

theorem Records.sweep (h : heap.Records issued taken) (hfew : issued.length < UInt32.size) :
    heap.sweep.Records issued (taken ++ heap.garbage) := by
  have haddressable := h.addressable hfew
  refine ⟨h.tidy.sweep haddressable, ?_, ?_, ?_, ?_, h.nodup_issued, ?_⟩
  · exact Nat.le_trans (Nat.le_of_eq (List.length_map _)) h.length_slots_le
  · intro index slot hslot
    have hslots : heap.sweep.slots[index]? = (heap.slots[index]?).map Slot.swept :=
      List.getElem?_map
    rw [hslots, Option.map_eq_some_iff] at hslot
    obtain ⟨old, hold, rfl⟩ := hslot
    exact Nat.le_trans old.allocations_swept (h.allocations_le hold)
  · intro cell
    rw [List.mem_append, h.mem_taken_iff, h.outdated_sweep hfew]
  · intro cell
    rw [h.mem_issued_iff, List.mem_append, contains_sweep, mem_garbage_iff haddressable, or_assoc]
    have hmarked : heap.isMarked cell = true → heap.contains cell = true := contains_of_isMarked
    grind
  · rw [List.nodup_append]
    have hsorted := sorted_garbage haddressable
    refine ⟨h.nodup_taken, ?_, ?_⟩
    · refine hsorted.imp fun {first second} hlt heq => ?_
      exact UInt32.lt_irrefl _ (heq ▸ hlt)
    · rintro cell hold _ hdead rfl
      exact (h.mem_taken_iff.mp hold).not_contains ((mem_garbage_iff haddressable).mp hdead).1

/-! ### Runs -/

section

variable [Traceable α]

/-- The handle that a step gives out. -/
def issues (heap : Heap α) : Step α → List Cell
  | .allocate content => [(heap.allocate content).1]
  | .mutate _ _ | .writeBarrier _ _ | .startMarking _ | .markStep _ | .collect _ => []

/-- The handles that a step reports as reclaimed. -/
def reports (heap : Heap α) : Step α → List Cell
  | .collect roots => (heap.collect roots).1.reclaimed
  | .allocate _ | .mutate _ _ | .writeBarrier _ _ | .startMarking _ | .markStep _ => []

/-- What the steps of a run answer, one after the other. -/
def gather (answer : Heap α → Step α → List Cell) (heap : Heap α) : List (Step α) → List Cell
  | [] => []
  | step :: rest => answer heap step ++ gather answer (heap.apply step) rest

/-- The handles that a run gives out. -/
def handles (heap : Heap α) (steps : List (Step α)) : List Cell := gather issues heap steps

/-- The handles that a run reports as reclaimed. -/
def reclaimed (heap : Heap α) (steps : List (Step α)) : List Cell := gather reports heap steps

theorem gather_append (answer : Heap α → Step α → List Cell) (heap : Heap α)
    (before later : List (Step α)) : gather answer heap (before ++ later)
      = gather answer heap before ++ gather answer (heap.run before) later := by
  induction before generalizing heap with
  | nil => rfl
  | cons step rest ih => rw [List.cons_append, gather, ih, gather, List.append_assoc]; rfl

theorem Records.apply (h : heap.Records issued taken) (step : Step α)
    (hfew : (issued ++ heap.issues step).length < UInt32.size) :
    (heap.apply step).Records (issued ++ heap.issues step) (taken ++ heap.reports step) := by
  rw [List.length_append] at hfew
  cases step with
  | allocate content =>
      rw [reports, List.append_nil]
      exact h.allocate content hfew
  | mutate cell change =>
      rw [issues, reports, List.append_nil, List.append_nil]
      exact h.of_room (room_update change)
  | writeBarrier owner target =>
      rw [issues, reports, List.append_nil, List.append_nil]
      exact h.of_room room_writeBarrier
  | startMarking roots =>
      rw [issues, reports, List.append_nil, List.append_nil]
      exact h.of_room room_startMarking
  | markStep budget =>
      rw [issues, reports, List.append_nil, List.append_nil]
      exact h.of_room (room_markStep budget)
  | collect roots =>
      rw [issues, List.append_nil]
      have hmarked : (heap.completeMarking roots).Records issued taken :=
        h.of_room room_completeMarking
      have hended : (heap.completeMarking roots).reclaim.2.room
          = (heap.completeMarking roots).sweep.room := rfl
      exact (hmarked.sweep hfew).of_room hended

theorem Records.run (h : heap.Records issued taken) (steps : List (Step α))
    (hfew : (issued ++ heap.handles steps).length < UInt32.size) :
    (heap.run steps).Records (issued ++ heap.handles steps) (taken ++ heap.reclaimed steps) := by
  induction steps generalizing heap issued taken with
  | nil =>
      rw [handles, reclaimed, gather, gather, List.append_nil, List.append_nil]
      exact h
  | cons step rest ih =>
      rw [handles, gather, ← List.append_assoc] at hfew ⊢
      rw [reclaimed, gather, ← List.append_assoc]
      refine ih (h.apply step ?_) hfew
      rw [List.length_append] at hfew
      exact Nat.lt_of_le_of_lt (Nat.le_add_right _ _) hfew

end

/-! ### What a handle reads as -/

/-- The content of a cell after the changes that are made through its handle. -/
def Step.changed (cell : Cell) (content : α) : Step α → α
  | .mutate other change => if other = cell then change content else content
  | .allocate _ | .writeBarrier _ _ | .startMarking _ | .markStep _ | .collect _ => content

/-- The content of a cell after a run that does not reclaim it. -/
def contentAfter (cell : Cell) (content : α) (steps : List (Step α)) : α :=
  steps.foldl (Step.changed cell) content

section

variable [Traceable α]

theorem Records.get?_apply (h : heap.Records issued taken) (hfew : issued.length < UInt32.size)
    (step : Step α) {content : α} (hcontent : heap.get? cell = some content)
    (hkept : cell ∉ heap.reports step) :
    (heap.apply step).get? cell = some (step.changed cell content) := by
  cases step with
  | allocate fresh => exact h.tidy.get?_allocate fresh hcontent
  | mutate other change =>
      show (heap.update other change).get? cell = some _
      rw [get?_update, Step.changed]
      by_cases hother : cell = other
      · rw [if_pos hother, if_pos hother.symm, ← hother, hcontent, Option.map_some]
      · rw [if_neg hother, if_neg (Ne.symm hother), hcontent]
  | writeBarrier owner target => exact get?_writeBarrier.trans hcontent
  | startMarking roots => exact get?_startMarking.trans hcontent
  | markStep budget => exact (get?_markStep budget).trans hcontent
  | collect roots =>
      have hlive : (heap.completeMarking roots).contains cell = true :=
        (contains_congr get?_completeMarking).trans (contains_iff.mpr ⟨content, hcontent⟩)
      have hmarked : (heap.completeMarking roots).isMarked cell = true := by
        by_contra hwhite
        have haddressable : (heap.completeMarking roots).Addressable :=
          addressable_completeMarking (h.addressable hfew)
        exact hkept ((mem_garbage_iff haddressable).mpr ⟨hlive, hwhite⟩)
      show (heap.completeMarking roots).sweep.get? cell = some content
      rw [get?_sweep, if_pos hmarked, get?_completeMarking, hcontent]

theorem Records.get?_run (h : heap.Records issued taken) (steps : List (Step α))
    (hfew : (issued ++ heap.handles steps).length < UInt32.size) {content : α}
    (hcontent : heap.get? cell = some content) (hkept : cell ∉ heap.reclaimed steps) :
    (heap.run steps).get? cell = some (contentAfter cell content steps) := by
  induction steps generalizing heap issued taken content with
  | nil => exact hcontent
  | cons step rest ih =>
      rw [handles, gather, ← List.append_assoc] at hfew
      rw [reclaimed, gather, List.mem_append, not_or] at hkept
      have hnow : (issued ++ heap.issues step).length < UInt32.size := by
        rw [List.length_append] at hfew
        exact Nat.lt_of_le_of_lt (Nat.le_add_right _ _) hfew
      have hbefore : issued.length < UInt32.size := by
        rw [List.length_append] at hnow
        exact Nat.lt_of_le_of_lt (Nat.le_add_right _ _) hnow
      exact ih (h.apply step hnow) hfew (h.get?_apply hbefore step hcontent hkept.1) hkept.2

theorem Records.get?_run_allocate (h : heap.Records issued taken) (content : α)
    (later : List (Step α))
    (hfew : (issued ++ heap.handles (.allocate content :: later)).length < UInt32.size)
    (hkept : (heap.allocate content).1 ∉ heap.reclaimed (.allocate content :: later)) :
    (heap.run (.allocate content :: later)).get? (heap.allocate content).1
      = some (contentAfter (heap.allocate content).1 content later) := by
  rw [handles, gather, ← List.append_assoc] at hfew
  have hnow : issued.length + 1 < UInt32.size := by
    rw [List.length_append, List.length_append] at hfew
    exact Nat.lt_of_le_of_lt (Nat.le_add_right _ _) hfew
  exact (h.allocate content hnow).get?_run later hfew (h.get?_allocate_self content hnow) hkept

/-- A heap that has given out fewer handles than there are generations is a map with fresh keys. No
handle is given out or reported twice. A handle resolves from the allocation that gives it out to
the collection that reports it, and reads as what was allocated, with the changes made through it.
Once it is reported, nothing is read, found or changed through it any more. -/
theorem handles_are_fresh_keys (settings : HeapSettings) (steps : List (Step α))
    (hfew : (({ settings } : Heap α).handles steps).length < UInt32.size) :
    let start : Heap α := { settings }
    let heap := start.run steps
    (start.handles steps).Nodup ∧ (start.reclaimed steps).Nodup ∧
    (∀ cell, heap.contains cell = true ↔
      cell ∈ start.handles steps ∧ cell ∉ start.reclaimed steps) ∧
    (∀ before content later, steps = before ++ .allocate content :: later →
      let cell := ((start.run before).allocate content).1
      cell ∉ start.reclaimed steps → heap.get? cell = some (contentAfter cell content later)) ∧
    ∀ before later, steps = before ++ later → ∀ cell ∈ start.reclaimed before,
      cell ∈ start.handles before ∧ heap.get? cell = none ∧ heap.contains cell = false ∧
        heap.header? cell = none ∧ ∀ change, heap.update cell change = heap := by
  intro start heap
  have hrecords : ∀ {before later}, steps = before ++ later →
      (start.run before).Records (start.handles before) (start.reclaimed before) := by
    rintro before later rfl
    have hrun := (Records.empty settings).run before
    rw [List.nil_append, List.nil_append] at hrun
    refine hrun (Nat.lt_of_le_of_lt ?_ hfew)
    rw [handles, handles, gather_append, List.length_append]
    exact Nat.le_add_right _ _
  have hended := hrecords (List.append_nil steps).symm
  have hdead : ∀ {cell}, cell ∈ start.reclaimed steps → ¬ heap.contains cell = true :=
    fun hmem => (hended.mem_taken_iff.mp hmem).not_contains
  refine ⟨hended.nodup_issued, hended.nodup_taken, fun cell => ?_, ?_, ?_⟩
  · rw [hended.mem_issued_iff]
    constructor
    · exact fun hlive => ⟨.inr hlive, fun hmem => hdead hmem hlive⟩
    · exact fun ⟨hissued, hkept⟩ => hissued.resolve_left hkept
  · rintro before content later rfl cell hkept
    rw [handles, gather_append] at hfew
    rw [reclaimed, gather_append, List.mem_append, not_or] at hkept
    have hrun : heap = (start.run before).run (.allocate content :: later) := List.foldl_append
    rw [hrun]
    exact (hrecords rfl).get?_run_allocate content later hfew hkept.2
  · rintro before later rfl cell hmem
    refine ⟨(hrecords rfl).mem_issued_iff.mpr (.inl hmem), useless_of_not_contains (hdead ?_)⟩
    rw [reclaimed, gather_append]
    exact List.mem_append_left _ hmem

/-- The slot of the first cell is used again for a second one, which is changed through its handle.
A change through the handle of the first comes to nothing. -/
def slotReused : List (Step Node) :=
  [.allocate ⟨1, []⟩, .collect [], .allocate ⟨2, []⟩,
    .mutate ⟨0, 1⟩ fun node => { node with tag := 5 },
    .startMarking [⟨0, 1⟩], .allocate ⟨3, []⟩,
    .mutate ⟨0, 0⟩ fun node => { node with tag := 6 }]

theorem handle_of_reused_slot :
    let start : Heap Node := {}
    (start.handles slotReused).length < UInt32.size ∧ (start.handles slotReused).Nodup ∧
      (start.run slotReused).get? ⟨0, 1⟩ = some ⟨5, []⟩ ∧
      (start.run slotReused).get? ⟨0, 0⟩ = none := by
  intro start
  have hfew : (start.handles slotReused).length < UInt32.size := by decide
  obtain ⟨hnodup, _, _, hreads, hgone⟩ := handles_are_fresh_keys {} slotReused hfew
  have hkept := hreads (slotReused.take 2) ⟨2, []⟩ (slotReused.drop 3) rfl (by decide)
  exact ⟨hfew, hnodup, hkept, (hgone slotReused [] rfl ⟨0, 0⟩ (by decide)).2.1⟩

end

end Heap

end InlineCache
