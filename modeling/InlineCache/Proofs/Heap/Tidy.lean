import InlineCache.Proofs.Heap.Progress
import Mathlib.Data.List.Nodup

/-!
# Free slots

Only empty slots are free, and each of them once. So an allocation never overwrites a cell. Sweeping
keeps this as long as every slot has a handle of its own: handles have an index of 32 bits, and a
heap with more slots would free slots that hold live cells.
-/

namespace InlineCache.Heap

variable {α : Type} {heap after : Heap α} {cell : Cell} {cells : List Cell}

/-- Every slot has a handle of its own. -/
def Addressable (heap : Heap α) : Prop := heap.slots.length ≤ UInt32.size

structure Tidy (heap : Heap α) : Prop where
  nodup : heap.free.Nodup
  empty : ∀ index ∈ heap.free, ∃ slot, heap.slots[index]? = some slot ∧ slot.content = none

/-- Which slots are listed as free, and the generation of each slot with whether it is occupied. -/
def room (heap : Heap α) : List Nat × List (UInt32 × Bool) :=
  (heap.free, heap.slots.map fun slot => (slot.generation, slot.content.isSome))

/-- Two heaps with the same room have the same slots, up to what the occupied ones hold. -/
theorem slot_of_room (hroom : after.room = heap.room) {index : Nat} {slot : Slot α}
    (hslot : heap.slots[index]? = some slot) :
    ∃ found, after.slots[index]? = some found ∧ found.generation = slot.generation ∧
      found.content.isSome = slot.content.isSome := by
  have hplace := congrArg (fun places => places[index]?) (Prod.mk.inj hroom).2
  simp only [List.getElem?_map, hslot, Option.map_some] at hplace
  obtain ⟨found, hfound, heq⟩ := Option.map_eq_some_iff.mp hplace
  exact ⟨found, hfound, (Prod.mk.inj heq).1, (Prod.mk.inj heq).2⟩

theorem Tidy.of_room (h : heap.Tidy) (hroom : after.room = heap.room) : after.Tidy := by
  have hfree : after.free = heap.free := (Prod.mk.inj hroom).1
  refine ⟨hfree ▸ h.nodup, fun index hindex => ?_⟩
  obtain ⟨slot, hslot, hempty⟩ := h.empty index (hfree ▸ hindex)
  obtain ⟨found, hfound, _, hnone⟩ := slot_of_room hroom hslot
  rw [hempty] at hnone
  exact ⟨found, hfound, by simpa using hnone⟩

theorem length_slots_of_room (hroom : after.room = heap.room) :
    after.slots.length = heap.slots.length := by
  simpa using congrArg List.length (Prod.mk.inj hroom).2

/-! ### What the marker leaves as it is -/

/-- A view of the heap that shows neither the colours of the cells nor what the marker has noted. -/
structure Colorblind {β : Type} (view : Heap α → β) : Prop where
  setColor : ∀ heap cell color, view (heap.setColor cell color) = view heap
  notes : ∀ (heap : Heap α) phase worklist buffer grays marked,
    view { heap with
      phase, worklist, buffer, barrierGrays := grays, markedThisCycle := marked } = view heap

namespace Colorblind

variable {β : Type} {view : Heap α → β}

theorem shade (h : Colorblind view) (heap : Heap α) (cell : Cell) :
    view (heap.shade cell) = view heap := by
  rw [shade_eq]
  split
  · exact (h.notes (heap.setColor cell .gray) _ _ _ _ _).trans (h.setColor heap cell .gray)
  · rfl

theorem shadeAll (h : Colorblind view) (heap : Heap α) (cells : List Cell) :
    view (heap.shadeAll cells) = view heap := by
  rw [Heap.shadeAll]
  induction cells generalizing heap with
  | nil => rfl
  | cons cell rest ih => rw [List.foldl_cons, ih, h.shade]

theorem writeBarrier (h : Colorblind view) (heap : Heap α) (owner target : Cell) :
    view (heap.writeBarrier owner target) = view heap := by
  rw [writeBarrier_eq]
  split
  · exact (h.notes (heap.setColor target .gray) _ _ _ _ _).trans (h.setColor heap target .gray)
  · rfl

/-- Only whitening the cells can show. -/
theorem startMarking (h : Colorblind view) (hwhiten : view heap.whiten = view heap)
    (roots : List Cell) : view (heap.startMarking roots) = view heap := by
  rw [Heap.startMarking]
  rcases heap.phase with _ | _ <;> dsimp only
  · obtain ⟨fresh, hfresh⟩ : ∃ fresh, fresh = ({ heap.whiten with
        worklist := [], buffer := {}, markedThisCycle := 0 } : Heap α) := ⟨_, rfl⟩
    rw [← hfresh]
    calc view { fresh.shadeAll roots with phase := .marking }
      _ = view (fresh.shadeAll roots) := h.notes (fresh.shadeAll roots) _ _ _ _ _
      _ = view fresh := h.shadeAll fresh roots
      _ = view heap.whiten := by
        rw [hfresh]
        exact h.notes heap.whiten _ _ _ _ _
      _ = view heap := hwhiten

variable [Traceable α]

theorem scan (h : Colorblind view) (heap : Heap α) (cell : Cell) :
    view (heap.scan cell) = view heap := by
  obtain ⟨shaded, hshaded⟩ : ∃ shaded,
      shaded = heap.shadeAll ((heap.get? cell).elim [] Traceable.children) := ⟨_, rfl⟩
  calc view (heap.scan cell)
    _ = view (shaded.setColor cell .black) := by
      rw [hshaded]
      exact h.notes (Heap.setColor _ cell .black) _ _ _ _ _
    _ = view shaded := h.setColor shaded cell .black
    _ = view heap := by rw [hshaded, h.shadeAll]

theorem scanUpTo (h : Colorblind view) (budget : Nat) (heap : Heap α) :
    view (scanUpTo budget heap) = view heap := by
  induction budget generalizing heap with
  | zero => rfl
  | succ budget ih =>
      rw [Heap.scanUpTo]
      rcases heap.worklist.dropWhile fun cell => !heap.isPending cell with _ | ⟨cell, rest⟩
      · exact h.notes heap _ _ _ _ _
      · dsimp only
        rw [ih, h.scan]
        exact h.notes heap _ _ _ _ _

theorem markStep (h : Colorblind view) (heap : Heap α) (budget : Nat) :
    view (heap.markStep budget).2 = view heap := by
  rcases hphase : heap.phase with _ | _
  · rw [Heap.markStep, hphase]
  · rw [markStep_eq hphase, h.scanUpTo]
    exact h.notes heap _ _ _ _ _

theorem markAll (h : Colorblind view) (heap : Heap α) : view heap.markAll = view heap := by
  rw [Heap.markAll]
  generalize heap.pendingCount = rounds
  induction rounds generalizing heap with
  | zero => exact h.markStep heap _
  | succ rounds ih =>
      rw [markAll_go_succ]
      split
      · exact h.markStep heap _
      · rw [ih, h.markStep]

theorem completeMarking (h : Colorblind view) (hwhiten : view heap.whiten = view heap)
    (roots : List Cell) : view (heap.completeMarking roots) = view heap := by
  rw [Heap.completeMarking]
  rcases heap.phase with _ | _ <;> dsimp only
  · rw [h.markAll, h.startMarking hwhiten]
  · rw [h.markAll, h.shadeAll]

end Colorblind

theorem room_updateSlot {change : Slot α → Slot α}
    (hgeneration : ∀ slot, (change slot).generation = slot.generation)
    (hcontent : ∀ slot, (change slot).content.isSome = slot.content.isSome) :
    (heap.updateSlot cell change).room = heap.room := by
  rw [updateSlot]
  rcases hslot : heap.slot? cell with _ | slot
  · rfl
  · refine Prod.ext rfl (List.ext_getElem? fun index => ?_)
    have hfound := (slot?_eq_some_iff.mp hslot).1
    dsimp only [room]
    rw [List.getElem?_map, List.getElem?_map, List.getElem?_set]
    split
    · rename_i heq
      rw [← heq, hfound, if_pos (List.getElem?_eq_some_iff.mp hfound).1]
      exact congrArg some (Prod.ext (hgeneration slot) (hcontent slot))
    · rfl

theorem colorblind_room : Colorblind (room : Heap α → _) where
  setColor _ _ _ := room_updateSlot (fun _ => rfl) fun _ => rfl
  notes _ _ _ _ _ _ := rfl

@[simp] theorem room_update (change : α → α) : (heap.update cell change).room = heap.room :=
  room_updateSlot (fun _ => rfl) fun _ => Option.isSome_map

@[simp] theorem room_writeBarrier {owner target : Cell} :
    (heap.writeBarrier owner target).room = heap.room :=
  colorblind_room.writeBarrier heap owner target

theorem room_whiten : heap.whiten.room = heap.room := by
  refine Prod.ext rfl ?_
  dsimp only [room, whiten]
  rw [List.map_map]
  refine List.map_congr_left fun slot _ => ?_
  dsimp only [Function.comp]
  split <;> rfl

@[simp] theorem room_startMarking {roots : List Cell} :
    (heap.startMarking roots).room = heap.room :=
  colorblind_room.startMarking room_whiten roots

section

variable [Traceable α]

@[simp] theorem room_markStep (budget : Nat) : (heap.markStep budget).2.room = heap.room :=
  colorblind_room.markStep heap budget

@[simp] theorem room_completeMarking {roots : List Cell} :
    (heap.completeMarking roots).room = heap.room :=
  colorblind_room.completeMarking room_whiten roots

/-! ### Allocating -/

theorem Tidy.allocate (h : heap.Tidy) (content : α) : (heap.allocate content).2.Tidy := by
  rw [Heap.allocate]
  rcases hfree : heap.free with _ | ⟨index, rest⟩ <;> dsimp only
  · exact ⟨List.nodup_nil, by rintro _ ⟨⟩⟩
  · have hnodup := h.nodup
    rw [hfree] at hnodup
    obtain ⟨hnew, hrest⟩ := List.nodup_cons.mp hnodup
    refine ⟨hrest, fun other hother => ?_⟩
    obtain ⟨slot, hslot, hempty⟩ := h.empty other (by rw [hfree]; exact .tail _ hother)
    refine ⟨slot, ?_, hempty⟩
    rw [List.getElem?_set_ne, hslot]
    rintro rfl
    exact hnew hother

/-- An allocation leaves every live cell alone. -/
theorem Tidy.get?_allocate (h : heap.Tidy) (content : α) {found : α}
    (hfound : heap.get? cell = some found) : (heap.allocate content).2.get? cell = some found := by
  obtain ⟨slot, hslot, hcontent⟩ := get?_eq_some_iff.mp hfound
  obtain ⟨hplace, hgeneration, hoccupied⟩ := slot?_eq_some_iff.mp hslot
  refine get?_eq_some_iff.mpr ⟨slot, slot?_eq_some_iff.mpr ⟨?_, hgeneration, hoccupied⟩, hcontent⟩
  rw [Heap.allocate]
  rcases hfree : heap.free with _ | ⟨index, rest⟩ <;> dsimp only
  · rwa [List.getElem?_append_left (List.getElem?_eq_some_iff.mp hplace).1]
  · rw [List.getElem?_set_ne, hplace]
    intro heq
    obtain ⟨reused, hreused, hempty⟩ := h.empty index (by rw [hfree]; exact .head _)
    rw [heq, hplace] at hreused
    rw [← Option.some.inj hreused, hcontent] at hempty
    cases hempty

theorem length_slots_allocate (content : α) :
    heap.slots.length ≤ (heap.allocate content).2.slots.length := by
  rw [Heap.allocate]
  rcases heap.free with _ | ⟨index, rest⟩ <;> simp

end

/-! ### Sweeping -/

/-- The slots that a sweep empties. -/
def deadIndices (heap : Heap α) : List Nat :=
  heap.slots.zipIdx.filterMap fun (slot, index) =>
    if slot.content.isSome ∧ slot.header.color = .white then some index else none

theorem mem_deadIndices {index : Nat} : index ∈ heap.deadIndices ↔
    ∃ slot, heap.slots[index]? = some slot ∧ slot.content.isSome ∧ slot.header.color = .white := by
  simp [deadIndices, List.mem_filterMap, List.mem_zipIdx_iff_getElem?]

theorem sorted_deadIndices (heap : Heap α) : heap.deadIndices.Pairwise (· < ·) := by
  have hsorted : heap.slots.zipIdx.Pairwise fun a b => a.2 < b.2 := by
    rw [← List.pairwise_map, List.zipIdx_map_snd]
    exact List.pairwise_lt_range'
  rw [deadIndices, List.pairwise_filterMap]
  refine hsorted.imp fun {a b} hlt index hindex other hother => ?_
  simp only [Option.ite_none_right_eq_some, Option.some.injEq] at hindex hother
  rw [← hindex.2, ← hother.2]
  exact hlt

theorem nodup_deadIndices (heap : Heap α) : heap.deadIndices.Nodup :=
  heap.sorted_deadIndices.imp Nat.ne_of_lt

/-- The generation of a slot. A slot that is yet to be made begins with the first. -/
def generationAt (heap : Heap α) (index : Nat) : UInt32 :=
  (heap.slots[index]?.map Slot.generation).getD 0

theorem generationAt_of_getElem? {index : Nat} {slot : Slot α}
    (hslot : heap.slots[index]? = some slot) : heap.generationAt index = slot.generation := by
  rw [generationAt, hslot, Option.map_some, Option.getD_some]

theorem generationAt_of_room (hroom : after.room = heap.room) (index : Nat) :
    after.generationAt index = heap.generationAt index := by
  rcases hslot : heap.slots[index]? with _ | slot
  · have hlength := length_slots_of_room hroom
    have hnone : after.slots[index]? = none := by
      rw [List.getElem?_eq_none_iff] at hslot ⊢
      omega
    rw [generationAt, generationAt, hslot, hnone]
  · obtain ⟨found, hfound, hsame, _⟩ := slot_of_room hroom hslot
    rw [generationAt_of_getElem? hslot, generationAt_of_getElem? hfound, hsame]

/-- The handle of the cell in a slot. Its index has 32 bits. -/
def handleAt (heap : Heap α) (index : Nat) : Cell := ⟨UInt32.ofNat index, heap.generationAt index⟩

theorem handleAt_of_room (hroom : after.room = heap.room) (index : Nat) :
    after.handleAt index = heap.handleAt index := by
  rw [handleAt, handleAt, generationAt_of_room hroom]

theorem garbage_eq (heap : Heap α) : heap.garbage = heap.deadIndices.map heap.handleAt := by
  rw [garbage, occupied, List.filterMap_filterMap, deadIndices, List.map_filterMap]
  refine List.filterMap_congr ?_
  rintro ⟨slot, index⟩ hmem
  have hslot : heap.slots[index]? = some slot := List.mk_mem_zipIdx_iff_getElem?.mp hmem
  by_cases hoccupied : slot.content.isSome <;> by_cases hwhite : slot.header.color = .white <;>
    simp [hoccupied, hwhite, handleAt, generationAt_of_getElem? hslot]

theorem toNat_of_mem_deadIndices {index : Nat} (h : heap.Addressable)
    (hdead : index ∈ heap.deadIndices) : (UInt32.ofNat index).toNat = index := by
  obtain ⟨slot, hslot, _⟩ := mem_deadIndices.mp hdead
  exact UInt32.toNat_ofNat_of_lt' (Nat.lt_of_lt_of_le (List.getElem?_eq_some_iff.mp hslot).1 h)

/-- Where every slot has its own handle, the handles of the garbage name the slots that die. -/
theorem index_garbage (h : heap.Addressable) :
    heap.garbage.map (fun cell => cell.index.toNat) = heap.deadIndices := by
  rw [garbage_eq, List.map_map]
  exact (List.map_congr_left fun _ hdead => toNat_of_mem_deadIndices h hdead).trans (List.map_id _)

/-- Where every slot has its own handle, only white cells are garbage. -/
theorem color?_of_mem_garbage (haddressable : heap.Addressable) (hmem : cell ∈ heap.garbage) :
    heap.color? cell = some .white := by
  rw [garbage_eq] at hmem
  obtain ⟨index, hdead, rfl⟩ := List.mem_map.mp hmem
  obtain ⟨slot, hfound, hoccupied, hwhite⟩ := mem_deadIndices.mp hdead
  have hslot : heap.slot? (heap.handleAt index) = some slot := by
    refine slot?_eq_some_iff.mpr ⟨?_, (generationAt_of_getElem? hfound).symm, hoccupied⟩
    rw [handleAt, toNat_of_mem_deadIndices haddressable hdead, hfound]
  rw [color?, hslot, Option.map_some, hwhite]

theorem Tidy.sweep (h : heap.Tidy) (haddressable : heap.Addressable) : heap.sweep.Tidy := by
  have hfree : heap.sweep.free = heap.deadIndices.reverse ++ heap.free := by
    rw [← index_garbage haddressable]
    rfl
  constructor
  · rw [hfree, List.nodup_append]
    refine ⟨List.nodup_reverse.mpr heap.nodup_deadIndices, h.nodup, ?_⟩
    rintro index hdead _ hempty rfl
    obtain ⟨slot, hslot, hoccupied, _⟩ := mem_deadIndices.mp (List.mem_reverse.mp hdead)
    obtain ⟨found, hfound, hnone⟩ := h.empty index hempty
    rw [hslot] at hfound
    rw [Option.some.inj hfound, hnone] at hoccupied
    cases hoccupied
  · intro index hindex
    rw [hfree, List.mem_append, List.mem_reverse] at hindex
    have hslots : heap.sweep.slots[index]? = (heap.slots[index]?).map Slot.swept :=
      List.getElem?_map
    rw [hslots]
    rcases hindex with hdead | hempty
    · obtain ⟨slot, hslot, hoccupied, hwhite⟩ := mem_deadIndices.mp hdead
      obtain ⟨content, hcontent⟩ := Option.isSome_iff_exists.mp hoccupied
      refine ⟨slot.swept, by rw [hslot]; rfl, ?_⟩
      simp [Slot.swept, hcontent, hwhite]
    · obtain ⟨slot, hslot, hnone⟩ := h.empty index hempty
      refine ⟨slot.swept, by rw [hslot]; rfl, ?_⟩
      simp [Slot.swept, hnone]

end InlineCache.Heap
