import InlineCache.Proofs.Heap.Discipline

/-!
# Collections that begin with no marks

A collection that has no cycle to finish begins by forgetting all colours. From there it finds the
cells that are alive and nothing else: whatever is left over is garbage, cycles included, and the
roots may be repeated or stale. Each cell that is found is scanned once, so the number of scans is
the number of cells that are alive.

A cell is a slot that holds something. Indices of handles have 32 bits, so no handle names a slot
further up, and what is in such a slot is garbage like all that is not found.
-/

namespace InlineCache.Heap

variable {α : Type} {heap : Heap α} {cell : Cell}

/-! ### The garbage -/

theorem mem_garbage_of_color? (h : heap.color? cell = some .white) : cell ∈ heap.garbage := by
  rw [color?, Option.map_eq_some_iff] at h
  obtain ⟨slot, hslot, hwhite⟩ := h
  obtain ⟨hfound, hgeneration, hoccupied⟩ := slot?_eq_some_iff.mp hslot
  rw [garbage, occupied, List.filterMap_filterMap, List.mem_filterMap]
  refine ⟨(slot, cell.index.toNat), List.mk_mem_zipIdx_iff_getElem?.mpr hfound, ?_⟩
  simp [hoccupied, hwhite, hgeneration]

theorem mem_garbage_iff (haddressable : heap.Addressable) :
    cell ∈ heap.garbage ↔ heap.contains cell = true ∧ ¬ heap.isMarked cell = true := by
  constructor
  · intro hmem
    have hwhite := color?_of_mem_garbage haddressable hmem
    refine ⟨contains_iff_color?.mpr ⟨.white, hwhite⟩, ?_⟩
    rw [isMarked_iff, hwhite]
    simp
  · rintro ⟨hlive, hunmarked⟩
    exact mem_garbage_of_color? (color?_of_not_isMarked hlive hunmarked)

theorem sorted_garbage (haddressable : heap.Addressable) :
    heap.garbage.Pairwise fun first second => first.index < second.index := by
  have hsorted := heap.sorted_deadIndices
  rw [← index_garbage haddressable, List.pairwise_map] at hsorted
  exact hsorted.imp UInt32.lt_iff_toNat_lt.mpr

theorem isMarked_iff_of_slot? {slot : Slot α} (hslot : heap.slot? cell = some slot) :
    heap.isMarked cell = true ↔ slot.header.color ≠ .white := by
  rw [isMarked_iff, color?, hslot]
  simp

/-! ### Slots -/

/-- A slot holds a cell. -/
def isOccupied (heap : Heap α) (index : Nat) : Bool :=
  (heap.slots[index]?.bind Slot.content).isSome

theorem isOccupied_iff {index : Nat} : heap.isOccupied index = true ↔
    ∃ slot, heap.slots[index]? = some slot ∧ slot.content.isSome = true := by
  rw [isOccupied]
  rcases heap.slots[index]? with _ | slot <;> simp

theorem isOccupied_of_room {after : Heap α} (hroom : after.room = heap.room) (index : Nat) :
    after.isOccupied index = heap.isOccupied index := by
  rw [Bool.eq_iff_iff, isOccupied_iff, isOccupied_iff]
  constructor
  · rintro ⟨slot, hslot, hoccupied⟩
    obtain ⟨found, hfound, _, hsame⟩ := slot_of_room hroom.symm hslot
    exact ⟨found, hfound, hsame.trans hoccupied⟩
  · rintro ⟨slot, hslot, hoccupied⟩
    obtain ⟨found, hfound, _, hsame⟩ := slot_of_room hroom hslot
    exact ⟨found, hfound, hsame.trans hoccupied⟩

theorem isOccupied_sweep {index : Nat} : heap.sweep.isOccupied index = true ↔
    heap.isOccupied index = true ∧ index ∉ heap.deadIndices := by
  rw [isOccupied, isOccupied, mem_deadIndices, sweep, List.getElem?_map]
  rcases heap.slots[index]? with _ | ⟨generation, ⟨color, tag⟩, content⟩
  · simp
  · rcases content with _ | content <;> rcases color with _ | _ | _ <;> simp [Slot.swept]

theorem color_of_mem_sweep {slot : Slot α} (hmem : slot ∈ heap.sweep.slots)
    (hoccupied : slot.content.isSome = true) : slot.header.color = .white := by
  obtain ⟨⟨generation, ⟨color, tag⟩, content⟩, _, rfl⟩ := List.mem_map.mp hmem
  rcases content with _ | content <;> rcases color with _ | _ | _ <;>
    first | rfl | cases hoccupied

/-- The slots that no handle names. -/
def unnamed (heap : Heap α) : List (Slot α) := heap.slots.drop UInt32.size

theorem colorblind_unnamed : Colorblind (unnamed : Heap α → _) where
  setColor heap cell color := by
    rw [setColor, updateSlot]
    rcases heap.slot? cell with _ | slot <;> dsimp only
    rw [unnamed, List.drop_set_of_lt cell.index.toNat_lt]
    rfl
  notes _ _ _ _ _ _ := rfl

/-- No handle leads the marker to a slot further up, so it stays white. -/
theorem color_of_unnamed {marked : Heap α} (hunnamed : marked.unnamed = heap.whitened.unnamed)
    {index : Nat} (hindex : UInt32.size ≤ index) {slot : Slot α}
    (hslot : marked.slots[index]? = some slot) (hoccupied : slot.content.isSome = true) :
    slot.header.color = .white := by
  have hsame := congrArg (fun slots => slots[index - UInt32.size]?) hunnamed
  simp only [unnamed, List.getElem?_drop, Nat.add_sub_cancel' hindex, hslot] at hsame
  rw [whitened, whiten, List.getElem?_map] at hsame
  obtain ⟨before, _, heq⟩ := Option.map_eq_some_iff.mp hsame.symm
  split at heq
  · rw [← heq]
  · rw [← heq] at hoccupied
    contradiction

section

variable [Traceable α] {roots : List Cell}

/-! ### Marking from the start -/

theorem completeMarking_of_idle (hphase : heap.phase = .idle) (roots : List Cell) :
    heap.completeMarking roots = (heap.startMarking roots).markAll := by
  rw [completeMarking, hphase]

theorem completeMarking_marks (hphase : heap.phase = .idle) (roots : List Cell) :
    Marks roots heap.whitened (heap.completeMarking roots) := by
  have hstarted := startMarking_marks hphase roots
  rw [completeMarking_of_idle hphase]
  exact hstarted.trans (markAll_marks hstarted.queued)

theorem waiting_completeMarking (hphase : heap.phase = .idle) (roots : List Cell) :
    (heap.completeMarking roots).waiting = [] := by
  rw [completeMarking_of_idle hphase]
  refine markAll_done ?_
  rw [startMarking_of_idle hphase]

/-- Exactly what is alive is marked. -/
theorem isMarked_completeMarking_of_idle (hphase : heap.phase = .idle) :
    (heap.completeMarking roots).isMarked cell = true ↔ heap.Reaches roots cell := by
  rw [← found_whitened]
  refine (completeMarking_marks hphase roots).isMarked_iff_found
    (waiting_completeMarking hphase roots) fun root hmem hlive => ?_
  have hstarted := startMarking_marks hphase roots
  have hended : Marks roots (heap.startMarking roots) (heap.completeMarking roots) := by
    rw [completeMarking_of_idle hphase]
    exact markAll_marks hstarted.queued
  refine hended.marked ?_
  rw [startMarking_of_idle hphase]
  exact isMarked_shadeAll.mpr (.inr ⟨hmem, hlive⟩)

/-- A cell that is marked when marking has ended has been scanned, and no other cell has. -/
theorem isPending_completeMarking (hphase : heap.phase = .idle)
    (hlive : heap.contains cell = true) :
    (heap.completeMarking roots).isPending cell = true ↔ ¬ heap.Reaches roots cell := by
  rw [← isMarked_completeMarking_of_idle hphase]
  constructor
  · intro hpending hmarked
    have hwaits := (completeMarking_marks hphase roots).queued.gray hmarked hpending
    rw [waiting_completeMarking hphase roots] at hwaits
    cases hwaits
  · intro hunmarked
    by_contra hscanned
    have hstill : (heap.completeMarking roots).contains cell = true :=
      (contains_congr get?_completeMarking).trans hlive
    exact hunmarked (isMarked_of_not_isPending hstill hscanned)

theorem completeMarking_scans (hphase : heap.phase = .idle) (roots : List Cell) :
    ∃ cells, Scans heap.whitened (heap.completeMarking roots) cells := by
  have hstarted : Scans heap.whitened (heap.startMarking roots) [] := by
    rw [startMarking_of_idle hphase]
    exact .nil (fun _ => isPending_shadeAll) shadeAll_markedThisCycle
  obtain ⟨cells, hended⟩ := markAll_scans (heap.startMarking roots)
  rw [completeMarking_of_idle hphase]
  exact ⟨_, hstarted.trans hended⟩

theorem Reaches.contains (h : heap.Reaches roots cell) : heap.contains cell = true := by
  cases h with
  | root _ hlive => exact hlive
  | edge _ hedge => exact (edge_iff.mp hedge).2

/-- As many cells have been scanned as are alive. -/
theorem markedThisCycle_completeMarking (hphase : heap.phase = .idle) (roots : List Cell) :
    ∃ alive : List Cell, alive.Nodup ∧ (∀ cell, cell ∈ alive ↔ heap.Reaches roots cell) ∧
      (heap.completeMarking roots).markedThisCycle = alive.length := by
  obtain ⟨cells, hscans⟩ := completeMarking_scans hphase roots
  refine ⟨cells, hscans.nodup, fun cell => ?_, hscans.count.trans (Nat.zero_add _)⟩
  rw [hscans.mem_iff, isPending_whitened]
  constructor
  · rintro ⟨hlive, hscanned⟩
    rwa [isPending_completeMarking hphase hlive, not_not] at hscanned
  · intro halive
    refine ⟨halive.contains, ?_⟩
    rwa [isPending_completeMarking hphase halive.contains, not_not]

/-! ### The slots that die -/

theorem unnamed_completeMarking (hphase : heap.phase = .idle) (roots : List Cell) :
    (heap.completeMarking roots).unnamed = heap.whitened.unnamed := by
  rw [completeMarking_of_idle hphase, colorblind_unnamed.markAll, startMarking_of_idle hphase]
  exact colorblind_unnamed.shadeAll heap.whitened roots

/-- A cell that is alive is in the slot that its handle names. -/
def ReachesSlot (heap : Heap α) (roots : List Cell) (index : Nat) : Prop :=
  ∃ cell, heap.Reaches roots cell ∧ cell.index.toNat = index

/-- The slots that die are those in which no cell is that is alive. -/
theorem mem_deadIndices_completeMarking (hphase : heap.phase = .idle) {index : Nat} :
    index ∈ (heap.completeMarking roots).deadIndices ↔
      heap.isOccupied index = true ∧ ¬ heap.ReachesSlot roots index := by
  have hroom : (heap.completeMarking roots).room = heap.room := room_completeMarking
  rw [mem_deadIndices]
  constructor
  · rintro ⟨slot, hslot, hoccupied, hwhite⟩
    have hholds : heap.isOccupied index = true := by
      rw [← isOccupied_of_room hroom, isOccupied_iff]
      exact ⟨slot, hslot, hoccupied⟩
    refine ⟨hholds, ?_⟩
    rintro ⟨cell, halive, rfl⟩
    have hmarked := isMarked_completeMarking_of_idle hphase |>.mpr halive
    obtain ⟨found, hfound⟩ := Option.isSome_iff_exists.mp (contains_of_isMarked hmarked)
    have hsame := (slot?_eq_some_iff.mp hfound).1
    rw [hslot] at hsame
    exact (isMarked_iff_of_slot? hfound).mp hmarked (Option.some.inj hsame ▸ hwhite)
  · rintro ⟨hholds, hdead⟩
    rw [← isOccupied_of_room hroom, isOccupied_iff] at hholds
    obtain ⟨slot, hslot, hoccupied⟩ := hholds
    refine ⟨slot, hslot, hoccupied, ?_⟩
    rcases Nat.lt_or_ge index UInt32.size with hnamed | hunnamed
    · -- A handle names the slot, and the cell would be alive if it were marked.
      have hindex : (UInt32.ofNat index).toNat = index := UInt32.toNat_ofNat_of_lt' hnamed
      have hfound : (heap.completeMarking roots).slot? ⟨UInt32.ofNat index, slot.generation⟩
          = some slot := slot?_eq_some_iff.mpr ⟨hindex.symm ▸ hslot, rfl, hoccupied⟩
      by_contra hcolor
      exact hdead ⟨_, isMarked_completeMarking_of_idle hphase |>.mp
        ((isMarked_iff_of_slot? hfound).mpr hcolor), hindex⟩
    · exact color_of_unnamed (unnamed_completeMarking hphase roots) hunnamed hslot hoccupied

/-! ### The whole collection -/

theorem addressable_completeMarking (h : heap.Addressable) :
    (heap.completeMarking roots).Addressable := by
  rw [Addressable, length_slots_of_room room_completeMarking]
  exact h

/-- A collection that begins with no marks takes exactly the cells that are not alive, each of them
once and in the order of their slots, and counts those that are. Whatever is alive is as it was
before, and white. -/
theorem collect_exact (hphase : heap.phase = .idle) (roots : List Cell) :
    let report := (heap.collect roots).1
    let after := (heap.collect roots).2
    (∃ dead : List Nat, dead.Pairwise (· < ·) ∧
      (∀ index, index ∈ dead ↔ heap.isOccupied index = true ∧ ¬ heap.ReachesSlot roots index) ∧
      report.reclaimed = dead.map heap.handleAt) ∧
    (∀ index, after.isOccupied index = true ↔
      heap.isOccupied index = true ∧ heap.ReachesSlot roots index) ∧
    (∀ cell, after.contains cell = true ↔ heap.Reaches roots cell) ∧
    (∀ cell, heap.Reaches roots cell → after.get? cell = heap.get? cell) ∧
    (∃ alive : List Cell, alive.Nodup ∧ (∀ cell, cell ∈ alive ↔ heap.Reaches roots cell) ∧
      report.marked = alive.length) ∧
    after.phase = .idle ∧
    ∀ slot ∈ after.slots, slot.content.isSome = true → slot.header.color = .white := by
  intro report after
  have hmarked : ∀ cell, (heap.completeMarking roots).isMarked cell = true ↔
      heap.Reaches roots cell := fun _ => isMarked_completeMarking_of_idle hphase
  refine ⟨⟨_, sorted_deadIndices (heap.completeMarking roots),
      fun _ => mem_deadIndices_completeMarking hphase, ?_⟩, fun index => ?_, fun cell => ?_,
    fun cell halive => ?_, markedThisCycle_completeMarking hphase roots, rfl,
    fun slot => color_of_mem_sweep⟩
  · show (heap.completeMarking roots).garbage = _
    rw [garbage_eq]
    exact List.map_congr_left fun index _ => handleAt_of_room room_completeMarking index
  · show (heap.completeMarking roots).sweep.isOccupied index = true ↔ _
    rw [isOccupied_sweep, mem_deadIndices_completeMarking hphase,
      isOccupied_of_room room_completeMarking]
    tauto
  · rw [← hmarked, ← contains_reclaim]
    rfl
  · show (heap.completeMarking roots).sweep.get? cell = heap.get? cell
    rw [get?_sweep, if_pos ((hmarked cell).mpr halive), get?_completeMarking]

/-- Two cells that refer to one another, one of them also to itself and to a cell that is gone, a
cell that refers to itself only, and two more cells that refer to one another. -/
def cyclesOfCells : List (Step Node) :=
  [.allocate ⟨9, []⟩, .allocate ⟨9, []⟩, .collect [],
    .allocate ⟨0, [⟨0, 1⟩]⟩, .allocate ⟨1, [⟨1, 1⟩, ⟨1, 0⟩, ⟨0, 1⟩]⟩,
    .allocate ⟨2, [⟨2, 0⟩]⟩, .allocate ⟨3, [⟨4, 0⟩]⟩, .allocate ⟨4, [⟨3, 0⟩, ⟨0, 1⟩]⟩]

theorem collect_takes_cycles :
    let heap := ({} : Heap Node).run cyclesOfCells
    let roots : List Cell := [⟨1, 1⟩, ⟨7, 7⟩, ⟨1, 1⟩, ⟨0, 0⟩]
    heap.phase = .idle ∧
      heap.Reaches roots ⟨0, 1⟩ ∧ (heap.collect roots).2.contains ⟨0, 1⟩ = true ∧
      heap.isOccupied 3 = true ∧ ¬ heap.ReachesSlot roots 3 ∧
      ⟨3, 0⟩ ∈ (heap.collect roots).1.reclaimed := by
  intro heap roots
  have hphase : heap.phase = .idle := by decide
  have hroot : heap.Reaches roots ⟨1, 1⟩ := .root (by decide) rfl
  have halive : heap.Reaches roots ⟨0, 1⟩ := .edge hroot ⟨_, rfl, by decide, rfl⟩
  obtain ⟨⟨dead, _, hdead, hreclaimed⟩, hholds, hsurvives, _⟩ := collect_exact hphase roots
  have hheld : heap.isOccupied 3 = true := rfl
  have hlost : ¬ heap.ReachesSlot roots 3 := by
    intro hreached
    have hkept := (hholds 3).mpr ⟨hheld, hreached⟩
    revert hkept
    decide
  refine ⟨hphase, halive, (hsurvives _).mpr halive, hheld, hlost, ?_⟩
  rw [hreclaimed]
  exact List.mem_map.mpr ⟨3, (hdead 3).mpr ⟨hheld, hlost⟩, rfl⟩

end

end InlineCache.Heap
