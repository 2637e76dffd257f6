import InlineCache.Proofs.Heap.Handles
import InlineCache.Proofs.Heap.Pace

/-!
# The inventory of a heap

A heap writes down much of what its slots say already: which of them are empty, how many are
occupied, which cells are gray and how many cells have been scanned. Every operation touches several
of these, and none of them is checked against the slots when it is used. A gray cell that does not
wait would be lost, one that waits twice would be counted twice, and a free slot that is listed
twice would be given to two cells.

The parts agree after every run. The queue of gray cells is the delicate one, since the marker takes
a cell out of it before it turns the cell black: the statement about the queue therefore names the
cells that are held outside of it.
-/

namespace InlineCache.Heap

variable {α : Type} {heap after : Heap α} {cell other : Cell} {cells held : List Cell}

/-- An allocation leaves the colour of every live cell alone. -/
theorem Tidy.color?_allocate [Traceable α] (h : heap.Tidy) (content : α) {color : Color}
    (hcolor : heap.color? cell = some color) :
    (heap.allocate content).2.color? cell = some color := by
  obtain ⟨index, _, _, hempty, _, hslots⟩ := h.allocate_slots content
  rw [color?, Option.map_eq_some_iff] at hcolor
  obtain ⟨slot, hslot, rfl⟩ := hcolor
  obtain ⟨hfound, hgeneration, hoccupied⟩ := slot?_eq_some_iff.mp hslot
  have helsewhere : cell.index.toNat ≠ index := by
    rintro rfl
    simp [hempty slot hfound] at hoccupied
  have hkept : (heap.allocate content).2.slot? cell = some slot := by
    rw [slot?_eq_some_iff, hslots, if_neg helsewhere]
    exact ⟨hfound, hgeneration, hoccupied⟩
  rw [color?, hkept, Option.map_some]

/-! ### The queue of gray cells -/

/-- The gray cells are those that wait and those that are held, each of them once. -/
structure Lined (heap : Heap α) (held : List Cell) : Prop where
  nodup : (held ++ heap.waiting).Nodup
  mem_iff : ∀ {cell}, cell ∈ held ++ heap.waiting ↔ heap.color? cell = some .gray

namespace Lined

theorem congr (h : heap.Lined held) (hcolor : ∀ cell, after.color? cell = heap.color? cell)
    (hwaiting : after.waiting = heap.waiting) : after.Lined held := by
  constructor
  · rw [hwaiting]
    exact h.nodup
  · intro cell
    rw [hwaiting, hcolor]
    exact h.mem_iff

/-- Where no cell is marked, the empty queue is right. -/
theorem of_unmarked (hunmarked : ∀ cell, heap.isMarked cell = false)
    (hwaiting : heap.waiting = []) : heap.Lined [] := by
  constructor
  · simp [hwaiting]
  · intro cell
    have hcell := hunmarked cell
    rw [Bool.eq_false_iff, ne_eq, isMarked_iff] at hcell
    rw [hwaiting]
    constructor
    · simp
    · intro hgray
      exact absurd ⟨.gray, hgray, by simp⟩ hcell

/-- A white cell that turns gray joins the queue. It was not there before. -/
theorem join (h : heap.Lined held) (hwhite : heap.color? cell = some .white)
    (hcolor : ∀ other, after.color? other = (heap.setColor cell .gray).color? other)
    (hwaiting : (held ++ after.waiting).Perm (cell :: (held ++ heap.waiting))) :
    after.Lined held := by
  constructor
  · rw [hwaiting.nodup_iff, List.nodup_cons, h.mem_iff, hwhite]
    exact ⟨by simp, h.nodup⟩
  · intro other
    rw [hwaiting.mem_iff, List.mem_cons, h.mem_iff, hcolor, color?_setColor]
    by_cases hother : other = cell <;> simp [hother, hwhite]

theorem shade (h : heap.Lined held) : (heap.shade cell).Lined held := by
  rw [shade_eq]
  split
  · rename_i hwhite
    refine h.join hwhite ?_ ?_
    · exact fun _ => rfl
    · show (held ++ (heap.worklist ++ [cell] ++ (heap.setColor cell .gray).buffer.pending)).Perm _
      rw [setColor_buffer, waiting, ← List.append_assoc, ← List.append_assoc, ← List.append_assoc,
        List.append_assoc (held ++ heap.worklist)]
      exact List.perm_middle
  · exact h

theorem shadeAll (h : heap.Lined held) : (heap.shadeAll cells).Lined held := by
  induction cells generalizing heap with
  | nil => exact h
  | cons cell rest ih => exact ih h.shade

theorem writeBarrier {owner target : Cell} (h : heap.Lined held) :
    (heap.writeBarrier owner target).Lined held := by
  rw [writeBarrier_eq]
  split
  · rename_i hacts
    refine h.join hacts.2.2 ?_ ?_
    · exact fun _ => rfl
    · show (held ++ ((heap.setColor target .gray).worklist
        ++ (heap.buffer.pending ++ [target]))).Perm _
      rw [setColor_worklist, waiting, ← List.append_assoc, ← List.append_assoc, ← List.append_assoc]
      exact List.perm_append_singleton _ _
  · exact h

theorem update (h : heap.Lined held) (change : α → α) : (heap.update cell change).Lined held := by
  obtain ⟨slots, hslots⟩ := update_eq heap cell change
  exact h.congr (fun _ => color?_update change) (by rw [hslots]; rfl)

theorem whitened (heap : Heap α) : heap.whitened.Lined [] :=
  of_unmarked (fun _ => isMarked_whitened) rfl

theorem startMarking (h : heap.Lined []) (roots : List Cell) :
    (heap.startMarking roots).Lined [] := by
  rcases hphase : heap.phase with _ | _
  · rw [startMarking_of_idle hphase]
    exact (whitened heap).shadeAll.congr (fun _ => rfl) rfl
  · rw [Heap.startMarking, hphase]
    exact h

/-- The marker finds every entry of the worklist as it was left there, so it drops none. -/
theorem dropWhile_worklist (h : heap.Lined []) :
    (heap.worklist.dropWhile fun cell => !heap.isPending cell) = heap.worklist := by
  rcases hworklist : heap.worklist with _ | ⟨cell, rest⟩
  · rfl
  · have hgray : heap.color? cell = some .gray := h.mem_iff.mp (by simp [waiting, hworklist])
    have hpending : heap.isPending cell = true := isPending_iff.mpr ⟨.gray, hgray, by simp⟩
    simp [hpending]

section

variable [Traceable α]

/-- The marker holds a cell while it scans it, and turns it black in the end. -/
theorem scan {rest : List Cell} (h : heap.Lined []) (hnext : heap.worklist = cell :: rest) :
    ({ heap with worklist := rest }.scan cell).Lined [] := by
  have hpopped : ({ heap with worklist := rest } : Heap α).Lined [cell] := by
    have hsame : [cell] ++ ({ heap with worklist := rest } : Heap α).waiting = heap.waiting := by
      rw [waiting, waiting, hnext]
      rfl
    refine ⟨hsame ▸ h.nodup, fun {other} => ?_⟩
    rw [hsame]
    exact h.mem_iff
  generalize ({ heap with worklist := rest } : Heap α) = popped at hpopped
  have hshaded : (popped.shadeAll (popped.referents cell)).Lined [cell] := hpopped.shadeAll
  generalize hresult : popped.shadeAll (popped.referents cell) = shaded at hshaded
  have hscan : popped.scan cell = { shaded.setColor cell .black with
      markedThisCycle := (shaded.setColor cell .black).markedThisCycle + 1 } := by
    rw [← hresult]
    rfl
  have hwaiting : (popped.scan cell).waiting = shaded.waiting := by
    rw [hscan]
    show (shaded.setColor cell .black).worklist ++ _ = _
    rw [setColor_worklist, setColor_buffer]
    rfl
  have hcolor : ∀ other, (popped.scan cell).color? other
      = (shaded.setColor cell .black).color? other := fun _ => by rw [hscan]; rfl
  obtain ⟨hheld, hrest⟩ := List.nodup_cons.mp hshaded.nodup
  constructor
  · rw [hwaiting]
    exact hrest
  · intro other
    rw [hwaiting, hcolor, color?_setColor, List.nil_append]
    by_cases hother : other = cell
    · rw [if_pos hother, hother]
      constructor
      · exact fun hwaits => absurd hwaits hheld
      · simp
    · rw [if_neg hother, ← hshaded.mem_iff]
      simp [hother]

theorem scanUpTo (h : heap.Lined []) (budget : Nat) : (scanUpTo budget heap).Lined [] := by
  induction budget generalizing heap with
  | zero => exact h
  | succ budget ih =>
      rw [Heap.scanUpTo, h.dropWhile_worklist]
      rcases hworklist : heap.worklist with _ | ⟨cell, rest⟩
      · refine h.congr ?_ ?_
        · exact fun _ => rfl
        · rw [waiting, waiting, hworklist]
      · exact ih (h.scan hworklist)

theorem markStep (h : heap.Lined []) (budget : Nat) : (heap.markStep budget).2.Lined [] := by
  rcases hphase : heap.phase with _ | _
  · rw [markStep_of_idle hphase]
    exact h
  · rw [markStep_eq hphase]
    have htaken : heap.takeBuffer.Lined [] := h.congr (fun _ => rfl) takeBuffer_waiting
    exact htaken.scanUpTo budget

/-- A new cell is not gray, and takes the place of no cell that is. -/
theorem allocate (h : heap.Lined held) (htidy : heap.Tidy) (content : α) :
    (heap.allocate content).2.Lined held := by
  obtain ⟨slots, free, live, allocated, hfields⟩ := allocate_eq heap content
  have hwaiting : (heap.allocate content).2.waiting = heap.waiting := by rw [hfields]; rfl
  constructor
  · rw [hwaiting]
    exact h.nodup
  · intro cell
    rw [hwaiting, h.mem_iff]
    constructor
    · exact htidy.color?_allocate content
    · intro hgray
      rcases get?_allocate heap content cell with ⟨_, hcolor⟩ | ⟨_, _, hcolor⟩
      · rwa [hcolor] at hgray
      · rw [hcolor] at hgray
        split at hgray <;> simp at hgray

end

end Lined

/-! ### Counting slots -/

/-- The number of live cells of a colour. -/
def countColor (heap : Heap α) (color : Color) : Nat :=
  heap.occupied.countP fun (_, slot) => slot.header.color == color

theorem length_occupied (heap : Heap α) :
    heap.occupied.length = heap.slots.countP fun slot => slot.content.isSome := by
  rw [← List.countP_true, heap.countP_occupied fun _ => true]
  simp only [Bool.and_true]

theorem countColor_eq (heap : Heap α) (color : Color) : heap.countColor color =
    heap.slots.countP fun slot => slot.content.isSome && slot.header.color == color :=
  heap.countP_occupied fun slot => slot.header.color == color

/-- What is pending is white or gray. -/
theorem countColor_white_add_gray (heap : Heap α) :
    heap.countColor .white + heap.countColor .gray = heap.pendingCount := by
  rw [countColor_eq, countColor_eq, pendingCount_eq]
  induction heap.slots with
  | nil => rfl
  | cons slot rest ih =>
      rcases slot with ⟨generation, ⟨_ | _ | _, tag⟩, _ | content⟩ <;>
        simp [Slot.isPending] at ih ⊢ <;> omega

theorem length_garbage (heap : Heap α) : heap.garbage.length = heap.countColor .white := by
  rw [garbage, countColor, List.length_filterMap_eq_countP]
  congr 1
  funext pair
  obtain ⟨cell, slot⟩ := pair
  by_cases hwhite : slot.header.color = .white <;> simp [hwhite]

/-- A sweep empties as many slots as there is garbage. -/
theorem length_occupied_sweep (heap : Heap α) :
    heap.sweep.occupied.length + heap.garbage.length = heap.occupied.length := by
  rw [length_garbage, countColor_eq, length_occupied, length_occupied, sweep]
  dsimp only
  induction heap.slots with
  | nil => rfl
  | cons slot rest ih =>
      rcases slot with ⟨generation, ⟨_ | _ | _, tag⟩, _ | content⟩ <;>
        simp [Slot.swept] at ih ⊢ <;> omega

/-! ### The slots in stock -/

/-- The free slots are listed once each, and the occupied ones are counted. -/
structure Stocked (heap : Heap α) : Prop where
  tidy : heap.Tidy
  listed : ∀ {index : Nat} {slot}, heap.slots[index]? = some slot → slot.content = none →
    index ∈ heap.free
  live_eq : heap.live = heap.occupied.length

namespace Stocked

theorem mem_free_iff (h : heap.Stocked) {index : Nat} :
    index ∈ heap.free ↔ ∃ slot, heap.slots[index]? = some slot ∧ slot.content = none := by
  constructor
  · exact h.tidy.empty index
  · rintro ⟨slot, hslot, hempty⟩
    exact h.listed hslot hempty

/-- Every slot is free or occupied. -/
theorem live_add_length_free (h : heap.Stocked) :
    heap.live + heap.free.length = heap.slots.length := by
  have hperm : heap.free.Perm (heap.slots.findIdxs fun slot => !slot.content.isSome) := by
    rw [List.perm_ext_iff_of_nodup h.tidy.nodup List.nodup_findIdxs]
    intro index
    rw [h.mem_free_iff, List.mem_findIdxs_iff_exists_getElem_pos]
    simp [List.getElem?_eq_some_iff]
  rw [hperm.length_eq, List.length_findIdxs, h.live_eq, length_occupied,
    List.length_eq_countP_add_countP fun slot : Slot α => slot.content.isSome]
  congr 2
  funext slot
  cases slot.content <;> rfl

theorem of_room (h : heap.Stocked) (hroom : after.room = heap.room)
    (hlive : after.live = heap.live) : after.Stocked where
  tidy := h.tidy.of_room hroom
  listed := by
    intro index slot hslot hempty
    obtain ⟨found, hfound, _, hsame⟩ := slot_of_room hroom.symm hslot
    rw [show after.free = heap.free from (Prod.mk.inj hroom).1]
    apply h.listed hfound
    simpa [hempty] using hsame
  live_eq := by
    have hplaces := congrArg (fun places => places.countP Prod.snd) (Prod.mk.inj hroom).2
    simp only [List.countP_map] at hplaces
    rw [hlive, h.live_eq, length_occupied, length_occupied]
    exact hplaces.symm

theorem allocate [Traceable α] (h : heap.Stocked) (content : α) :
    (heap.allocate content).2.Stocked := by
  refine ⟨h.tidy.allocate content, ?_, ?_⟩
  · intro index slot hslot hempty
    rw [Heap.allocate] at hslot ⊢
    rcases hfree : heap.free with _ | ⟨reused, rest⟩ <;> rw [hfree] at hslot <;>
      dsimp only at hslot ⊢
    · -- no slot was empty, and the new one is not
      rw [List.getElem?_append] at hslot
      split at hslot
      · exact hfree ▸ h.listed hslot hempty
      · rw [List.getElem?_singleton] at hslot
        split at hslot
        · obtain rfl := Option.some.inj hslot
          cases hempty
        · cases hslot
    · rw [List.getElem?_set] at hslot
      split at hslot
      · split at hslot
        · obtain rfl := Option.some.inj hslot
          cases hempty
        · cases hslot
      · rename_i helsewhere
        have hlisted := h.listed hslot hempty
        rw [hfree, List.mem_cons] at hlisted
        exact hlisted.resolve_left (Ne.symm helsewhere)
  · rw [length_occupied, Heap.allocate]
    have hcount := h.live_eq
    rw [length_occupied] at hcount
    rcases hfree : heap.free with _ | ⟨reused, rest⟩ <;> dsimp only
    · simp [hcount]
    · obtain ⟨slot, hslot, hempty⟩ := h.tidy.empty reused (by simp [hfree])
      obtain ⟨hbound, hget⟩ := List.getElem?_eq_some_iff.mp hslot
      simp [List.countP_set hbound, hget, hempty, hcount]

/-- Where every slot has its own handle, a sweep lists the slots that it empties. -/
theorem sweep (h : heap.Stocked) (haddressable : heap.Addressable) : heap.sweep.Stocked where
  tidy := h.tidy.sweep haddressable
  listed := by
    intro index slot hslot hempty
    have hfree : heap.sweep.free = heap.deadIndices.reverse ++ heap.free := by
      rw [← index_garbage haddressable]
      rfl
    have hslots : heap.sweep.slots[index]? = (heap.slots[index]?).map Slot.swept :=
      List.getElem?_map
    rw [hslots, Option.map_eq_some_iff] at hslot
    obtain ⟨old, hold, rfl⟩ := hslot
    rw [hfree, List.mem_append, List.mem_reverse, mem_deadIndices]
    rcases hcontent : old.content with _ | content
    · exact .inr (h.listed hold hcontent)
    · refine .inl ⟨old, hold, by simp [hcontent], ?_⟩
      rcases hcolor : old.header.color with _ | _ | _
      · rfl
      all_goals simp [Slot.swept, hcontent, hcolor] at hempty
  live_eq := by
    have hswept := heap.length_occupied_sweep
    show heap.live - heap.garbage.length = heap.sweep.occupied.length
    rw [h.live_eq]
    omega

end Stocked

/-! ### What leaves the number of live cells alone -/

@[simp] theorem updateSlot_live (change : Slot α → Slot α) :
    (heap.updateSlot cell change).live = heap.live := by
  rw [updateSlot]
  split <;> rfl

theorem colorblind_live : Colorblind (live : Heap α → _) where
  setColor _ _ _ := updateSlot_live _
  notes _ _ _ _ _ _ := rfl

@[simp] theorem writeBarrier_live {owner target : Cell} :
    (heap.writeBarrier owner target).live = heap.live :=
  colorblind_live.writeBarrier heap owner target

@[simp] theorem startMarking_live {roots : List Cell} :
    (heap.startMarking roots).live = heap.live :=
  colorblind_live.startMarking rfl roots

/-! ### The inventory -/

/-- The number of cells allocated since the cycle that is running began. -/
def bornAfter (heap : Heap α) (born : Nat) : Step α → Nat
  | .allocate _ => if heap.phase = .marking then born + 1 else born
  | .startMarking _ => if heap.phase = .marking then born else 0
  | .mutate _ _ | .writeBarrier _ _ | .markStep _ => born
  | .collect _ => 0

/-- What a heap has written down agrees with its slots. -/
structure Inventory (heap : Heap α) (born : Nat) : Prop where
  stocked : heap.Stocked
  lined : heap.Lined []
  idle : heap.phase = .idle → (∀ cell, heap.isMarked cell = false) ∧ heap.waiting = []
  /-- While marking, the cells that are not pending have been scanned or were born black. -/
  scanned : heap.phase = .marking → heap.markedThisCycle + heap.pendingCount + born = heap.live

namespace Inventory

variable {born : Nat}

theorem empty (settings : HeapSettings) : ({ settings } : Heap α).Inventory 0 where
  stocked := ⟨⟨List.nodup_nil, by simp⟩, by simp, rfl⟩
  lined := .of_unmarked (fun _ => rfl) rfl
  idle _ := ⟨fun _ => rfl, rfl⟩
  scanned := by rintro ⟨⟩

theorem mutate (h : heap.Inventory born) (cell : Cell) (change : α → α) :
    (heap.update cell change).Inventory born := by
  obtain ⟨slots, hslots⟩ := update_eq heap cell change
  refine ⟨h.stocked.of_room (room_update change) (updateSlot_live _), h.lined.update change, ?_, ?_⟩
  · intro hphase
    rw [update_phase] at hphase
    obtain ⟨hunmarked, hwaiting⟩ := h.idle hphase
    refine ⟨fun other => ?_, ?_⟩
    · rw [isMarked_congr (color?_update change)]
      exact hunmarked other
    · rw [hslots]
      exact hwaiting
  · intro hphase
    rw [update_phase] at hphase
    rw [pendingCount_update, hslots]
    exact h.scanned hphase

theorem writeBarrier (h : heap.Inventory born) (owner target : Cell) :
    (heap.writeBarrier owner target).Inventory born := by
  refine ⟨h.stocked.of_room room_writeBarrier writeBarrier_live, h.lined.writeBarrier, ?_, ?_⟩
  · intro hphase
    rw [writeBarrier_phase] at hphase
    rw [writeBarrier_of_idle hphase]
    exact h.idle hphase
  · intro hphase
    rw [writeBarrier_phase] at hphase
    have hmarked : (heap.writeBarrier owner target).markedThisCycle = heap.markedThisCycle := by
      rw [writeBarrier_eq]
      split
      · exact setColor_markedThisCycle .gray
      · rfl
    rw [pendingCount_writeBarrier, writeBarrier_live, hmarked]
    exact h.scanned hphase

theorem startMarking (h : heap.Inventory born) (roots : List Cell) :
    (heap.startMarking roots).Inventory (heap.bornAfter born (.startMarking roots)) := by
  rcases hphase : heap.phase with _ | _
  · have hmarking : (heap.startMarking roots).phase = .marking := by
      rw [startMarking_of_idle hphase]
    refine ⟨h.stocked.of_room room_startMarking startMarking_live, h.lined.startMarking roots,
      ?_, ?_⟩
    · intro hidle
      rw [hmarking] at hidle
      cases hidle
    · intro _
      have hmarked : (heap.startMarking roots).markedThisCycle = 0 := by
        rw [startMarking_of_idle hphase]
        exact shadeAll_markedThisCycle
      rw [hmarked, pendingCount_startMarking hphase, startMarking_live, h.stocked.live_eq,
        bornAfter, if_neg (by simp [hphase])]
      omega
  · rw [bornAfter, if_pos hphase, Heap.startMarking, hphase]
    exact h

end Inventory

section

variable [Traceable α]

@[simp] theorem markStep_live (budget : Nat) : (heap.markStep budget).2.live = heap.live :=
  colorblind_live.markStep heap budget

@[simp] theorem completeMarking_live {roots : List Cell} :
    (heap.completeMarking roots).live = heap.live :=
  colorblind_live.completeMarking rfl roots

theorem completeMarking_waiting (heap : Heap α) (roots : List Cell) :
    (heap.completeMarking roots).waiting = [] := by
  rcases hphase : heap.phase with _ | _
  · exact waiting_completeMarking hphase roots
  · rw [completeMarking, hphase]
    exact markAll_done (shadeAll_phase.trans hphase)

/-! ### The inventory after a run -/

/-- The number of cells that a run has allocated since the cycle that it ends in began. -/
def bornAfterRun (heap : Heap α) (born : Nat) : List (Step α) → Nat
  | [] => born
  | step :: rest => (heap.apply step).bornAfterRun (heap.bornAfter born step) rest

theorem allocate_live (heap : Heap α) (content : α) :
    (heap.allocate content).2.live = heap.live + 1 := by
  rw [allocate]
  rcases heap.free with _ | ⟨index, rest⟩ <;> rfl

/-- A cell that is allocated while marking takes an empty slot and is not pending. -/
theorem Tidy.pendingCount_allocate (h : heap.Tidy) (hphase : heap.phase = .marking) (content : α) :
    (heap.allocate content).2.pendingCount = heap.pendingCount := by
  rw [pendingCount_eq, pendingCount_eq, Heap.allocate, if_pos hphase]
  rcases hfree : heap.free with _ | ⟨index, rest⟩ <;> dsimp only
  · simp [Slot.isPending]
  · obtain ⟨slot, hslot, hempty⟩ := h.empty index (by simp [hfree])
    obtain ⟨hbound, hget⟩ := List.getElem?_eq_some_iff.mp hslot
    simp [List.countP_set hbound, hget, hempty, Slot.isPending]

/-- A marking step turns pending cells into scanned ones. -/
theorem markStep_scanned (hphase : heap.phase = .marking) (budget : Nat) :
    (heap.markStep budget).2.markedThisCycle + (heap.markStep budget).2.pendingCount
      = heap.markedThisCycle + heap.pendingCount := by
  obtain ⟨used, hmarked, hpending, _⟩ := scanUpTo_spends budget heap.takeBuffer
  have hsame : heap.takeBuffer.markedThisCycle = heap.markedThisCycle ∧
      heap.takeBuffer.pendingCount = heap.pendingCount := ⟨rfl, rfl⟩
  rw [markStep_eq hphase]
  dsimp only
  omega

namespace Inventory

variable {born : Nat}

theorem allocate (h : heap.Inventory born) (content : α) :
    (heap.allocate content).2.Inventory (heap.bornAfter born (.allocate content)) := by
  obtain ⟨slots, free, live, allocated, hfields⟩ := allocate_eq heap content
  refine ⟨h.stocked.allocate content, h.lined.allocate h.stocked.tidy content, ?_, ?_⟩
  · intro hphase
    rw [allocate_phase] at hphase
    obtain ⟨hunmarked, hwaiting⟩ := h.idle hphase
    have hrule : (heap.allocate content).2.Tricolor [(heap.allocate content).1] :=
      (Tricolor.of_idle hphase hunmarked).allocate (fun _ hmem => hmem) (.inr (by simp))
    refine ⟨hrule.idle (by rw [allocate_phase, hphase]), ?_⟩
    rw [hfields]
    exact hwaiting
  · intro hphase
    rw [allocate_phase] at hphase
    have hscanned := h.scanned hphase
    have hmarked : (heap.allocate content).2.markedThisCycle = heap.markedThisCycle := by
      rw [hfields]
    rw [bornAfter, if_pos hphase, allocate_live, hmarked,
      h.stocked.tidy.pendingCount_allocate hphase]
    omega

theorem markStep (h : heap.Inventory born) (budget : Nat) :
    (heap.markStep budget).2.Inventory born := by
  refine ⟨h.stocked.of_room (room_markStep budget) (markStep_live budget), h.lined.markStep budget,
    ?_, ?_⟩
  · intro hphase
    rw [markStep_phase] at hphase
    rw [markStep_of_idle hphase]
    exact h.idle hphase
  · intro hphase
    rw [markStep_phase] at hphase
    rw [markStep_live, markStep_scanned hphase]
    exact h.scanned hphase

theorem collect (h : heap.Inventory born) (haddressable : heap.Addressable) (roots : List Cell) :
    (heap.collect roots).2.Inventory 0 := by
  have hmarked : (heap.completeMarking roots).Stocked :=
    h.stocked.of_room room_completeMarking completeMarking_live
  have hswept := hmarked.sweep (addressable_completeMarking haddressable)
  have hunmarked : ∀ cell, (heap.collect roots).2.isMarked cell = false := fun _ => isMarked_sweep
  have hwaiting : (heap.collect roots).2.waiting = [] := heap.completeMarking_waiting roots
  refine ⟨hswept.of_room rfl rfl, .of_unmarked hunmarked hwaiting,
    fun _ => ⟨hunmarked, hwaiting⟩, ?_⟩
  rintro ⟨⟩

theorem apply (h : heap.Inventory born) (step : Step α) (haddressable : heap.Addressable) :
    (heap.apply step).Inventory (heap.bornAfter born step) := by
  cases step with
  | allocate content => exact h.allocate content
  | mutate cell change => exact h.mutate cell change
  | writeBarrier owner target => exact h.writeBarrier owner target
  | startMarking roots => exact h.startMarking roots
  | markStep budget => exact h.markStep budget
  | collect roots => exact h.collect haddressable roots

end Inventory

/-- No step takes a slot away. -/
theorem length_slots_apply (heap : Heap α) (step : Step α) :
    heap.slots.length ≤ (heap.apply step).slots.length := by
  cases step with
  | allocate content => exact length_slots_allocate content
  | mutate cell change => exact Nat.le_of_eq (length_slots_of_room (room_update change)).symm
  | writeBarrier owner target => exact Nat.le_of_eq (length_slots_of_room room_writeBarrier).symm
  | startMarking roots => exact Nat.le_of_eq (length_slots_of_room room_startMarking).symm
  | markStep budget => exact Nat.le_of_eq (length_slots_of_room (room_markStep budget)).symm
  | collect roots =>
      show _ ≤ ((heap.completeMarking roots).slots.map Slot.swept).length
      rw [List.length_map]
      exact Nat.le_of_eq (length_slots_of_room room_completeMarking).symm

theorem length_slots_run (heap : Heap α) (steps : List (Step α)) :
    heap.slots.length ≤ (heap.run steps).slots.length := by
  induction steps generalizing heap with
  | nil => exact Nat.le_refl _
  | cons step rest ih => exact Nat.le_trans (heap.length_slots_apply step) (ih _)

theorem Inventory.run {born : Nat} (h : heap.Inventory born) (steps : List (Step α))
    (haddressable : (heap.run steps).Addressable) :
    (heap.run steps).Inventory (heap.bornAfterRun born steps) := by
  induction steps generalizing heap born with
  | nil => exact h
  | cons step rest ih =>
      have hnow : heap.Addressable :=
        Nat.le_trans (heap.length_slots_run (step :: rest)) haddressable
      exact ih (h.apply step hnow) haddressable

/-- After every run what a heap has written down agrees with its slots. The free slots are listed
once each, and the live cells are counted, so that a sweep never counts below zero. Between cycles
all cells are white and nothing waits. While marking, the gray cells wait once each, and every cell
is white or gray, has been scanned, or was born since marking began. -/
theorem books_balance (settings : HeapSettings) (steps : List (Step α))
    (haddressable : (({ settings } : Heap α).run steps).Addressable) :
    let heap := ({ settings } : Heap α).run steps
    heap.free.Nodup ∧
    (∀ index, index ∈ heap.free ↔ ∃ slot, heap.slots[index]? = some slot ∧ slot.content = none) ∧
    heap.live = heap.occupied.length ∧
    heap.live + heap.free.length = heap.slots.length ∧
    (∀ roots, (heap.collect roots).2.live + (heap.collect roots).1.reclaimed.length = heap.live) ∧
    (heap.phase = .idle →
      (∀ cell color, heap.color? cell = some color → color = .white) ∧
      heap.worklist = [] ∧ heap.buffer.pending = []) ∧
    (heap.phase = .marking →
      (heap.worklist ++ heap.buffer.pending).Nodup ∧
      (∀ cell, cell ∈ heap.worklist ++ heap.buffer.pending ↔ heap.color? cell = some .gray) ∧
      heap.markedThisCycle + heap.countColor .white + heap.countColor .gray
        + ({ settings } : Heap α).bornAfterRun 0 steps = heap.live) := by
  intro heap
  have hinventory : heap.Inventory _ := (Inventory.empty settings).run steps haddressable
  have hstocked := hinventory.stocked
  refine ⟨hstocked.tidy.nodup, fun _ => hstocked.mem_free_iff, hstocked.live_eq,
    hstocked.live_add_length_free, fun roots => ?_, fun hphase => ?_, fun hphase => ?_⟩
  · have hswept := (heap.completeMarking roots).length_occupied_sweep
    have hmarked : (heap.completeMarking roots).Stocked :=
      hstocked.of_room room_completeMarking completeMarking_live
    have hlive : (heap.completeMarking roots).live = heap.live := completeMarking_live
    have hcount := hmarked.live_eq
    show (heap.completeMarking roots).live - (heap.completeMarking roots).garbage.length
      + (heap.completeMarking roots).garbage.length = heap.live
    omega
  · obtain ⟨hunmarked, hwaiting⟩ := hinventory.idle hphase
    refine ⟨fun cell color hcolor => ?_, List.append_eq_nil_iff.mp hwaiting⟩
    by_contra hne
    have hcell := isMarked_iff.mpr ⟨color, hcolor, hne⟩
    rw [hunmarked] at hcell
    cases hcell
  · refine ⟨hinventory.lined.nodup, fun _ => hinventory.lined.mem_iff, ?_⟩
    have hscanned := hinventory.scanned hphase
    have hpending := heap.countColor_white_add_gray
    omega

/-- The slots of two cells are freed, and one of them is used again by a cell that is born while
marking. It receives the last cell of the first collection, which then waits in the buffer. -/
def halfMarked : List (Step Node) :=
  [.allocate ⟨0, [⟨1, 0⟩]⟩, .allocate ⟨1, [⟨2, 0⟩]⟩, .allocate ⟨2, []⟩, .allocate ⟨3, []⟩,
    .allocate ⟨4, []⟩, .allocate ⟨5, []⟩, .collect [⟨0, 0⟩, ⟨3, 0⟩],
    .startMarking [⟨0, 0⟩], .markStep 1, .allocate ⟨6, [⟨3, 0⟩]⟩, .writeBarrier ⟨5, 1⟩ ⟨3, 0⟩]

theorem books_of_halfMarked :
    let heap := ({} : Heap Node).run halfMarked
    heap.Addressable ∧ heap.phase = .marking ∧ heap.free = [4] ∧ heap.live = 5 ∧
      heap.live + heap.free.length = heap.slots.length ∧
      heap.worklist ++ heap.buffer.pending = [⟨1, 0⟩, ⟨3, 0⟩] ∧
      (∀ cell, cell ∈ [⟨1, 0⟩, ⟨3, 0⟩] ↔ heap.color? cell = some .gray) ∧
      heap.markedThisCycle = 1 ∧ heap.countColor .white = 1 ∧ heap.countColor .gray = 2 ∧
      ({} : Heap Node).bornAfterRun 0 halfMarked = 1 ∧
      heap.markedThisCycle + heap.countColor .white + heap.countColor .gray
        + ({} : Heap Node).bornAfterRun 0 halfMarked = heap.live := by
  intro heap
  have haddressable : heap.Addressable := by
    show (({} : Heap Node).run halfMarked).slots.length ≤ UInt32.size
    decide +kernel
  have hphase : heap.phase = .marking := by decide +kernel
  have hqueue : heap.worklist ++ heap.buffer.pending = [⟨1, 0⟩, ⟨3, 0⟩] := by decide +kernel
  obtain ⟨_, _, _, hslots, _, _, hmarking⟩ := books_balance {} halfMarked haddressable
  obtain ⟨_, hgray, hcells⟩ := hmarking hphase
  exact ⟨haddressable, hphase, by decide +kernel, by decide +kernel, hslots, hqueue, hqueue ▸ hgray,
    by decide +kernel, by decide +kernel, by decide +kernel, by decide +kernel, hcells⟩

end

end InlineCache.Heap
