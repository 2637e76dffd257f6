import InlineCache.Heap.Collection
import InlineCache.Proofs.Heap.View

/-!
# Colours of cells

The collector sees a cell through its colour. Each operation of the heap is described by what it
does to the colours of cells and to what they hold. From the colours follow the two questions that
the marker asks: is a cell marked, that is not white, and is it pending, that is not black?
-/

namespace InlineCache

/-- The colour of a shaded cell. -/
def Color.shaded : Color → Color
  | .white => .gray
  | color => color

@[simp] theorem Color.shaded_ne_white (color : Color) : color.shaded ≠ .white := by
  cases color <;> simp [shaded]

@[simp] theorem Color.shaded_eq_black_iff {color : Color} :
    color.shaded = .black ↔ color = .black := by
  cases color <;> simp [shaded]

namespace Heap

variable {α : Type} {heap after : Heap α} {cell other : Cell}

/-- The colour of a cell that resolves. -/
def color? (heap : Heap α) (cell : Cell) : Option Color :=
  (heap.slot? cell).map fun slot => slot.header.color

theorem contains_iff_color? :
    heap.contains cell = true ↔ ∃ color, heap.color? cell = some color := by
  rw [contains, color?, ← Option.isSome_iff_exists, Option.isSome_map]

theorem isMarked_iff :
    heap.isMarked cell = true ↔ ∃ color, heap.color? cell = some color ∧ color ≠ .white := by
  rw [isMarked, header?, color?]
  rcases heap.slot? cell with _ | slot <;> simp

theorem isPending_iff :
    heap.isPending cell = true ↔ ∃ color, heap.color? cell = some color ∧ color ≠ .black := by
  rw [isPending, header?, color?]
  rcases heap.slot? cell with _ | slot <;> simp

theorem contains_of_isMarked (h : heap.isMarked cell = true) : heap.contains cell = true := by
  obtain ⟨color, hcolor, _⟩ := isMarked_iff.mp h
  exact contains_iff_color?.mpr ⟨color, hcolor⟩

theorem contains_of_isPending (h : heap.isPending cell = true) : heap.contains cell = true := by
  obtain ⟨color, hcolor, _⟩ := isPending_iff.mp h
  exact contains_iff_color?.mpr ⟨color, hcolor⟩

/-- A cell that is not pending has been scanned or is not there. -/
theorem color?_of_not_isPending (hlive : heap.contains cell = true)
    (h : ¬ heap.isPending cell = true) : heap.color? cell = some .black := by
  obtain ⟨color, hcolor⟩ := contains_iff_color?.mp hlive
  by_cases hblack : color = .black
  · rw [hcolor, hblack]
  · exact absurd (isPending_iff.mpr ⟨color, hcolor, hblack⟩) h

theorem color?_of_not_isMarked (hlive : heap.contains cell = true)
    (h : ¬ heap.isMarked cell = true) : heap.color? cell = some .white := by
  obtain ⟨color, hcolor⟩ := contains_iff_color?.mp hlive
  by_cases hwhite : color = .white
  · rw [hcolor, hwhite]
  · exact absurd (isMarked_iff.mpr ⟨color, hcolor, hwhite⟩) h

theorem isMarked_of_not_isPending (hlive : heap.contains cell = true)
    (h : ¬ heap.isPending cell = true) : heap.isMarked cell = true :=
  isMarked_iff.mpr ⟨.black, color?_of_not_isPending hlive h, by simp⟩

theorem isMarked_congr (h : after.color? cell = heap.color? cell) :
    after.isMarked cell = heap.isMarked cell := by
  rw [Bool.eq_iff_iff, isMarked_iff, isMarked_iff, h]

theorem isPending_congr (h : after.color? cell = heap.color? cell) :
    after.isPending cell = heap.isPending cell := by
  rw [Bool.eq_iff_iff, isPending_iff, isPending_iff, h]

theorem contains_congr (h : after.get? cell = heap.get? cell) :
    after.contains cell = heap.contains cell := by
  rw [Bool.eq_iff_iff, contains_iff, contains_iff, h]

/-! ### Setting a colour -/

theorem color?_setColor (color : Color) :
    (heap.setColor cell color).color? other
      = if other = cell then (heap.color? cell).map fun _ => color else heap.color? other := by
  rw [color?, slot?_setColor]
  split
  · rw [color?]
    rcases heap.slot? cell with _ | slot <;> rfl
  · rfl

@[simp] theorem setColor_phase (color : Color) : (heap.setColor cell color).phase = heap.phase := by
  rw [setColor, updateSlot]
  split <;> rfl

@[simp] theorem setColor_worklist (color : Color) :
    (heap.setColor cell color).worklist = heap.worklist := by
  rw [setColor, updateSlot]
  split <;> rfl

@[simp] theorem setColor_buffer (color : Color) :
    (heap.setColor cell color).buffer = heap.buffer := by
  rw [setColor, updateSlot]
  split <;> rfl

/-! ### Shading -/

/-- Shading a white cell makes it gray and lets it wait; shading any other cell does nothing. -/
theorem shade_eq : heap.shade cell =
    if heap.color? cell = some .white then
      { heap.setColor cell .gray with worklist := heap.worklist ++ [cell] }
    else heap := by
  rw [shade, header?, color?]
  rcases heap.slot? cell with _ | ⟨_, ⟨_ | _ | _, _⟩, _⟩ <;> simp [Header.shade]

theorem color?_shade : (heap.shade cell).color? other
    = if other = cell then (heap.color? cell).map Color.shaded else heap.color? other := by
  rw [shade_eq]
  by_cases hwhite : heap.color? cell = some .white
  · rw [if_pos hwhite]
    have hset : (heap.setColor cell .gray).color? other = _ := color?_setColor .gray
    rw [show ({ heap.setColor cell .gray with worklist := heap.worklist ++ [cell] } :
      Heap α).color? other = (heap.setColor cell .gray).color? other from rfl, hset, hwhite]
    rfl
  · rw [if_neg hwhite]
    split
    · rename_i heq
      rw [heq]
      rcases hcolor : heap.color? cell with _ | (_ | _ | _)
      · rfl
      · exact absurd hcolor hwhite
      · rfl
      · rfl
    · rfl

@[simp] theorem get?_shade : (heap.shade cell).get? other = heap.get? other := by
  rw [shade_eq]
  split
  · exact get?_setColor .gray
  · rfl

@[simp] theorem shade_phase : (heap.shade cell).phase = heap.phase := by
  rw [shade_eq]
  split
  · exact setColor_phase .gray
  · rfl

@[simp] theorem shade_buffer : (heap.shade cell).buffer = heap.buffer := by
  rw [shade_eq]
  split
  · exact setColor_buffer .gray
  · rfl

theorem shade_worklist : (heap.shade cell).worklist =
    if heap.color? cell = some .white then heap.worklist ++ [cell] else heap.worklist := by
  rw [shade_eq]
  split <;> rfl

theorem isPending_shade : (heap.shade cell).isPending other = heap.isPending other := by
  rw [Bool.eq_iff_iff, isPending_iff, isPending_iff, color?_shade]
  split
  · rename_i heq
    rw [heq]
    rcases heap.color? cell with _ | color <;> simp
  · rfl

theorem isMarked_shade : (heap.shade cell).isMarked other = true ↔
    heap.isMarked other = true ∨ other = cell ∧ heap.contains cell = true := by
  rw [isMarked_iff, isMarked_iff, contains_iff_color?, color?_shade]
  split
  · rename_i heq
    rw [heq]
    rcases heap.color? cell with _ | color <;> simp
  · rename_i hne
    simp [hne]

/-! ### The write barrier -/

/-- The barrier shades a white cell that a black cell refers to, while marking. -/
theorem writeBarrier_eq {owner target : Cell} : heap.writeBarrier owner target =
    if heap.phase = .marking ∧ heap.color? owner = some .black ∧
        heap.color? target = some .white then
      { heap.setColor target .gray with
        buffer := heap.buffer.push target
        barrierGrays := tick64 heap.barrierGrays }
    else heap := by
  rw [writeBarrier]
  rcases hphase : heap.phase with _ | _ <;> dsimp only
  · rw [if_neg]
    rintro ⟨hmarking, _⟩
    cases hmarking
  · rw [header?, header?, color?, color?]
    rcases heap.slot? owner with _ | ⟨_, ⟨_ | _ | _, _⟩, _⟩ <;>
      rcases heap.slot? target with _ | ⟨_, ⟨_ | _ | _, _⟩, _⟩ <;>
      simp [Header.insertionBarrier, Header.shade]

theorem color?_writeBarrier {owner target : Cell} :
    (heap.writeBarrier owner target).color? cell =
      if heap.phase = .marking ∧ heap.color? owner = some .black then
        (heap.shade target).color? cell
      else heap.color? cell := by
  rw [writeBarrier_eq, shade_eq]
  by_cases hacts : heap.phase = .marking ∧ heap.color? owner = some .black
  · rw [if_pos hacts]
    by_cases hwhite : heap.color? target = some .white
    · rw [if_pos ⟨hacts.1, hacts.2, hwhite⟩, if_pos hwhite]
      rfl
    · rw [if_neg fun hshades => hwhite hshades.2.2, if_neg hwhite]
  · rw [if_neg hacts, if_neg fun hshades => hacts ⟨hshades.1, hshades.2.1⟩]

@[simp] theorem get?_writeBarrier {owner target : Cell} :
    (heap.writeBarrier owner target).get? other = heap.get? other := by
  rw [writeBarrier_eq]
  split
  · exact get?_setColor .gray
  · rfl

@[simp] theorem writeBarrier_phase {owner target : Cell} :
    (heap.writeBarrier owner target).phase = heap.phase := by
  rw [writeBarrier_eq]
  split
  · exact setColor_phase .gray
  · rfl

theorem writeBarrier_of_idle (h : heap.phase = .idle) (owner target : Cell) :
    heap.writeBarrier owner target = heap := by
  rw [writeBarrier, h]

/-! ### Changing what a cell holds -/

theorem color?_update (change : α → α) :
    (heap.update cell change).color? other = heap.color? other := by
  rw [update, color?, slot?_updateSlot]
  · split
    · rename_i heq
      rw [color?, heq]
      rcases heap.slot? cell with _ | slot <;> rfl
    · rfl
  · exact fun _ => rfl
  · exact fun _ => Option.isSome_map

theorem update_eq (heap : Heap α) (cell : Cell) (change : α → α) :
    ∃ slots, heap.update cell change = { heap with slots } := by
  rw [update, updateSlot]
  split
  · exact ⟨_, rfl⟩
  · exact ⟨heap.slots, rfl⟩

@[simp] theorem update_phase (change : α → α) :
    (heap.update cell change).phase = heap.phase := by
  obtain ⟨slots, hslots⟩ := update_eq heap cell change
  rw [hslots]

/-! ### Whitening and sweeping -/

theorem slot?_whiten : heap.whiten.slot? cell = (heap.slot? cell).map fun slot =>
    { slot with header := { slot.header with color := .white } } := by
  rw [slot?, slot?, whiten, List.getElem?_map]
  rcases heap.slots[cell.index.toNat]? with _ | ⟨generation, header, _ | content⟩
  · rfl
  · simp [Option.filter]
  · by_cases hcell : generation = cell.generation <;> simp [Option.filter, hcell]

@[simp] theorem get?_whiten : heap.whiten.get? cell = heap.get? cell := by
  rw [get?, slot?_whiten, get?]
  rcases heap.slot? cell with _ | slot <;> rfl

theorem color?_whiten : heap.whiten.color? cell = (heap.color? cell).map fun _ => .white := by
  rw [color?, slot?_whiten, color?]
  rcases heap.slot? cell with _ | slot <;> rfl

/-- A sweep takes the white cells away, and the others are white after it. -/
theorem slot?_sweep : heap.sweep.slot? cell = (heap.slot? cell).bind fun slot =>
    if slot.header.color = .white then none
    else some { slot with header := { slot.header with color := .white } } := by
  rw [slot?, slot?, sweep, List.getElem?_map]
  rcases heap.slots[cell.index.toNat]? with _ | ⟨generation, ⟨color, tag⟩, _ | content⟩
  · rfl
  · simp [Option.filter, Slot.swept]
  · by_cases hcell : generation = cell.generation <;> rcases color with _ | _ | _ <;>
      simp [Option.filter, Slot.swept, hcell]

theorem get?_sweep : heap.sweep.get? cell =
    if heap.isMarked cell = true then heap.get? cell else none := by
  rw [get?, slot?_sweep, get?, isMarked, header?]
  rcases heap.slot? cell with _ | ⟨_, ⟨_ | _ | _, _⟩, _⟩ <;> simp

theorem contains_sweep : heap.sweep.contains cell = heap.isMarked cell := by
  rw [contains, slot?_sweep, isMarked, header?]
  rcases heap.slot? cell with _ | ⟨_, ⟨_ | _ | _, _⟩, _⟩ <;> simp

/-- Exactly the marked cells survive a collection. -/
theorem contains_reclaim : heap.reclaim.2.contains cell = heap.isMarked cell :=
  contains_sweep

theorem isMarked_sweep : heap.sweep.isMarked cell = false := by
  rw [isMarked, header?, slot?_sweep]
  rcases heap.slot? cell with _ | ⟨_, ⟨_ | _ | _, _⟩, _⟩ <;> simp

/-! ### Allocation -/

section

variable [Traceable α] (heap : Heap α) (content : α) (cell : Cell)

/-- A slot with a generation is found at its place through one handle. -/
theorem eq_of_index_generation {cell : Cell} {index : Nat} {generation : UInt32}
    (hindex : cell.index.toNat = index) (hgeneration : generation = cell.generation) :
    cell = ⟨UInt32.ofNat index, generation⟩ := by
  rw [← hindex, UInt32.ofNat_toNat, hgeneration]

/-- Allocating is seen through no handle but the new one. -/
theorem slot?_allocate : (heap.allocate content).2.slot? cell = heap.slot? cell ∨
    cell = (heap.allocate content).1 ∧
      ∃ generation, (heap.allocate content).2.slot? cell = some
        ⟨generation, ⟨if heap.phase = .marking then .black else .white, Traceable.tag content⟩,
          some content⟩ := by
  rw [allocate]
  rcases hfree : heap.free with _ | ⟨index, rest⟩ <;> dsimp only
  · -- the new slot stands behind the others
    by_cases hindex : cell.index.toNat = heap.slots.length
    · by_cases hgeneration : 0 = cell.generation
      · refine .inr ⟨eq_of_index_generation hindex hgeneration, 0, ?_⟩
        simp [slot?, hindex, hgeneration, Option.filter]
      · left
        simp [slot?, hindex, hgeneration, Option.filter]
    · left
      rw [slot?, slot?, List.getElem?_append]
      split
      · rfl
      · rw [List.getElem?_eq_none (by simp; omega), List.getElem?_eq_none (by omega)]
  · by_cases hindex : cell.index.toNat = index
    · rcases hfound : heap.slots[index]? with _ | old
      · left
        have hout := List.getElem?_eq_none_iff.mp hfound
        rw [slot?, slot?, List.set_eq_of_length_le hout]
      · have hbound := (List.getElem?_eq_some_iff.mp hfound).1
        by_cases hgeneration : old.generation = cell.generation
        · refine .inr ⟨eq_of_index_generation hindex hgeneration, old.generation, ?_⟩
          simp [slot?, hindex, List.getElem?_set_self hbound, hgeneration, Option.filter]
        · left
          simp [slot?, hindex, List.getElem?_set_self hbound, hfound, hgeneration, Option.filter]
    · left
      rw [slot?, slot?, List.getElem?_set_ne (Ne.symm hindex)]

theorem get?_allocate : (heap.allocate content).2.get? cell = heap.get? cell ∧
      (heap.allocate content).2.color? cell = heap.color? cell ∨
    cell = (heap.allocate content).1 ∧ (heap.allocate content).2.get? cell = some content ∧
      (heap.allocate content).2.color? cell
        = some (if heap.phase = .marking then .black else .white) := by
  rcases slot?_allocate heap content cell with hsame | ⟨hnew, generation, hslot⟩
  · left
    rw [get?, get?, color?, color?, hsame]
    exact ⟨rfl, rfl⟩
  · right
    rw [get?, color?, hslot]
    exact ⟨hnew, rfl, rfl⟩

theorem allocate_eq : ∃ slots free live allocated, (heap.allocate content).2 =
    { heap with slots, free, live, allocatedSinceCollection := allocated } := by
  rw [allocate]
  rcases heap.free with _ | ⟨index, rest⟩
  · exact ⟨_, _, _, _, rfl⟩
  · exact ⟨_, _, _, _, rfl⟩

@[simp] theorem allocate_phase : (heap.allocate content).2.phase = heap.phase := by
  obtain ⟨slots, free, live, allocated, hfields⟩ := allocate_eq heap content
  rw [hfields]

end

end Heap

end InlineCache
