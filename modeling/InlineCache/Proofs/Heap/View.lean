import InlineCache.Entity

/-!
# Looking into the heap

A heap is seen through the handles that resolve. Two handles that resolve in one heap are different
exactly if their indices are, so changing the slot of one cell leaves every other cell alone.
-/

namespace InlineCache.Heap

variable {α : Type} {heap : Heap α} {cell other : Cell} {slot : Slot α} {content : α}

theorem slot?_eq_some_iff : heap.slot? cell = some slot ↔
    heap.slots[cell.index.toNat]? = some slot ∧ slot.generation = cell.generation ∧
      slot.content.isSome = true := by
  rw [slot?, Option.filter_eq_some_iff, Bool.and_eq_true, beq_iff_eq]

theorem get?_eq_some_iff : heap.get? cell = some content ↔
    ∃ slot, heap.slot? cell = some slot ∧ slot.content = some content := by
  rw [get?, Option.bind_eq_some_iff]

theorem contains_iff : heap.contains cell = true ↔ ∃ content, heap.get? cell = some content := by
  rw [contains, Option.isSome_iff_exists]
  constructor
  · rintro ⟨slot, hslot⟩
    obtain ⟨content, hcontent⟩ := Option.isSome_iff_exists.mp (slot?_eq_some_iff.mp hslot).2.2
    exact ⟨content, get?_eq_some_iff.mpr ⟨slot, hslot, hcontent⟩⟩
  · rintro ⟨content, hcontent⟩
    obtain ⟨slot, hslot, _⟩ := get?_eq_some_iff.mp hcontent
    exact ⟨slot, hslot⟩

theorem mem_occupied (h : heap.get? cell = some content) :
    ∃ slot, (cell, slot) ∈ heap.occupied := by
  obtain ⟨slot, hslot, _⟩ := get?_eq_some_iff.mp h
  obtain ⟨hfound, hgeneration, hcontent⟩ := slot?_eq_some_iff.mp hslot
  refine ⟨slot, List.mem_filterMap.mpr ⟨(slot, cell.index.toNat), ?_, ?_⟩⟩
  · exact List.mem_zipIdx_iff_getElem?.mpr hfound
  · dsimp only
    rw [if_pos hcontent, hgeneration, UInt32.ofNat_toNat]

/-- A change of a slot that keeps its generation and keeps it occupied is seen through the handle of
that slot only. -/
theorem slot?_updateSlot {change : Slot α → Slot α}
    (hgeneration : ∀ slot, (change slot).generation = slot.generation)
    (hcontent : ∀ slot, (change slot).content.isSome = slot.content.isSome) :
    (heap.updateSlot cell change).slot? other
      = if other = cell then (heap.slot? cell).map change else heap.slot? other := by
  rw [updateSlot]
  rcases hslot : heap.slot? cell with _ | slot <;> dsimp only
  · by_cases heq : other = cell
    · rw [if_pos heq, heq, hslot, Option.map_none]
    · rw [if_neg heq]
  · obtain ⟨hfound, hcell, hsome⟩ := slot?_eq_some_iff.mp hslot
    have hbound := (List.getElem?_eq_some_iff.mp hfound).1
    by_cases heq : other = cell
    · rw [if_pos heq, heq, Option.map_some, slot?_eq_some_iff]
      refine ⟨List.getElem?_set_self hbound, ?_, ?_⟩
      · rw [hgeneration, hcell]
      · rw [hcontent, hsome]
    · rw [if_neg heq]
      by_cases hindex : other.index = cell.index
      · -- the slot has one generation, so the other handle resolves neither before nor after
        have hother : cell.generation ≠ other.generation := by
          intro hgen
          apply heq
          cases other
          cases cell
          simp only [Cell.mk.injEq] at hindex hgen ⊢
          exact ⟨hindex, hgen.symm⟩
        simp only [slot?, hindex, List.getElem?_set_self hbound, hfound]
        simp [Option.filter, hgeneration, hcell, hother]
      · have hplace : cell.index.toNat ≠ other.index.toNat := fun hnat =>
          hindex (UInt32.toNat_inj.mp hnat.symm)
        simp only [slot?, List.getElem?_set_ne hplace]

theorem get?_update (change : α → α) :
    (heap.update cell change).get? other
      = if other = cell then (heap.get? cell).map change else heap.get? other := by
  rw [update, get?, slot?_updateSlot]
  · split
    · rw [get?]
      rcases heap.slot? cell with _ | slot <;> rfl
    · rfl
  · exact fun _ => rfl
  · exact fun _ => Option.isSome_map

theorem slot?_setColor (color : Color) :
    (heap.setColor cell color).slot? other
      = if other = cell then (heap.slot? cell).map fun slot =>
          { slot with header := { slot.header with color } }
        else heap.slot? other := by
  exact slot?_updateSlot (fun _ => rfl) fun _ => rfl

@[simp] theorem get?_setColor (color : Color) :
    (heap.setColor cell color).get? other = heap.get? other := by
  rw [get?, slot?_setColor]
  split
  · rename_i heq
    rw [get?, heq]
    rcases heap.slot? cell with _ | slot <;> rfl
  · rfl

/-! ### Executables and closures -/

section

variable {heap : Heap Entity} {kind : Specialization} {code : Option CodeId}

theorem executable?_eq_some_iff {executable : Executable} :
    heap.executable? cell = some executable ↔ heap.get? cell = some (.executable executable) := by
  rw [executable?]
  rcases heap.get? cell with _ | (_ | _ | _) <;> simp

theorem closure?_eq_some_iff {closure : Closure} :
    heap.closure? cell = some closure ↔ heap.get? cell = some (.function closure) := by
  rw [closure?]
  rcases heap.get? cell with _ | (_ | _ | _) <;> simp

theorem executable?_setCode :
    (heap.setCode cell kind code).executable? other
      = if other = cell then (heap.executable? cell).map fun executable =>
          executable.setCode kind code
        else heap.executable? other := by
  simp only [executable?, setCode, get?_update]
  by_cases heq : other = cell
  · simp only [if_pos heq]
    rcases heap.get? cell with _ | (_ | _ | _) <;> rfl
  · simp only [if_neg heq]

@[simp] theorem closure?_setCode :
    (heap.setCode cell kind code).closure? other = heap.closure? other := by
  simp only [closure?, setCode, get?_update]
  by_cases heq : other = cell
  · simp only [heq]
    rcases heap.get? cell with _ | (_ | _ | _) <;> rfl
  · simp only [if_neg heq]

end

end InlineCache.Heap

namespace InlineCache.Executable

variable (executable : Executable) (kind : Specialization) (code : Option CodeId)

@[simp] theorem code_setCode_self : (executable.setCode kind code).code kind = code := by
  cases kind <;> rfl

theorem code_setCode_of_ne {other : Specialization} (hne : other ≠ kind) :
    (executable.setCode kind code).code other = executable.code other := by
  cases kind with
  | call =>
      cases other with
      | call => exact absurd rfl hne
      | construct => rfl
  | construct =>
      cases other with
      | call => rfl
      | construct => exact absurd rfl hne

@[simp] theorem setCode_constructible :
    (executable.setCode kind code).constructible = executable.constructible := by
  cases kind <;> rfl

@[simp] theorem setCode_sites :
    (executable.setCode kind code).sites = executable.sites := by
  cases kind <;> rfl

end InlineCache.Executable
