import InlineCache.Proofs.Heap.Marking

/-!
# Marking comes to an end

Each scan turns a pending cell black and makes no other cell pending, so the number of pending cells
bounds the work that is left. The marker that runs until nothing waits is given as many rounds as
there are pending cells, and does not need more.
-/

namespace InlineCache

/-- The slot holds a cell that is not black. -/
def Slot.isPending {α : Type} (slot : Slot α) : Bool :=
  slot.content.isSome && slot.header.color != .black

namespace Heap

variable {α : Type} {heap : Heap α} {cell : Cell} {cells : List Cell}

theorem countP_occupied (heap : Heap α) (counts : Slot α → Bool) :
    heap.occupied.countP (fun place => counts place.2)
      = heap.slots.countP fun slot => slot.content.isSome && counts slot := by
  have hplaces : heap.slots.countP (fun slot => slot.content.isSome && counts slot)
      = heap.slots.zipIdx.countP ((fun slot => slot.content.isSome && counts slot) ∘ Prod.fst) := by
    rw [← List.countP_map, List.zipIdx_map_fst]
  rw [occupied, List.countP_filterMap, hplaces]
  congr 1
  funext ⟨⟨_, _, content⟩, index⟩
  cases content <;> rfl

theorem pendingCount_eq (heap : Heap α) : heap.pendingCount = heap.slots.countP Slot.isPending :=
  heap.countP_occupied fun slot => slot.header.color != .black

/-- Changing a slot changes the number of pending cells by what that slot counts. -/
theorem pendingCount_updateSlot {slot : Slot α} (hslot : heap.slot? cell = some slot)
    (change : Slot α → Slot α) :
    (heap.updateSlot cell change).pendingCount + (if slot.isPending = true then 1 else 0)
      = heap.pendingCount + (if (change slot).isPending = true then 1 else 0) := by
  obtain ⟨hfound, _⟩ := slot?_eq_some_iff.mp hslot
  obtain ⟨hbound, hget⟩ := List.getElem?_eq_some_iff.mp hfound
  have hcounted : (if slot.isPending = true then 1 else 0) ≤ heap.slots.countP Slot.isPending := by
    split
    · rename_i hpending
      exact List.countP_pos_iff.mpr ⟨slot, List.mem_of_getElem? hfound, hpending⟩
    · exact Nat.zero_le _
  rw [pendingCount_eq, pendingCount_eq, updateSlot, hslot]
  dsimp only
  rw [List.countP_set hbound, hget, Nat.add_right_comm, Nat.sub_add_cancel hcounted]

theorem pendingCount_setColor {old : Color} (hold : heap.color? cell = some old) (color : Color) :
    (heap.setColor cell color).pendingCount + (if old = .black then 0 else 1)
      = heap.pendingCount + (if color = .black then 0 else 1) := by
  rw [color?, Option.map_eq_some_iff] at hold
  obtain ⟨slot, hslot, rfl⟩ := hold
  obtain ⟨_, _, hsome⟩ := slot?_eq_some_iff.mp hslot
  have hcount := pendingCount_updateSlot hslot fun slot =>
    { slot with header := { slot.header with color } }
  simp only [Slot.isPending, hsome, Bool.true_and, bne_iff_ne, ne_eq, ite_not] at hcount
  exact hcount

theorem pendingCount_shade : (heap.shade cell).pendingCount = heap.pendingCount := by
  rw [shade_eq]
  split
  · rename_i hwhite
    exact Nat.succ.inj (pendingCount_setColor hwhite .gray)
  · rfl

theorem pendingCount_shadeAll : (heap.shadeAll cells).pendingCount = heap.pendingCount := by
  induction cells generalizing heap with
  | nil => rfl
  | cons cell rest ih => rw [shadeAll, List.foldl_cons, ← shadeAll, ih, pendingCount_shade]

/-! ### Counting the scans -/

/-- The cells that were scanned on the way from one heap to another, each counted once. -/
structure Scans (before after : Heap α) (cells : List Cell) : Prop where
  nodup : cells.Nodup
  pending : ∀ {cell}, after.isPending cell = true → before.isPending cell = true
  mem_iff : ∀ {cell}, cell ∈ cells ↔ before.isPending cell = true ∧ ¬ after.isPending cell = true
  count : after.markedThisCycle = before.markedThisCycle + cells.length

namespace Scans

variable {before middle after : Heap α}

/-- Nothing is scanned where no cell turns black. -/
theorem nil (hpending : ∀ cell, after.isPending cell = before.isPending cell)
    (hcount : after.markedThisCycle = before.markedThisCycle) : Scans before after [] where
  nodup := List.nodup_nil
  pending h := (hpending _).symm.trans h
  mem_iff := by simp [hpending]
  count := hcount

theorem trans {first second : List Cell} (hleft : Scans before middle first)
    (hright : Scans middle after second) : Scans before after (first ++ second) where
  nodup := by
    rw [List.nodup_append]
    refine ⟨hleft.nodup, hright.nodup, ?_⟩
    rintro cell hfirst _ hsecond rfl
    exact (hleft.mem_iff.mp hfirst).2 (hright.mem_iff.mp hsecond).1
  pending h := hleft.pending (hright.pending h)
  mem_iff := by
    intro cell
    rw [List.mem_append, hleft.mem_iff, hright.mem_iff]
    constructor
    · rintro (⟨hbefore, hmiddle⟩ | ⟨hmiddle, hafter⟩)
      · exact ⟨hbefore, fun h => hmiddle (hright.pending h)⟩
      · exact ⟨hleft.pending hmiddle, hafter⟩
    · rintro ⟨hbefore, hafter⟩
      by_cases hmiddle : middle.isPending cell = true
      · exact .inr ⟨hmiddle, hafter⟩
      · exact .inl ⟨hbefore, hmiddle⟩
  count := by
    rw [hright.count, hleft.count, List.length_append, Nat.add_assoc]

end Scans

@[simp] theorem setColor_markedThisCycle (color : Color) :
    (heap.setColor cell color).markedThisCycle = heap.markedThisCycle := by
  rw [setColor, updateSlot]
  split <;> rfl

@[simp] theorem shadeAll_markedThisCycle :
    (heap.shadeAll cells).markedThisCycle = heap.markedThisCycle := by
  induction cells generalizing heap with
  | nil => rfl
  | cons cell rest ih =>
      rw [shadeAll, List.foldl_cons, ← shadeAll, ih, shade_eq]
      split
      · exact setColor_markedThisCycle .gray
      · rfl

/-! ### Marking steps -/

section

variable [Traceable α] {roots : List Cell}

/-- The scan of a pending cell lowers the number of pending cells by one. -/
theorem pendingCount_scan (hpending : heap.isPending cell = true) :
    (heap.scan cell).pendingCount + 1 = heap.pendingCount := by
  rw [← isPending_shadeAll, isPending_iff] at hpending
  obtain ⟨color, hcolor, hne⟩ := hpending
  have hcount := pendingCount_setColor hcolor .black
  rw [if_neg hne, if_pos rfl, pendingCount_shadeAll] at hcount
  exact hcount

/-- Scanning empties the worklist or uses its budget up. -/
theorem scanUpTo_progress (budget : Nat) (heap : Heap α) : (scanUpTo budget heap).worklist = [] ∨
    (scanUpTo budget heap).pendingCount + budget = heap.pendingCount := by
  induction budget generalizing heap with
  | zero => exact .inr rfl
  | succ budget ih =>
      rw [scanUpTo]
      rcases hnext : heap.worklist.dropWhile fun cell => !heap.isPending cell with _ | ⟨cell, rest⟩
      · exact .inl rfl
      · have hpending := isPending_next hnext
        have hcount : (({ heap with worklist := rest } : Heap α).scan cell).pendingCount + 1
            = heap.pendingCount := pendingCount_scan (by exact hpending)
        refine (ih _).imp_right fun hrest => ?_
        dsimp only
        omega

/-- A marking step that is not done has used its budget up. -/
theorem markStep_progress (hphase : heap.phase = .marking) {budget : Nat}
    (hmore : (heap.markStep budget).1 = false) :
    (heap.markStep budget).2.pendingCount + budget = heap.pendingCount := by
  rw [markStep_eq hphase] at hmore ⊢
  refine (scanUpTo_progress budget heap.takeBuffer).resolve_left fun hempty => ?_
  rw [hempty] at hmore
  cases hmore

theorem markAll_go_succ (rounds : Nat) : markAll.go (rounds + 1) heap =
    if (heap.markStep word64Max).1 = true then (heap.markStep word64Max).2
    else markAll.go rounds (heap.markStep word64Max).2 := by
  rw [markAll.go]
  rcases heap.markStep word64Max with ⟨_ | _, after⟩ <;> rfl

theorem markAll_go_done (hphase : heap.phase = .marking) {rounds : Nat}
    (hrounds : heap.pendingCount ≤ rounds) : (markAll.go rounds heap).waiting = [] := by
  induction rounds generalizing heap with
  | zero =>
      rw [markAll.go]
      refine markStep_done hphase ?_
      rcases hdone : (heap.markStep word64Max).1 with _ | _
      · have hcount := markStep_progress hphase hdone
        simp only [word64Max] at hcount
        omega
      · rfl
  | succ rounds ih =>
      rw [markAll_go_succ]
      by_cases hdone : (heap.markStep word64Max).1 = true
      · rw [if_pos hdone]
        exact markStep_done hphase hdone
      · rw [if_neg hdone]
        have hcount := markStep_progress hphase (Bool.eq_false_iff.mpr hdone)
        refine ih (by rw [markStep_phase, hphase]) ?_
        simp only [word64Max] at hcount ⊢
        omega

/-- Marking to the end leaves nothing that waits. -/
theorem markAll_done (hphase : heap.phase = .marking) : heap.markAll.waiting = [] :=
  markAll_go_done hphase (Nat.le_refl _)

theorem markAll_go_marks (rounds : Nat) (h : heap.Queued) :
    Marks roots heap (markAll.go rounds heap) := by
  induction rounds generalizing heap with
  | zero => exact markStep_marks word64Max h
  | succ rounds ih =>
      rw [markAll_go_succ]
      have hstep : Marks roots heap _ := markStep_marks word64Max h
      split
      · exact hstep
      · exact hstep.trans (ih hstep.queued)

theorem markAll_marks (h : heap.Queued) : Marks roots heap heap.markAll :=
  markAll_go_marks heap.pendingCount h

@[simp] theorem get?_markAll : heap.markAll.get? cell = heap.get? cell := by
  rw [markAll]
  generalize heap.pendingCount = rounds
  induction rounds generalizing heap with
  | zero => exact get?_markStep word64Max
  | succ rounds ih =>
      rw [markAll_go_succ]
      split
      · exact get?_markStep word64Max
      · rw [ih, get?_markStep]

@[simp] theorem get?_completeMarking :
    (heap.completeMarking roots).get? cell = heap.get? cell := by
  rw [completeMarking]
  rcases heap.phase with _ | _
  · rw [get?_markAll, get?_startMarking]
  · rw [get?_markAll, get?_shadeAll]

/-- Marking that goes on to its end marks exactly what could be found where the marker began. -/
theorem Marks.isMarked_completeMarking {before : Heap α} (h : Marks roots before heap)
    (hphase : heap.phase = .marking) :
    (heap.completeMarking roots).isMarked cell = true ↔ before.Found roots cell := by
  rw [completeMarking, hphase]
  have hshaded : Marks roots heap (heap.shadeAll roots) :=
    shadeAll_marks h.queued fun _ hmem hlive => .root hmem hlive
  have hended : Marks roots (heap.shadeAll roots) (heap.shadeAll roots).markAll :=
    markAll_marks hshaded.queued
  refine (h.trans (hshaded.trans hended)).isMarked_iff_found
    (markAll_done (shadeAll_phase.trans hphase)) fun root hmem hlive => ?_
  rw [← contains_congr (h.get?_eq root)] at hlive
  exact hended.marked (isMarked_shadeAll.mpr (.inr ⟨hmem, hlive⟩))

theorem scan_scans (hpending : heap.isPending cell = true) :
    Scans heap (heap.scan cell) [cell] where
  nodup := by simp
  pending h := (isPending_scan.mp h).2
  mem_iff := by
    intro other
    rw [List.mem_singleton, isPending_scan]
    constructor
    · rintro rfl
      exact ⟨hpending, fun h => h.1 rfl⟩
    · rintro ⟨hbefore, hafter⟩
      exact Classical.byContradiction fun hne => hafter ⟨hne, hbefore⟩
  count := by
    show ((heap.shadeAll _).setColor cell .black).markedThisCycle + 1 = _
    rw [setColor_markedThisCycle, shadeAll_markedThisCycle, List.length_singleton]

theorem scanUpTo_scans (budget : Nat) (heap : Heap α) :
    ∃ cells, Scans heap (scanUpTo budget heap) cells := by
  induction budget generalizing heap with
  | zero => exact ⟨[], .nil (fun _ => rfl) rfl⟩
  | succ budget ih =>
      rw [scanUpTo]
      rcases hnext : heap.worklist.dropWhile fun cell => !heap.isPending cell with _ | ⟨cell, rest⟩
      · exact ⟨[], .nil (fun _ => rfl) rfl⟩
      · have hpopped : Scans heap { heap with worklist := rest } [] := .nil (fun _ => rfl) rfl
        have hpending := isPending_next hnext
        obtain ⟨cells, hrest⟩ := ih ({ heap with worklist := rest }.scan cell)
        exact ⟨_, hpopped.trans ((scan_scans (by exact hpending)).trans hrest)⟩

theorem markStep_scans (budget : Nat) (heap : Heap α) :
    ∃ cells, Scans heap (heap.markStep budget).2 cells := by
  rcases hphase : heap.phase with _ | _
  · rw [markStep, hphase]
    exact ⟨[], .nil (fun _ => rfl) rfl⟩
  · rw [markStep_eq hphase]
    have htaken : Scans heap heap.takeBuffer [] := .nil (fun _ => rfl) rfl
    obtain ⟨cells, hscans⟩ := scanUpTo_scans budget heap.takeBuffer
    exact ⟨_, htaken.trans hscans⟩

theorem markAll_scans (heap : Heap α) : ∃ cells, Scans heap heap.markAll cells := by
  rw [markAll]
  generalize heap.pendingCount = rounds
  induction rounds generalizing heap with
  | zero => exact markStep_scans word64Max heap
  | succ rounds ih =>
      rw [markAll_go_succ]
      obtain ⟨cells, hstep⟩ := markStep_scans word64Max heap
      split
      · exact ⟨cells, hstep⟩
      · obtain ⟨more, hrest⟩ := ih (heap.markStep word64Max).2
        exact ⟨_, hstep.trans hrest⟩

end

end Heap

end InlineCache
