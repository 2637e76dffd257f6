import InlineCache.Proofs.Heap.Exactness

/-!
# The pace of marking

How marking is cut into steps changes nothing but when the work is done. Budgets add up, so a cycle
that was run in steps of any sizes ends in the heap that one uninterrupted collection leaves.

The mutator cannot keep the marker busy either. Every step that leaves work behind has turned as
many cells black as its budget allows, and nothing that happens during a cycle makes a black cell
pending or adds a pending cell. So a cycle has only as many unfinished steps as the cells that were
there at its start pay for.
-/

namespace InlineCache.Heap

variable {α : Type} [Traceable α] {heap : Heap α} {cell : Cell} {roots : List Cell}

/-! ### Budgets add up -/

theorem scanUpTo_of_worklist (hempty : heap.worklist = []) (budget : Nat) :
    scanUpTo budget heap = heap := by
  cases budget with
  | zero => rfl
  | succ budget =>
      rw [scanUpTo, hempty, List.dropWhile_nil]
      show ({ heap with worklist := [] } : Heap α) = heap
      rw [← hempty]

theorem scanUpTo_add (first second : Nat) (heap : Heap α) :
    scanUpTo (first + second) heap = scanUpTo second (scanUpTo first heap) := by
  induction first generalizing heap with
  | zero => rw [Nat.zero_add, scanUpTo]
  | succ first ih =>
      rw [Nat.succ_add, scanUpTo, scanUpTo]
      rcases heap.worklist.dropWhile fun cell => !heap.isPending cell with _ | ⟨cell, rest⟩
      · exact (scanUpTo_of_worklist rfl second).symm
      · exact ih _

omit [Traceable α] in
theorem takeBuffer_of_empty (hempty : heap.buffer = {}) : heap.takeBuffer = heap := by
  rw [takeBuffer, BarrierBuffer.drain, hempty]
  show ({ heap with worklist := heap.worklist ++ [], buffer := {} } : Heap α) = heap
  rw [List.append_nil, ← hempty]

theorem markStep_of_idle (hphase : heap.phase = .idle) (budget : Nat) :
    heap.markStep budget = (true, heap) := by
  rw [markStep, hphase]

theorem markStep_markStep (first second : Nat) (heap : Heap α) :
    (heap.markStep first).2.markStep second = heap.markStep (first + second) := by
  rcases hphase : heap.phase with _ | _
  · rw [markStep_of_idle hphase, markStep_of_idle hphase, markStep_of_idle hphase]
  · have hthen : (heap.markStep first).2.phase = .marking := by rw [markStep_phase, hphase]
    have htaken : (scanUpTo first heap.takeBuffer).takeBuffer = scanUpTo first heap.takeBuffer :=
      takeBuffer_of_empty (scanUpTo_buffer first)
    rw [markStep_eq hthen, markStep_eq hphase, markStep_eq hphase, scanUpTo_add, htaken]

theorem markStep_of_waiting (hdone : heap.waiting = []) (budget : Nat) :
    heap.markStep budget = (true, heap) := by
  obtain ⟨hworklist, hpending⟩ := List.append_eq_nil_iff.mp hdone
  rcases hphase : heap.phase with _ | _
  · exact markStep_of_idle hphase budget
  · have hbuffer : heap.buffer = {} := congrArg BarrierBuffer.mk hpending
    rw [markStep_eq hphase, takeBuffer_of_empty hbuffer, scanUpTo_of_worklist hworklist, hworklist]
    rfl

/-- More than enough is as good as enough. -/
theorem markStep_of_enough {enough budget : Nat} (hle : enough ≤ budget)
    (hdone : (heap.markStep enough).2.waiting = []) :
    (heap.markStep budget).2 = (heap.markStep enough).2 := by
  obtain ⟨more, rfl⟩ := Nat.exists_eq_add_of_le hle
  rw [← markStep_markStep, markStep_of_waiting hdone]

theorem markAll_eq_markStep (heap : Heap α) :
    ∃ budget, heap.markAll = (heap.markStep budget).2 := by
  rw [markAll]
  generalize heap.pendingCount = rounds
  induction rounds generalizing heap with
  | zero => exact ⟨word64Max, rfl⟩
  | succ rounds ih =>
      rw [markAll_go_succ]
      split
      · exact ⟨word64Max, rfl⟩
      · obtain ⟨budget, hrest⟩ := ih (heap.markStep word64Max).2
        exact ⟨word64Max + budget, by rw [hrest, markStep_markStep]⟩

/-- Marking to the end leads to the same heap from wherever a step has left off. -/
theorem markAll_markStep (hphase : heap.phase = .marking) (budget : Nat) :
    (heap.markStep budget).2.markAll = heap.markAll := by
  obtain ⟨whole, hwhole⟩ := markAll_eq_markStep heap
  obtain ⟨left, hleft⟩ := markAll_eq_markStep (heap.markStep budget).2
  have hdone := markAll_done hphase
  have hdoneLeft := markAll_done ((markStep_phase budget).trans hphase)
  rw [markStep_markStep] at hleft
  rw [hwhole] at hdone ⊢
  rw [hleft] at hdoneLeft ⊢
  rcases Nat.le_total whole (budget + left) with hle | hle
  · exact markStep_of_enough hle hdone
  · exact (markStep_of_enough hle hdoneLeft).symm

/-! ### Any schedule -/

/-- A cycle that has found its roots. -/
structure Underway (roots : List Cell) (heap : Heap α) : Prop where
  phase : heap.phase = .marking
  queued : heap.Queued
  rooted : ∀ root ∈ roots, heap.contains root = true → heap.isMarked root = true

omit [Traceable α] in
theorem shadeAll_of_marked {cells : List Cell}
    (hmarked : ∀ cell ∈ cells, heap.contains cell = true → heap.isMarked cell = true) :
    heap.shadeAll cells = heap := by
  induction cells with
  | nil => rfl
  | cons cell rest ih =>
      have hnotWhite : heap.color? cell ≠ some .white := by
        intro hwhite
        have hcell := hmarked cell List.mem_cons_self (contains_iff_color?.mpr ⟨_, hwhite⟩)
        rw [isMarked_iff, hwhite] at hcell
        simp at hcell
      rw [shadeAll, List.foldl_cons, ← shadeAll, shade_eq, if_neg hnotWhite]
      exact ih fun other hmem => hmarked other (List.mem_cons_of_mem _ hmem)

namespace Underway

theorem completeMarking_eq (h : heap.Underway roots) :
    heap.completeMarking roots = heap.markAll := by
  rw [completeMarking, h.phase]
  exact congrArg markAll (shadeAll_of_marked h.rooted)

theorem startMarking (hphase : heap.phase = .idle) (roots : List Cell) :
    (heap.startMarking roots).Underway roots where
  phase := by rw [startMarking_of_idle hphase]
  queued := (startMarking_marks hphase roots).queued
  rooted := by
    intro root hmem hlive
    rw [contains_congr get?_startMarking, ← contains_congr get?_whitened] at hlive
    rw [startMarking_of_idle hphase]
    exact isMarked_shadeAll.mpr (.inr ⟨hmem, hlive⟩)

theorem markStep (h : heap.Underway roots) (budget : Nat) :
    (heap.markStep budget).2.Underway roots := by
  have hmarks : Marks roots heap (heap.markStep budget).2 := markStep_marks budget h.queued
  refine ⟨(markStep_phase budget).trans h.phase, hmarks.queued, fun root hmem hlive => ?_⟩
  rw [contains_congr (hmarks.get?_eq root)] at hlive
  exact hmarks.marked (h.rooted root hmem hlive)

/-- Steps of any sizes leave the rest of the work as it was. -/
theorem completeMarking_run (h : heap.Underway roots) (budgets : List Nat) :
    (heap.run (budgets.map .markStep)).completeMarking roots = heap.markAll := by
  induction budgets generalizing heap with
  | nil => exact h.completeMarking_eq
  | cons budget rest ih => exact (ih (h.markStep budget)).trans (markAll_markStep h.phase budget)

end Underway

/-- A cycle that is run in steps, whatever their budgets, ends in the report and the heap of a
collection that is run at once. Two steps are as good as one that has both their budgets. -/
theorem collect_after_any_schedule (heap : Heap α) :
    (heap.phase = .idle → ∀ (roots : List Cell) (budgets : List Nat),
      (heap.run (.startMarking roots :: budgets.map .markStep)).collect roots
        = heap.collect roots) ∧
    (heap.phase = .marking → ∀ first second : Nat,
      (heap.markStep first).2.markStep second = heap.markStep (first + second)) := by
  refine ⟨fun hphase roots budgets => ?_, fun _ first second => markStep_markStep first second heap⟩
  have hcycle : (heap.startMarking roots).Underway roots := .startMarking hphase roots
  have hended : (heap.run (.startMarking roots :: budgets.map .markStep)).completeMarking roots
      = (heap.startMarking roots).markAll := hcycle.completeMarking_run budgets
  rw [collect, collect, hended, completeMarking_of_idle hphase]

/-- The first step does nothing, the second scans one cell, the third finds the end of the work. -/
theorem collect_cycles_in_steps :
    let heap := ({} : Heap Node).run cyclesOfCells
    let roots : List Cell := [⟨1, 1⟩, ⟨7, 7⟩, ⟨1, 1⟩, ⟨0, 0⟩]
    let stepped := heap.run (.startMarking roots :: [0, 1, 9, 0].map .markStep)
    heap.phase = .idle ∧ stepped.collect roots = heap.collect roots ∧
      (stepped.collect roots).1 = ⟨2, [⟨2, 0⟩, ⟨3, 0⟩, ⟨4, 0⟩]⟩ ∧
      (heap.startMarking roots).phase = .marking ∧
      ((heap.startMarking roots).markStep 1).2.markStep 2
        = (heap.startMarking roots).markStep 3 := by
  intro heap roots stepped
  have hphase : heap.phase = .idle := by decide
  have hmarking : (heap.startMarking roots).phase = .marking := by decide
  refine ⟨hphase, (collect_after_any_schedule heap).1 hphase roots [0, 1, 9, 0], by decide +kernel,
    hmarking, (collect_after_any_schedule (heap.startMarking roots)).2 hmarking 1 2⟩

/-! ### What a step gets done -/

/-- Each unit of the budget that is used scans one cell, which is not pending afterwards. -/
theorem scanUpTo_spends (budget : Nat) (heap : Heap α) :
    ∃ used, (scanUpTo budget heap).markedThisCycle = heap.markedThisCycle + used ∧
      (scanUpTo budget heap).pendingCount + used = heap.pendingCount ∧
      used ≤ budget ∧ ((scanUpTo budget heap).worklist = [] ∨ used = budget) := by
  induction budget generalizing heap with
  | zero => exact ⟨0, rfl, rfl, Nat.le_refl 0, .inr rfl⟩
  | succ budget ih =>
      rw [scanUpTo]
      rcases hnext : heap.worklist.dropWhile fun cell => !heap.isPending cell with _ | ⟨cell, rest⟩
      · exact ⟨0, rfl, rfl, Nat.zero_le _, .inl rfl⟩
      · have hpending := isPending_next hnext
        have hmarked : ({ heap with worklist := rest }.scan cell).markedThisCycle
            = heap.markedThisCycle + 1 := (scan_scans (by exact hpending)).count
        have hcount : (({ heap with worklist := rest } : Heap α).scan cell).pendingCount + 1
            = heap.pendingCount := pendingCount_scan (by exact hpending)
        obtain ⟨used, hmarkedRest, hcountRest, hle, hspent⟩ :=
          ih ({ heap with worklist := rest }.scan cell)
        refine ⟨used + 1, ?_, ?_, Nat.succ_le_succ hle, hspent.imp_right (congrArg (· + 1))⟩ <;>
          dsimp only <;> omega

/-- A step that leaves work behind has turned as many cells black as its budget allows. A step that
is done has turned at most that many black, and nothing waits after it. -/
theorem markStep_blackens (hphase : heap.phase = .marking) (budget : Nat) :
    ∃ cells : List Cell, cells.Nodup ∧
      (∀ cell, cell ∈ cells ↔
        heap.isPending cell = true ∧ (heap.markStep budget).2.color? cell = some .black) ∧
      ((heap.markStep budget).1 = false → cells.length = budget) ∧
      ((heap.markStep budget).1 = true → cells.length ≤ budget ∧
        (heap.markStep budget).2.worklist = [] ∧ (heap.markStep budget).2.buffer.pending = []) := by
  obtain ⟨cells, hscans⟩ := markStep_scans budget heap
  obtain ⟨used, hcount, _, hle, hspent⟩ := scanUpTo_spends budget heap.takeBuffer
  have hlength : cells.length = used := by
    have hsame := hscans.count
    rw [markStep_eq hphase, hcount] at hsame
    exact (Nat.add_left_cancel hsame).symm
  refine ⟨cells, hscans.nodup, fun cell => ?_, fun hmore => ?_, fun hdone => ?_⟩
  · rw [hscans.mem_iff]
    refine and_congr_right fun hpending => ⟨fun hscanned => ?_, fun hblack hstill => ?_⟩
    · refine color?_of_not_isPending ?_ hscanned
      rw [contains_congr (get?_markStep budget)]
      exact contains_of_isPending hpending
    · obtain ⟨color, hcolor, hne⟩ := isPending_iff.mp hstill
      exact hne (Option.some.inj (hcolor.symm.trans hblack))
  · rw [markStep_eq hphase] at hmore
    rw [hlength]
    refine hspent.resolve_left fun hempty => ?_
    rw [hempty] at hmore
    cases hmore
  · have hwaiting := markStep_done hphase hdone
    exact ⟨hlength ▸ hle, List.append_eq_nil_iff.mp hwaiting⟩

/-! ### What the mutator can do meanwhile -/

omit [Traceable α] in
theorem pendingCount_update (change : α → α) :
    (heap.update cell change).pendingCount = heap.pendingCount := by
  rcases hslot : heap.slot? cell with _ | slot
  · rw [update, updateSlot, hslot]
  · have hcount := pendingCount_updateSlot hslot fun slot =>
      { slot with content := slot.content.map change }
    simp only [Slot.isPending, Option.isSome_map] at hcount
    exact Nat.add_right_cancel hcount

theorem pendingCount_allocate (hphase : heap.phase = .marking) (content : α) :
    (heap.allocate content).2.pendingCount ≤ heap.pendingCount := by
  rw [pendingCount_eq, pendingCount_eq, allocate, if_pos hphase]
  rcases heap.free with _ | ⟨index, rest⟩
  · show (heap.slots ++ [_]).countP Slot.isPending ≤ _
    rw [List.countP_append]
    exact Nat.le_refl _
  · show (heap.slots.set index _).countP Slot.isPending ≤ _
    by_cases hbound : index < heap.slots.length
    · rw [List.countP_set hbound]
      exact Nat.sub_le _ _
    · refine Nat.le_of_eq ?_
      rw [List.set_eq_of_length_le (Nat.le_of_not_lt hbound)]

omit [Traceable α] in
theorem pendingCount_writeBarrier {owner target : Cell} :
    (heap.writeBarrier owner target).pendingCount = heap.pendingCount := by
  rw [writeBarrier_eq]
  split
  · rename_i hacts
    exact Nat.succ.inj (pendingCount_setColor hacts.2.2 .gray)
  · rfl

theorem pendingCount_markStep (budget : Nat) :
    (heap.markStep budget).2.pendingCount ≤ heap.pendingCount := by
  rcases hphase : heap.phase with _ | _
  · refine Nat.le_of_eq ?_
    rw [markStep_of_idle hphase]
  · obtain ⟨used, _, hcount, _⟩ := scanUpTo_spends budget heap.takeBuffer
    rw [markStep_eq hphase]
    exact Nat.le_of_add_right_le (Nat.le_of_eq hcount)

/-- One for a marking step of the given budget that leaves work behind. -/
def shortfall (budget : Nat) (heap : Heap α) : Step α → Nat
  | .markStep size => if size = budget ∧ (heap.markStep size).1 = false then 1 else 0
  | _ => 0

/-- How many marking steps of the given budget leave work behind in the course of a run. -/
def shortfalls (budget : Nat) (heap : Heap α) : List (Step α) → Nat
  | [] => 0
  | step :: rest => heap.shortfall budget step + (heap.apply step).shortfalls budget rest

theorem apply_phase (hphase : heap.phase = .marking) {step : Step α}
    (hgoes : ∀ roots, step ≠ .collect roots) : (heap.apply step).phase = .marking := by
  cases step with
  | allocate content => exact (allocate_phase heap content).trans hphase
  | mutate cell change => exact (update_phase change).trans hphase
  | writeBarrier owner target => exact writeBarrier_phase.trans hphase
  | startMarking roots => rw [apply, startMarking, hphase]; exact hphase
  | markStep budget => exact (markStep_phase budget).trans hphase
  | collect roots => exact absurd rfl (hgoes roots)

/-- Nothing that is done during a cycle adds a pending cell, and a step that leaves work behind pays
for it with its budget. -/
theorem pendingCount_apply (hphase : heap.phase = .marking) {step : Step α}
    (hgoes : ∀ roots, step ≠ .collect roots) (budget : Nat) :
    (heap.apply step).pendingCount + budget * heap.shortfall budget step ≤ heap.pendingCount := by
  cases step with
  | allocate content => exact pendingCount_allocate hphase content
  | mutate cell change => exact Nat.le_of_eq (pendingCount_update change)
  | writeBarrier owner target => exact Nat.le_of_eq pendingCount_writeBarrier
  | startMarking roots => rw [apply, startMarking, hphase]; exact Nat.le_refl _
  | markStep size =>
      rw [apply, shortfall]
      split
      · rename_i hshort
        obtain ⟨rfl, hmore⟩ := hshort
        exact Nat.le_of_eq (by rw [Nat.mul_one, markStep_progress hphase hmore])
      · exact pendingCount_markStep size
  | collect roots => exact absurd rfl (hgoes roots)

theorem pendingCount_run (hphase : heap.phase = .marking) {steps : List (Step α)}
    (hgoes : ∀ roots, .collect roots ∉ steps) (budget : Nat) :
    (heap.run steps).pendingCount + budget * heap.shortfalls budget steps
      ≤ heap.pendingCount := by
  induction steps generalizing heap with
  | nil => exact Nat.le_refl _
  | cons step rest ih =>
      have hstep : ∀ roots, step ≠ .collect roots :=
        fun roots hcollect => hgoes roots (hcollect ▸ List.mem_cons_self)
      have hfirst := pendingCount_apply hphase hstep budget
      have hrest := ih (apply_phase hphase hstep)
        fun roots hmem => hgoes roots (List.mem_cons_of_mem _ hmem)
      rw [shortfalls, Nat.mul_add]
      show ((heap.apply step).run rest).pendingCount + _ ≤ _
      omega

omit [Traceable α] in
theorem pendingCount_startMarking (hphase : heap.phase = .idle) (roots : List Cell) :
    (heap.startMarking roots).pendingCount = heap.occupied.length := by
  rw [startMarking_of_idle hphase]
  show (heap.whitened.shadeAll roots).pendingCount = _
  rw [pendingCount_shadeAll, pendingCount_eq, ← List.countP_true,
    heap.countP_occupied fun _ => true]
  show (heap.slots.map _).countP Slot.isPending = _
  rw [List.countP_map]
  congr 1
  funext ⟨_, _, content⟩
  cases content <;> rfl

/-! ### The loop that ends a cycle -/

/-- The loop that repeats the largest step until it is done gets from one heap to another. -/
inductive Drains : Heap α → Heap α → Prop where
  | done {heap : Heap α} (hdone : (heap.markStep word64Max).1 = true) :
      Drains heap (heap.markStep word64Max).2
  | more {heap after : Heap α} (hmore : (heap.markStep word64Max).1 = false)
      (hrest : Drains (heap.markStep word64Max).2 after) : Drains heap after

theorem pendingCount_of_more (hmore : (heap.markStep word64Max).1 = false) :
    (heap.markStep word64Max).2.pendingCount < heap.pendingCount := by
  rcases hphase : heap.phase with _ | _
  · rw [markStep_of_idle hphase] at hmore
    cases hmore
  · have hcount := markStep_progress hphase hmore
    rw [word64Max] at hcount ⊢
    omega

/-- Each round but the last lowers the number of pending cells, so that many rounds are enough. -/
theorem drains_markAll_go {rounds : Nat} (hrounds : heap.pendingCount ≤ rounds) :
    Drains heap (markAll.go rounds heap) := by
  induction rounds generalizing heap with
  | zero =>
      rw [markAll.go]
      rcases hanswer : (heap.markStep word64Max).1 with _ | _
      · have hfewer := pendingCount_of_more hanswer
        omega
      · exact .done hanswer
  | succ rounds ih =>
      rw [markAll_go_succ]
      rcases hanswer : (heap.markStep word64Max).1 with _ | _
      · have hfewer := pendingCount_of_more hanswer
        exact .more hanswer (ih (by omega))
      · exact .done hanswer

/-- Whatever the mutator does, marking gets on. A step uses its budget up or finishes, nothing that
is done during a cycle adds a pending cell, and so at most as many steps of one budget leave work
behind as the cells at the start of the cycle pay for. The loop that ends a cycle comes to its end
on every heap. -/
theorem marking_gets_on (heap : Heap α) :
    (heap.phase = .marking →
      (∀ budget, ∃ blackened : List Cell, blackened.Nodup ∧
        (∀ cell, cell ∈ blackened ↔
          heap.isPending cell = true ∧ (heap.markStep budget).2.color? cell = some .black) ∧
        ((heap.markStep budget).1 = false → blackened.length = budget) ∧
        ((heap.markStep budget).1 = true → blackened.length ≤ budget ∧
          (heap.markStep budget).2.worklist = [] ∧
          (heap.markStep budget).2.buffer.pending = [])) ∧
      ∀ step, (∀ roots, step ≠ .collect roots) →
        (heap.apply step).pendingCount ≤ heap.pendingCount ∧
          (heap.apply step).phase = .marking) ∧
    (heap.phase = .idle → ∀ (roots : List Cell) (steps : List (Step α)) (budget : Nat),
      (∀ others, .collect others ∉ steps) → 1 ≤ budget →
        (heap.startMarking roots).shortfalls budget steps ≤ heap.occupied.length / budget) ∧
    Drains heap heap.markAll := by
  refine ⟨fun hphase => ⟨markStep_blackens hphase, fun step hgoes => ?_⟩,
    fun hphase roots steps budget hgoes hbudget => ?_, drains_markAll_go (Nat.le_refl _)⟩
  · have hcount := pendingCount_apply hphase hgoes 0
    rw [Nat.zero_mul] at hcount
    exact ⟨hcount, apply_phase hphase hgoes⟩
  · have hmarking : (heap.startMarking roots).phase = .marking := by
      rw [startMarking_of_idle hphase]
    have hcount := pendingCount_run hmarking hgoes budget
    rw [pendingCount_startMarking hphase] at hcount
    rw [Nat.le_div_iff_mul_le hbudget, Nat.mul_comm]
    exact Nat.le_of_add_left_le hcount

/-- Five cells, each of which refers to the next. -/
def chainOfCells : List (Step Node) :=
  [.allocate ⟨0, [⟨1, 0⟩]⟩, .allocate ⟨1, [⟨2, 0⟩]⟩, .allocate ⟨2, [⟨3, 0⟩]⟩,
    .allocate ⟨3, [⟨4, 0⟩]⟩, .allocate ⟨4, []⟩]

/-- While the chain is marked, a cell is born and the first cell receives the last. -/
def busyCycle : List (Step Node) :=
  [.markStep 2, .allocate ⟨5, [⟨1, 0⟩]⟩,
    .mutate ⟨0, 0⟩ fun node => { node with children := [⟨1, 0⟩, ⟨4, 0⟩] },
    .writeBarrier ⟨0, 0⟩ ⟨4, 0⟩, .markStep 2, .markStep 2]

theorem marking_gets_on_in_busyCycle :
    let heap := ({} : Heap Node).run chainOfCells
    let marking := heap.startMarking [⟨0, 0⟩]
    heap.phase = .idle ∧ (∀ others, .collect others ∉ busyCycle) ∧
      marking.shortfalls 2 busyCycle = 2 ∧
      marking.shortfalls 2 busyCycle ≤ heap.occupied.length / 2 ∧ heap.occupied.length / 2 = 2 ∧
      marking.phase = .marking ∧ (marking.markStep 2).1 = false ∧
      (∃ blackened : List Cell, blackened.length = 2 ∧ ∀ cell, cell ∈ blackened ↔
        marking.isPending cell = true ∧ (marking.markStep 2).2.color? cell = some .black) ∧
      (marking.allocate ⟨5, [⟨1, 0⟩]⟩).2.pendingCount ≤ marking.pendingCount ∧
      Drains marking marking.markAll := by
  intro heap marking
  have hphase : heap.phase = .idle := by decide
  have hgoes : ∀ others, .collect others ∉ busyCycle := by
    intro others
    simp [busyCycle]
  have hmarking : marking.phase = .marking := by decide
  have hmore : (marking.markStep 2).1 = false := by decide +kernel
  obtain ⟨_, hruns, _⟩ := marking_gets_on heap
  obtain ⟨hsteps, _, hdrains⟩ := marking_gets_on marking
  obtain ⟨blackened, _, hmem, hspent, _⟩ := (hsteps hmarking).1 2
  exact ⟨hphase, hgoes, by decide +kernel, hruns hphase _ _ 2 hgoes (by decide), by decide,
    hmarking, hmore, ⟨blackened, hspent hmore, hmem⟩,
    ((hsteps hmarking).2 (.allocate ⟨5, [⟨1, 0⟩]⟩) (by simp)).1, hdrains⟩

end InlineCache.Heap
