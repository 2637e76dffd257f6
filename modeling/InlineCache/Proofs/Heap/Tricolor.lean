import InlineCache.Proofs.Heap.Progress

/-!
# The colours between two marking steps

While marking, a black cell refers to no white cell, unless it was made black: such a cell is not
scanned, and nobody has told the marker what it refers to. These cells are listed apart. Whatever
else happens to the heap keeps to the rule, and the listed cells are all that a collection depends
on: it keeps everything that is alive exactly if what they refer to is found in another way.
-/

namespace InlineCache.Heap

variable {α : Type} [Traceable α] {heap after : Heap α} {born : List Cell}

structure Tricolor (heap : Heap α) (born : List Cell) : Prop where
  idle : heap.phase = .idle → ∀ cell, heap.isMarked cell = false
  queued : heap.phase = .marking → heap.Queued
  /-- Only a listed cell hides a white cell from the marker. -/
  hidden : ∀ {source target}, heap.Edge source target → ¬ heap.isPending source = true →
    ¬ heap.isMarked target = true → source ∈ born

theorem Edge.contains {source target : Cell} (h : heap.Edge source target) :
    heap.contains source = true := by
  obtain ⟨content, hcontent, _⟩ := h
  exact contains_iff.mpr ⟨content, hcontent⟩

namespace Tricolor

theorem of_idle (hphase : heap.phase = .idle) (hidle : ∀ cell, heap.isMarked cell = false) :
    heap.Tricolor born where
  idle _ := hidle
  queued hmarking := by rw [hphase] at hmarking; cases hmarking
  hidden := by
    intro source target hedge hblack
    have hmarked := isMarked_of_not_isPending hedge.contains hblack
    rw [hidle source] at hmarked
    cases hmarked

/-- The marker keeps to the rule. -/
theorem marks {roots : List Cell} (h : heap.Tricolor born) (hmarks : Marks roots heap after)
    (hphase : after.phase = .marking) : after.Tricolor born where
  idle hidle := by rw [hphase] at hidle; cases hidle
  queued _ := hmarks.queued
  hidden := by
    intro source target hedge hblack hwhite
    rw [Edge.congr hmarks.get?_eq] at hedge
    by_cases hpending : heap.isPending source = true
    · exact absurd (hmarks.scanned hpending hblack hedge) hwhite
    · exact h.hidden hedge hpending fun hmarked => hwhite (hmarks.marked hmarked)

/-- Changing what cells hold keeps to the rule, as long as no reference is added. -/
theorem congr (h : heap.Tricolor born)
    (hedge : ∀ {source target}, after.Edge source target → heap.Edge source target)
    (hcolor : ∀ cell, after.color? cell = heap.color? cell) (hphase : after.phase = heap.phase)
    (hwaiting : after.waiting = heap.waiting) : after.Tricolor born where
  idle hidle cell := (isMarked_congr (hcolor cell)).trans (h.idle (hphase ▸ hidle) cell)
  queued hmarking := (h.queued (hphase ▸ hmarking)).congr hcolor hwaiting
  hidden := by
    intro source target hafter hblack hwhite
    rw [isPending_congr (hcolor source)] at hblack
    rw [isMarked_congr (hcolor target)] at hwhite
    exact h.hidden (hedge hafter) hblack hwhite

theorem update (h : heap.Tricolor born) (cell : Cell) {change : α → α}
    (hchange : ∀ content, Traceable.children (change content) = Traceable.children content) :
    (heap.update cell change).Tricolor born := by
  have hcolor : ∀ other, (heap.update cell change).color? other = heap.color? other :=
    fun _ => color?_update change
  obtain ⟨slots, hslots⟩ := update_eq heap cell change
  refine h.congr ?_ hcolor (by rw [hslots]) (by rw [hslots]; rfl)
  rintro source target ⟨content, hcontent, hmem, hlive⟩
  rw [contains_iff_color?, hcolor, ← contains_iff_color?] at hlive
  rw [get?_update] at hcontent
  split at hcontent
  · rename_i heq
    obtain ⟨old, hold, rfl⟩ := Option.map_eq_some_iff.mp hcontent
    exact ⟨old, heq ▸ hold, hchange old ▸ hmem, hlive⟩
  · exact ⟨content, hcontent, hmem, hlive⟩

/-- The barrier shades a cell, which then waits. -/
theorem writeBarrier (h : heap.Tricolor born) (owner target : Cell) :
    (heap.writeBarrier owner target).Tricolor born := by
  rw [writeBarrier_eq]
  split
  · rename_i hshades
    obtain ⟨hphase, _, hwhite⟩ := hshades
    have hqueued := h.queued hphase
    obtain ⟨shaded, hshaded⟩ : ∃ shaded, shaded = ({ heap.setColor target .gray with
        buffer := heap.buffer.push target
        barrierGrays := tick64 heap.barrierGrays } : Heap α) := ⟨_, rfl⟩
    have hget : ∀ cell, shaded.get? cell = heap.get? cell := fun cell => by
      rw [hshaded]; exact get?_setColor .gray
    have hcolor : ∀ cell, shaded.color? cell = (heap.shade target).color? cell := fun cell => by
      rw [hshaded, shade_eq, if_pos hwhite]; rfl
    have hmarked : ∀ cell, shaded.isMarked cell = true ↔
        heap.isMarked cell = true ∨ cell = target ∧ heap.contains target = true := fun cell => by
      rw [isMarked_congr (hcolor cell), isMarked_shade]
    have hpending : ∀ cell, shaded.isPending cell = heap.isPending cell := fun cell => by
      rw [isPending_congr (hcolor cell), isPending_shade]
    have hwaiting : ∀ cell, cell ∈ shaded.waiting ↔ cell ∈ heap.waiting ∨ cell = target :=
      fun cell => by simp [hshaded, mem_waiting, BarrierBuffer.push, or_assoc]
    rw [← hshaded]
    refine ⟨?_, fun _ => ⟨?_, ?_⟩, ?_⟩
    · intro hidle
      rw [hshaded, setColor_phase, hphase] at hidle
      cases hidle
    · intro cell hwaits hlive
      rw [contains_congr (hget cell)] at hlive
      rw [hmarked]
      rcases (hwaiting cell).mp hwaits with hwaits | rfl
      · exact .inl (hqueued.marked hwaits hlive)
      · exact .inr ⟨rfl, hlive⟩
    · intro cell hcell hgray
      rw [hpending] at hgray
      rw [hwaiting]
      rcases (hmarked cell).mp hcell with hcell | ⟨rfl, _⟩
      · exact .inl (hqueued.gray hcell hgray)
      · exact .inr rfl
    · intro source other hedge hblack hother
      rw [hpending] at hblack
      rw [hmarked, not_or] at hother
      exact h.hidden ((Edge.congr hget).mp hedge) hblack hother.1
  · exact h

/-- A new cell keeps to the rule if it refers to nothing, and is listed otherwise. -/
theorem allocate (h : heap.Tricolor born) {content : α} {listed : List Cell}
    (hlisted : ∀ cell ∈ born, cell ∈ listed)
    (hnew : Traceable.children content = [] ∨ (heap.allocate content).1 ∈ listed) :
    (heap.allocate content).2.Tricolor listed := by
  obtain ⟨slots, free, live, allocated, hfields⟩ := allocate_eq heap content
  rcases hphase : heap.phase with _ | _
  · refine of_idle (by rw [hfields]; exact hphase) fun cell => ?_
    rw [Bool.eq_false_iff, ne_eq, isMarked_iff]
    rcases get?_allocate heap content cell with ⟨_, hcolor⟩ | ⟨_, _, hcolor⟩
    · rw [hcolor, ← isMarked_iff, h.idle hphase]
      simp
    · rw [hcolor, hphase]
      simp
  · have hqueued := h.queued hphase
    have hblackened : ∀ cell, (heap.allocate content).2.color? cell
          = some (if heap.phase = .marking then .black else .white) →
        (heap.allocate content).2.isMarked cell = true ∧
          ¬ (heap.allocate content).2.isPending cell = true := by
      intro cell hcolor
      rw [isMarked_iff, isPending_iff, hcolor, hphase]
      simp
    have hwaiting : (heap.allocate content).2.waiting = heap.waiting := by rw [hfields]; rfl
    refine ⟨fun hidle => ?_, fun _ => ⟨?_, ?_⟩, ?_⟩
    · rw [hfields] at hidle
      exact absurd (hphase.symm.trans hidle) (by simp)
    · intro cell hwaits hlive
      rw [hwaiting] at hwaits
      rcases get?_allocate heap content cell with ⟨hget, hcolor⟩ | ⟨_, _, hcolor⟩
      · rw [contains_congr hget] at hlive
        rw [isMarked_congr hcolor]
        exact hqueued.marked hwaits hlive
      · exact (hblackened cell hcolor).1
    · intro cell hmarked hpending
      rcases get?_allocate heap content cell with ⟨hget, hcolor⟩ | ⟨_, _, hcolor⟩
      · rw [isMarked_congr hcolor] at hmarked
        rw [isPending_congr hcolor] at hpending
        rw [hwaiting]
        exact hqueued.gray hmarked hpending
      · exact absurd hpending (hblackened cell hcolor).2
    · rintro source target ⟨held, hheld, hmem, hlive⟩ hblack hwhite
      rcases get?_allocate heap content target with ⟨htarget, htcolor⟩ | ⟨_, _, htcolor⟩
      · rcases get?_allocate heap content source with ⟨hsource, hscolor⟩ | ⟨hsource, hcontent, _⟩
        · rw [isPending_congr hscolor] at hblack
          rw [isMarked_congr htcolor] at hwhite
          rw [hsource] at hheld
          rw [contains_congr htarget] at hlive
          exact hlisted source (h.hidden ⟨held, hheld, hmem, hlive⟩ hblack hwhite)
        · rw [hsource]
          refine hnew.resolve_left fun hempty => ?_
          obtain rfl := Option.some.inj (hheld.symm.trans hcontent)
          rw [hempty] at hmem
          cases hmem
      · exact absurd (hblackened target htcolor).1 hwhite

theorem markStep (h : heap.Tricolor born) (budget : Nat) :
    (heap.markStep budget).2.Tricolor born := by
  rcases hphase : heap.phase with _ | _
  · rw [Heap.markStep, hphase]
    exact h
  · have hmarks : Marks [] heap _ := markStep_marks budget (h.queued hphase)
    exact h.marks hmarks (by rw [markStep_phase, hphase])

/-- Before a cycle all cells are white. -/
theorem color?_whiten_of_idle (h : heap.Tricolor born) (hphase : heap.phase = .idle)
    (cell : Cell) : heap.whiten.color? cell = heap.color? cell := by
  rw [color?_whiten]
  rcases hcolor : heap.color? cell with _ | color
  · rfl
  · have hlive := contains_iff_color?.mpr ⟨color, hcolor⟩
    rw [← hcolor, color?_of_not_isMarked hlive (Bool.eq_false_iff.mp (h.idle hphase cell))]
    rfl

theorem startMarking_marks (h : heap.Tricolor born) (hphase : heap.phase = .idle)
    (roots : List Cell) : Marks roots heap (heap.startMarking roots) := by
  have hwhite : Marks roots heap heap.whitened :=
    .of_view (fun _ => get?_whitened) (h.color?_whiten_of_idle hphase) queued_whitened
  exact hwhite.trans (Heap.startMarking_marks hphase roots)

theorem startMarking (h : heap.Tricolor born) (roots : List Cell) :
    (heap.startMarking roots).Tricolor born := by
  rcases hphase : heap.phase with _ | _
  · refine h.marks (h.startMarking_marks hphase roots) ?_
    rw [Heap.startMarking, hphase]
  · rw [Heap.startMarking, hphase]
    exact h

theorem reclaim (heap : Heap α) : heap.reclaim.2.Tricolor born :=
  of_idle rfl fun _ => isMarked_sweep

theorem mono (h : heap.Tricolor born) {listed : List Cell}
    (hlisted : ∀ cell ∈ born, cell ∈ listed) : heap.Tricolor listed :=
  ⟨h.idle, h.queued, fun hedge hblack hwhite => hlisted _ (h.hidden hedge hblack hwhite)⟩

/-- What a live cell refers to is alive. The marker finds all of it exactly if it finds what the
listed cells refer to. -/
theorem reaches_found_iff {roots : List Cell} (h : heap.Tricolor born) :
    (∀ cell, heap.Reaches roots cell → heap.Found roots cell) ↔
      ∀ source ∈ born, heap.Reaches roots source → ∀ target, heap.Edge source target →
        heap.Found roots target := by
  constructor
  · intro hfound source _ hsource target hedge
    exact hfound target (.edge hsource hedge)
  · intro hborn cell hreaches
    induction hreaches with
    | root hmem hlive => exact .root hmem hlive
    | @edge source target hsource hedge ih =>
        by_cases hpending : heap.isPending source = true
        · exact .edge ih hpending hedge
        · by_cases hmarked : heap.isMarked target = true
          · exact .marked hmarked
          · exact hborn source (h.hidden hedge hpending hmarked) hsource target hedge

end Tricolor

end InlineCache.Heap
