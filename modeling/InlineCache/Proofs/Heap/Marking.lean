import InlineCache.Proofs.Heap.Color

/-!
# What the marker finds

The marker works on a heap in which some cells are marked already. From there it finds the roots and
whatever can be reached through cells that it has not scanned yet: cells that are black when it
starts are never scanned again. When nothing waits any more the marked cells are exactly those, and
marking always gets that far.
-/

namespace InlineCache.Heap

variable {α : Type} {heap : Heap α} {cell other : Cell} {cells rest : List Cell}

/-! ### Shading a list of cells -/

theorem color?_shadeAll : (heap.shadeAll cells).color? other
    = if other ∈ cells then (heap.color? other).map Color.shaded else heap.color? other := by
  induction cells generalizing heap with
  | nil => rfl
  | cons cell rest ih =>
      rw [shadeAll, List.foldl_cons, ← shadeAll, ih, color?_shade]
      by_cases hcell : other = cell
      · subst hcell
        rcases heap.color? other with _ | (_ | _ | _) <;> simp [Color.shaded]
      · simp [hcell]

@[simp] theorem get?_shadeAll : (heap.shadeAll cells).get? other = heap.get? other := by
  induction cells generalizing heap with
  | nil => rfl
  | cons cell rest ih => rw [shadeAll, List.foldl_cons, ← shadeAll, ih, get?_shade]

@[simp] theorem shadeAll_phase : (heap.shadeAll cells).phase = heap.phase := by
  induction cells generalizing heap with
  | nil => rfl
  | cons cell rest ih => rw [shadeAll, List.foldl_cons, ← shadeAll, ih, shade_phase]

@[simp] theorem shadeAll_buffer : (heap.shadeAll cells).buffer = heap.buffer := by
  induction cells generalizing heap with
  | nil => rfl
  | cons cell rest ih => rw [shadeAll, List.foldl_cons, ← shadeAll, ih, shade_buffer]

theorem color?_shade_eq_white : (heap.shade cell).color? other = some .white ↔
    other ≠ cell ∧ heap.color? other = some .white := by
  rw [color?_shade]
  by_cases hcell : other = cell
  · rcases heap.color? cell with _ | color <;> simp [hcell]
  · simp [hcell]

@[simp] theorem get?_startMarking {roots : List Cell} :
    (heap.startMarking roots).get? cell = heap.get? cell := by
  rw [startMarking]
  split
  · rfl
  · exact get?_shadeAll.trans get?_whiten

/-- Exactly the white cells of the list join the worklist. -/
theorem shadeAll_worklist (heap : Heap α) (cells : List Cell) :
    ∃ fresh, (heap.shadeAll cells).worklist = heap.worklist ++ fresh ∧
      ∀ other, other ∈ fresh ↔ other ∈ cells ∧ heap.color? other = some .white := by
  induction cells generalizing heap with
  | nil => exact ⟨[], by simp [shadeAll], by simp⟩
  | cons cell rest ih =>
      obtain ⟨fresh, hworklist, hfresh⟩ := ih (heap.shade cell)
      simp only [color?_shade_eq_white] at hfresh
      rw [shadeAll, List.foldl_cons, ← shadeAll, hworklist, shade_worklist]
      by_cases hwhite : heap.color? cell = some .white
      · refine ⟨cell :: fresh, by simp [hwhite], fun other => ?_⟩
        rw [List.mem_cons, List.mem_cons, hfresh]
        by_cases hcell : other = cell <;> simp [hcell, hwhite]
      · refine ⟨fresh, by simp [hwhite], fun other => ?_⟩
        rw [List.mem_cons, hfresh]
        by_cases hcell : other = cell <;> simp [hcell, hwhite]

theorem isPending_shadeAll : (heap.shadeAll cells).isPending other = heap.isPending other := by
  rw [Bool.eq_iff_iff, isPending_iff, isPending_iff, color?_shadeAll]
  split
  · rcases heap.color? other with _ | color <;> simp
  · rfl

theorem isMarked_shadeAll : (heap.shadeAll cells).isMarked other = true ↔
    heap.isMarked other = true ∨ other ∈ cells ∧ heap.contains other = true := by
  rw [isMarked_iff, isMarked_iff, contains_iff_color?, color?_shadeAll]
  split
  · rename_i hmem
    rcases heap.color? other with _ | color <;> simp [hmem]
  · rename_i hmem
    simp [hmem]

/-! ### The gray cells -/

/-- The cells that wait to be scanned. -/
def waiting (heap : Heap α) : List Cell := heap.worklist ++ heap.buffer.pending

theorem takeBuffer_waiting : heap.takeBuffer.waiting = heap.waiting :=
  List.append_nil _

/-- The gray cells are those that wait. -/
structure Queued (heap : Heap α) : Prop where
  marked : ∀ {cell}, cell ∈ heap.waiting → heap.contains cell = true → heap.isMarked cell = true
  gray : ∀ {cell}, heap.isMarked cell = true → heap.isPending cell = true → cell ∈ heap.waiting

theorem mem_waiting : cell ∈ heap.waiting ↔ cell ∈ heap.worklist ∨ cell ∈ heap.buffer.pending := by
  rw [waiting, List.mem_append]

theorem Queued.congr {after : Heap α} (h : heap.Queued)
    (hcolor : ∀ cell, after.color? cell = heap.color? cell)
    (hwaiting : after.waiting = heap.waiting) : after.Queued := by
  constructor
  · intro cell hwaits hlive
    rw [hwaiting] at hwaits
    rw [contains_iff_color?, hcolor, ← contains_iff_color?] at hlive
    rw [isMarked_congr (hcolor cell)]
    exact h.marked hwaits hlive
  · intro cell hmarked hpending
    rw [isMarked_congr (hcolor cell)] at hmarked
    rw [isPending_congr (hcolor cell)] at hpending
    rw [hwaiting]
    exact h.gray hmarked hpending

theorem Queued.shadeAll (h : heap.Queued) : (heap.shadeAll cells).Queued := by
  obtain ⟨fresh, hworklist, hfresh⟩ := shadeAll_worklist heap cells
  constructor
  · intro cell hwaits hlive
    rw [isMarked_shadeAll]
    rw [contains_congr get?_shadeAll] at hlive
    rw [mem_waiting, hworklist, shadeAll_buffer, List.mem_append, or_right_comm] at hwaits
    rcases hwaits with hwaits | hmem
    · exact .inl (h.marked (mem_waiting.mpr hwaits) hlive)
    · exact .inr ⟨((hfresh cell).mp hmem).1, hlive⟩
  · intro cell hmarked hpending
    rw [isPending_shadeAll] at hpending
    rw [mem_waiting, hworklist, shadeAll_buffer, List.mem_append, or_right_comm]
    by_cases hbefore : heap.isMarked cell = true
    · exact .inl (mem_waiting.mp (h.gray hbefore hpending))
    · right
      rcases isMarked_shadeAll.mp hmarked with hmarked | ⟨hmem, hlive⟩
      · exact absurd hmarked hbefore
      · exact (hfresh cell).mpr ⟨hmem, color?_of_not_isMarked hlive hbefore⟩

/-- The entry of the worklist that is scanned next is pending. -/
theorem isPending_next
    (hnext : (heap.worklist.dropWhile fun cell => !heap.isPending cell) = cell :: rest) :
    heap.isPending cell = true := by
  have hhead := List.head?_dropWhile_not (fun cell => !heap.isPending cell) heap.worklist
  rw [hnext] at hhead
  simpa using hhead

/-- No pending entry of the worklist is dropped. -/
theorem mem_next (hnext : (heap.worklist.dropWhile fun cell => !heap.isPending cell) = cells)
    (hmem : other ∈ heap.worklist) (hpending : heap.isPending other = true) : other ∈ cells := by
  have hsplit : heap.worklist.takeWhile (fun cell => !heap.isPending cell) ++ cells
      = heap.worklist := by
    rw [← hnext, List.takeWhile_append_dropWhile]
  rw [← hsplit, List.mem_append] at hmem
  refine hmem.resolve_left fun hdropped => ?_
  simpa [hpending] using List.all_eq_true.mp List.all_takeWhile other hdropped

/-! ### The start of a cycle -/

/-- The heap before the roots are shaded: all cells are white, and none waits. -/
def whitened (heap : Heap α) : Heap α :=
  { heap.whiten with worklist := [], buffer := {}, markedThisCycle := 0 }

theorem get?_whitened : heap.whitened.get? cell = heap.get? cell :=
  get?_whiten

theorem color?_whitened : heap.whitened.color? cell = (heap.color? cell).map fun _ => .white :=
  color?_whiten

theorem isMarked_whitened : heap.whitened.isMarked cell = false := by
  rw [Bool.eq_false_iff, ne_eq, isMarked_iff, color?_whitened]
  rcases heap.color? cell with _ | color <;> simp

theorem isPending_whitened : heap.whitened.isPending cell = heap.contains cell := by
  rw [Bool.eq_iff_iff, isPending_iff, contains_iff_color?, color?_whitened]
  rcases heap.color? cell with _ | color <;> simp

theorem queued_whitened : heap.whitened.Queued where
  marked hwaits := nomatch hwaits
  gray hmarked := by
    rw [isMarked_whitened] at hmarked
    cases hmarked

theorem startMarking_of_idle (hphase : heap.phase = .idle) (roots : List Cell) :
    heap.startMarking roots = { heap.whitened.shadeAll roots with phase := .marking } := by
  rw [startMarking, hphase]
  rfl

/-! ### References -/

section

variable [Traceable α] {roots : List Cell} {source target : Cell}

/-- A cell refers to a live cell. -/
def Edge (heap : Heap α) (source target : Cell) : Prop :=
  ∃ content, heap.get? source = some content ∧ target ∈ Traceable.children content ∧
    heap.contains target = true

/-- The cells that a cell refers to, live or not. -/
def referents (heap : Heap α) (cell : Cell) : List Cell :=
  (heap.get? cell).elim [] Traceable.children

theorem edge_iff : heap.Edge source target ↔
    target ∈ heap.referents source ∧ heap.contains target = true := by
  rw [Edge, referents]
  rcases heap.get? source with _ | content <;> simp

/-- What is alive: the roots, and what live cells refer to. -/
inductive Reaches (heap : Heap α) (roots : List Cell) : Cell → Prop where
  | root {cell : Cell} (hmem : cell ∈ roots) (hlive : heap.contains cell = true) :
      Reaches heap roots cell
  | edge {source target : Cell} (hsource : Reaches heap roots source)
      (hedge : heap.Edge source target) : Reaches heap roots target

/-- What the marker finds from here on. It does not look into cells that are black already. -/
inductive Found (heap : Heap α) (roots : List Cell) : Cell → Prop where
  | marked {cell : Cell} (hmarked : heap.isMarked cell = true) : Found heap roots cell
  | root {cell : Cell} (hmem : cell ∈ roots) (hlive : heap.contains cell = true) :
      Found heap roots cell
  | edge {source target : Cell} (hsource : Found heap roots source)
      (hpending : heap.isPending source = true) (hedge : heap.Edge source target) :
      Found heap roots target

theorem Edge.congr {after : Heap α} (h : ∀ cell, after.get? cell = heap.get? cell) :
    after.Edge source target ↔ heap.Edge source target := by
  rw [Edge, Edge, h, contains_congr (h target)]

/-- The marker gets from one heap to another. -/
structure Marks (roots : List Cell) (before after : Heap α) : Prop where
  get?_eq : ∀ cell, after.get? cell = before.get? cell
  marked : ∀ {cell}, before.isMarked cell = true → after.isMarked cell = true
  pending : ∀ {cell}, after.isPending cell = true → before.isPending cell = true
  /-- Whatever is marked can be found. -/
  found : ∀ {cell}, after.isMarked cell = true → before.Found roots cell
  /-- What a scanned cell refers to is marked. -/
  scanned : ∀ {source target}, before.isPending source = true → ¬ after.isPending source = true →
    before.Edge source target → after.isMarked target = true
  queued : after.Queued

namespace Marks

variable {before middle after : Heap α}

theorem refl (h : heap.Queued) : Marks roots heap heap where
  get?_eq _ := rfl
  marked h := h
  pending h := h
  found h := .marked h
  scanned h hnot := absurd h hnot
  queued := h

/-- Moving the entries that wait changes no cell. -/
theorem of_view (hget : ∀ cell, after.get? cell = before.get? cell)
    (hcolor : ∀ cell, after.color? cell = before.color? cell) (hqueued : after.Queued) :
    Marks roots before after where
  get?_eq := hget
  marked h := (isMarked_congr (hcolor _)).trans h
  pending h := (isPending_congr (hcolor _)).symm.trans h
  found h := .marked ((isMarked_congr (hcolor _)).symm.trans h)
  scanned h hnot := absurd ((isPending_congr (hcolor _)).trans h) hnot
  queued := hqueued

theorem found_of_found (h : Marks roots before after) (hfound : after.Found roots cell) :
    before.Found roots cell := by
  induction hfound with
  | marked hmarked => exact h.found hmarked
  | root hmem hlive => exact .root hmem (contains_congr (h.get?_eq _) ▸ hlive)
  | edge _ hpending hedge ih =>
      exact .edge ih (h.pending hpending) ((Edge.congr h.get?_eq).mp hedge)

theorem trans (hleft : Marks roots before middle) (hright : Marks roots middle after) :
    Marks roots before after where
  get?_eq cell := (hright.get?_eq cell).trans (hleft.get?_eq cell)
  marked h := hright.marked (hleft.marked h)
  pending h := hleft.pending (hright.pending h)
  found h := hleft.found_of_found (hright.found h)
  scanned := by
    intro source target hbefore hafter hedge
    by_cases hmiddle : middle.isPending source = true
    · exact hright.scanned hmiddle hafter ((Edge.congr hleft.get?_eq).mpr hedge)
    · exact hright.marked (hleft.scanned hbefore hmiddle hedge)
  queued := hright.queued

/-- When nothing waits any more and the roots are marked, exactly what could be found is marked. -/
theorem isMarked_iff_found (h : Marks roots before after) (hdone : after.waiting = [])
    (hroots : ∀ cell ∈ roots, before.contains cell = true → after.isMarked cell = true) :
    after.isMarked cell = true ↔ before.Found roots cell := by
  refine ⟨h.found, fun hfound => ?_⟩
  induction hfound with
  | marked hmarked => exact h.marked hmarked
  | root hmem hlive => exact hroots _ hmem hlive
  | edge _ hpending hedge ih =>
      refine h.scanned hpending (fun hstill => ?_) hedge
      have hwaits := h.queued.gray ih hstill
      rw [hdone] at hwaits
      cases hwaits

end Marks

/-! ### Steps of the marker -/

theorem shadeAll_marks (h : heap.Queued)
    (hfound : ∀ cell ∈ cells, heap.contains cell = true → heap.Found roots cell) :
    Marks roots heap (heap.shadeAll cells) where
  get?_eq _ := get?_shadeAll
  marked hmarked := isMarked_shadeAll.mpr (.inl hmarked)
  pending hpending := isPending_shadeAll ▸ hpending
  found := by
    intro cell hmarked
    rcases isMarked_shadeAll.mp hmarked with hmarked | ⟨hmem, hlive⟩
    · exact .marked hmarked
    · exact hfound cell hmem hlive
  scanned hpending hnot := absurd (isPending_shadeAll.trans hpending) hnot
  queued := h.shadeAll

@[simp] theorem scan_phase : (heap.scan cell).phase = heap.phase := by
  show ((heap.shadeAll _).setColor cell .black).phase = heap.phase
  rw [setColor_phase, shadeAll_phase]

@[simp] theorem scan_buffer : (heap.scan cell).buffer = heap.buffer := by
  show ((heap.shadeAll _).setColor cell .black).buffer = heap.buffer
  rw [setColor_buffer, shadeAll_buffer]

@[simp] theorem get?_scan : (heap.scan cell).get? other = heap.get? other := by
  show ((heap.shadeAll _).setColor cell .black).get? other = heap.get? other
  rw [get?_setColor, get?_shadeAll]

theorem color?_scan : (heap.scan cell).color? other =
    if other = cell then (heap.color? cell).map fun _ => .black
    else (heap.shadeAll (heap.referents cell)).color? other := by
  show ((heap.shadeAll (heap.referents cell)).setColor cell .black).color? other = _
  rw [color?_setColor]
  split
  · rw [color?_shadeAll]
    rcases heap.color? cell with _ | color <;> split <;> rfl
  · rfl

theorem isPending_scan : (heap.scan cell).isPending other = true ↔
    other ≠ cell ∧ heap.isPending other = true := by
  by_cases hcell : other = cell
  · rw [isPending_iff, color?_scan, if_pos hcell]
    rcases heap.color? cell with _ | color <;> simp [hcell]
  · have hcolor : (heap.scan cell).color? other
        = (heap.shadeAll (heap.referents cell)).color? other := by rw [color?_scan, if_neg hcell]
    rw [isPending_congr hcolor, isPending_shadeAll]
    simp [hcell]

/-- Scanning a marked cell marks what it refers to. -/
theorem isMarked_scan (hmarked : heap.isMarked cell = true) :
    (heap.scan cell).isMarked other = true ↔
      heap.isMarked other = true ∨ heap.Edge cell other := by
  by_cases hcell : other = cell
  · have hlive := contains_of_isMarked hmarked
    obtain ⟨color, hcolor⟩ := contains_iff_color?.mp hlive
    rw [isMarked_iff, color?_scan, if_pos hcell, hcolor, hcell]
    simp [hmarked]
  · rw [isMarked_iff, color?_scan, if_neg hcell, ← isMarked_iff, isMarked_shadeAll, edge_iff]

/-- Exactly the white cells that a cell refers to wait after its scan. -/
theorem scan_worklist (heap : Heap α) (cell : Cell) :
    ∃ fresh, (heap.scan cell).worklist = heap.worklist ++ fresh ∧
      ∀ other, other ∈ fresh ↔ heap.Edge cell other ∧ heap.color? other = some .white := by
  obtain ⟨fresh, hworklist, hfresh⟩ := shadeAll_worklist heap (heap.referents cell)
  refine ⟨fresh, ?_, fun other => ?_⟩
  · show ((heap.shadeAll (heap.referents cell)).setColor cell .black).worklist = _
    rw [setColor_worklist, hworklist]
  · rw [hfresh, edge_iff]
    refine ⟨fun ⟨hmem, hwhite⟩ => ⟨⟨hmem, ?_⟩, hwhite⟩, fun ⟨hedge, hwhite⟩ => ⟨hedge.1, hwhite⟩⟩
    exact contains_iff_color?.mpr ⟨.white, hwhite⟩

/-- One turn of the marker: the entries at the front that need no scan are dropped, and the next one
is scanned. -/
theorem scan_marks (h : heap.Queued)
    (hnext : (heap.worklist.dropWhile fun cell => !heap.isPending cell) = cell :: rest) :
    Marks roots heap ({ heap with worklist := rest }.scan cell) := by
  have hpending := isPending_next hnext
  have hlisted : ∀ other ∈ cell :: rest, other ∈ heap.worklist := by
    intro other hmem
    rw [← hnext] at hmem
    exact (List.dropWhile_sublist _).subset hmem
  have hmarked : heap.isMarked cell = true :=
    h.marked (mem_waiting.mpr (.inl (hlisted cell (by simp)))) (contains_of_isPending hpending)
  -- taking the cell off the worklist changes neither contents nor colours
  obtain ⟨popped, hpopped⟩ : ∃ popped, popped = ({ heap with worklist := rest } : Heap α) :=
    ⟨_, rfl⟩
  have hget : ∀ cell, popped.get? cell = heap.get? cell := fun _ => by rw [hpopped]; rfl
  have hcolor : ∀ cell, popped.color? cell = heap.color? cell := fun _ => by rw [hpopped]; rfl
  have hscanned : ∀ other, (popped.scan cell).isMarked other = true ↔
      heap.isMarked other = true ∨ heap.Edge cell other := by
    intro other
    rw [isMarked_scan (isMarked_congr (hcolor cell) ▸ hmarked), isMarked_congr (hcolor other),
      Edge.congr hget]
  have hstill : ∀ other, (popped.scan cell).isPending other = true ↔
      other ≠ cell ∧ heap.isPending other = true := by
    intro other
    rw [isPending_scan, isPending_congr (hcolor other)]
  have hwaiting : ∀ other, other ∈ (popped.scan cell).waiting ↔
      (other ∈ rest ∨ other ∈ heap.buffer.pending) ∨
        heap.Edge cell other ∧ heap.color? other = some .white := by
    intro other
    obtain ⟨fresh, hworklist, hfresh⟩ := scan_worklist popped cell
    rw [mem_waiting, hworklist, scan_buffer, List.mem_append, or_right_comm, hfresh, hcolor,
      Edge.congr hget, hpopped]
  rw [← hpopped]
  refine ⟨fun other => get?_scan.trans (hget other), fun h => (hscanned _).mpr (.inl h),
    fun h => ((hstill _).mp h).2, ?_, ?_, ?_, ?_⟩
  · intro other hother
    rcases (hscanned other).mp hother with hother | hedge
    · exact .marked hother
    · exact .edge (.marked hmarked) hpending hedge
  · intro source target hbefore hafter hedge
    by_cases hsource : source = cell
    · exact (hscanned target).mpr (.inr (hsource ▸ hedge))
    · exact absurd ((hstill source).mpr ⟨hsource, hbefore⟩) hafter
  · intro other hwaits hlive
    rw [contains_congr (get?_scan.trans (hget other))] at hlive
    rcases (hwaiting other).mp hwaits with hwaits | ⟨hedge, _⟩
    · refine (hscanned other).mpr (.inl (h.marked (mem_waiting.mpr ?_) hlive))
      exact hwaits.imp_left fun hmem => hlisted other (List.mem_cons_of_mem _ hmem)
    · exact (hscanned other).mpr (.inr hedge)
  · intro other hother hgray
    obtain ⟨hne, hbefore⟩ := (hstill other).mp hgray
    rw [hwaiting]
    by_cases hold : heap.isMarked other = true
    · exact .inl ((mem_waiting.mp (h.gray hold hbefore)).imp_left fun hmem =>
        (List.mem_cons.mp (mem_next hnext hmem hbefore)).resolve_left hne)
    · refine .inr ⟨((hscanned other).mp hother).resolve_left hold, ?_⟩
      exact color?_of_not_isMarked (contains_of_isPending hbefore) hold

theorem scanUpTo_marks (budget : Nat) (h : heap.Queued) :
    Marks roots heap (scanUpTo budget heap) := by
  induction budget generalizing heap with
  | zero => exact .refl h
  | succ budget ih =>
      rw [scanUpTo]
      rcases hnext : heap.worklist.dropWhile fun cell => !heap.isPending cell with _ | ⟨cell, rest⟩
      · -- the entries that are dropped need no scan, so no gray cell is among them
        refine .of_view (fun _ => rfl) (fun _ => rfl) ⟨?_, ?_⟩
        · intro cell hwaits hlive
          exact h.marked (mem_waiting.mpr (.inr hwaits)) hlive
        · intro cell hmarked hpending
          refine (mem_waiting.mp (h.gray hmarked hpending)).resolve_left fun hmem => ?_
          cases mem_next hnext hmem hpending
      · have hturn : Marks roots heap _ := scan_marks h hnext
        exact hturn.trans (ih hturn.queued)

@[simp] theorem scanUpTo_phase (budget : Nat) : (scanUpTo budget heap).phase = heap.phase := by
  induction budget generalizing heap with
  | zero => rfl
  | succ budget ih =>
      rw [scanUpTo]
      split
      · rfl
      · rw [ih, scan_phase]

@[simp] theorem scanUpTo_buffer (budget : Nat) : (scanUpTo budget heap).buffer = heap.buffer := by
  induction budget generalizing heap with
  | zero => rfl
  | succ budget ih =>
      rw [scanUpTo]
      split
      · rfl
      · rw [ih, scan_buffer]

@[simp] theorem get?_scanUpTo (budget : Nat) :
    (scanUpTo budget heap).get? cell = heap.get? cell := by
  induction budget generalizing heap with
  | zero => rfl
  | succ budget ih =>
      rw [scanUpTo]
      split
      · rfl
      · rw [ih, get?_scan]
        rfl

theorem takeBuffer_marks (h : heap.Queued) : Marks roots heap heap.takeBuffer := by
  refine .of_view (fun _ => rfl) (fun _ => rfl) ⟨?_, ?_⟩
  · intro cell hwaits
    rw [takeBuffer_waiting] at hwaits
    exact h.marked hwaits
  · intro cell hmarked hpending
    rw [takeBuffer_waiting]
    exact h.gray hmarked hpending

theorem markStep_eq (hphase : heap.phase = .marking) (budget : Nat) :
    heap.markStep budget =
      ((scanUpTo budget heap.takeBuffer).worklist.isEmpty, scanUpTo budget heap.takeBuffer) := by
  rw [markStep, hphase]
  have hbuffer : (scanUpTo budget heap.takeBuffer).buffer.isEmpty = true := by
    rw [scanUpTo_buffer]
    rfl
  dsimp only
  rw [hbuffer, Bool.and_true]

@[simp] theorem markStep_phase (budget : Nat) : (heap.markStep budget).2.phase = heap.phase := by
  rcases hphase : heap.phase with _ | _
  · rw [markStep, hphase]
    exact hphase
  · rw [markStep_eq hphase, scanUpTo_phase]
    exact hphase

@[simp] theorem get?_markStep (budget : Nat) :
    (heap.markStep budget).2.get? cell = heap.get? cell := by
  rcases hphase : heap.phase with _ | _
  · rw [markStep, hphase]
  · rw [markStep_eq hphase, get?_scanUpTo]
    rfl

theorem markStep_marks (budget : Nat) (h : heap.Queued) :
    Marks roots heap (heap.markStep budget).2 := by
  rcases hphase : heap.phase with _ | _
  · rw [markStep, hphase]
    exact .refl h
  · rw [markStep_eq hphase]
    have htaken : Marks roots heap _ := takeBuffer_marks h
    exact htaken.trans (scanUpTo_marks budget htaken.queued)

/-- A step that says that it is done leaves nothing behind. -/
theorem markStep_done (hphase : heap.phase = .marking) {budget : Nat}
    (hdone : (heap.markStep budget).1 = true) : (heap.markStep budget).2.waiting = [] := by
  rw [markStep_eq hphase] at hdone ⊢
  rw [waiting, List.isEmpty_iff.mp hdone, scanUpTo_buffer]
  rfl

/-! ### What a cycle finds -/

theorem startMarking_marks (hphase : heap.phase = .idle) (roots : List Cell) :
    Marks roots heap.whitened (heap.startMarking roots) := by
  have hshaded : Marks roots heap.whitened (heap.whitened.shadeAll roots) :=
    shadeAll_marks queued_whitened fun _ hmem hlive => .root hmem hlive
  rw [startMarking_of_idle hphase]
  exact hshaded.trans (.of_view (fun _ => rfl) (fun _ => rfl)
    ⟨hshaded.queued.marked, hshaded.queued.gray⟩)

/-- From a heap in which nothing is marked, the marker finds what is alive. -/
theorem found_whitened : heap.whitened.Found roots cell ↔ heap.Reaches roots cell := by
  constructor
  · intro hfound
    induction hfound with
    | marked hmarked =>
        rw [isMarked_whitened] at hmarked
        cases hmarked
    | root hmem hlive => exact .root hmem ((contains_congr get?_whitened).symm.trans hlive)
    | edge _ _ hedge ih => exact .edge ih ((Edge.congr fun _ => get?_whitened).mp hedge)
  · intro hreaches
    induction hreaches with
    | root hmem hlive => exact .root hmem ((contains_congr get?_whitened).trans hlive)
    | edge _ hedge ih =>
        obtain ⟨content, hcontent, _⟩ := id hedge
        have hpending := isPending_whitened.trans (contains_iff.mpr ⟨content, hcontent⟩)
        exact .edge ih hpending ((Edge.congr fun _ => get?_whitened).mpr hedge)

end

end InlineCache.Heap
