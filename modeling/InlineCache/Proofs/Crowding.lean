import InlineCache.Proofs.Collecting
import InlineCache.Proofs.Execution
import InlineCache.Proofs.Heap.Exactness
import InlineCache.Proofs.WeakVisit

/-!
# Crowded heaps

The index of a handle has 32 bits, so in a heap with more slots the cells further up have the
handles of cells further down. A collection that takes such a cell lists the slot further down as
free, although the cell there may be alive, and the next allocation overwrites it. Links that name
the overwritten cell stay as they are, and go on sending calls of it to its code.

The main result says how to bring this about for any cell that is alive.
-/

namespace InlineCache

namespace Heap

variable {α : Type} {heap : Heap α}

theorem colorblind_settings : Colorblind (settings : Heap α → _) where
  setColor heap cell color := by
    rw [setColor, updateSlot]
    split <;> rfl
  notes _ _ _ _ _ _ := rfl

/-! ### Which slot is reused first -/

theorem getLast?_deadIndices {last : Nat} (hdead : last ∈ heap.deadIndices)
    (hlength : heap.slots.length = last + 1) : heap.deadIndices.getLast? = some last := by
  rcases List.eq_nil_or_concat' heap.deadIndices with hnil | ⟨others, final, hconcat⟩
  · rw [hnil] at hdead
    cases hdead
  · have hsorted := heap.sorted_deadIndices
    have hfinal : final ∈ heap.deadIndices := by simp [hconcat]
    obtain ⟨slot, hslot, _⟩ := mem_deadIndices.mp hfinal
    have hbound := (List.getElem?_eq_some_iff.mp hslot).1
    rw [hconcat] at hdead hsorted ⊢
    rcases List.mem_append.mp hdead with hother | hlast
    · have hbefore := (List.pairwise_append.mp hsorted).2.2 last hother final (by simp)
      omega
    · rw [List.getLast?_concat, List.mem_singleton.mp hlast]

/-- A sweep that empties the last slot frees the slot that the truncated index names. -/
theorem free_sweep {last : Nat} (hdead : last ∈ heap.deadIndices)
    (hlength : heap.slots.length = last + 1) :
    ∃ rest, heap.sweep.free = last % UInt32.size :: rest := by
  obtain ⟨others, hconcat⟩ := List.getLast?_eq_some_iff.mp (getLast?_deadIndices hdead hlength)
  rw [sweep, garbage_eq, hconcat]
  simp [handleAt]

section

variable [Traceable α] {cell : Cell} {content : α}

/-! ### Filling the heap -/

/-- A heap without free slots, after cells with one content have been allocated. -/
def fill (heap : Heap α) (content : α) (count : Nat) : Heap α :=
  { heap with
    slots := heap.slots ++ List.replicate count ⟨0, ⟨.white, Traceable.tag content⟩, some content⟩
    live := heap.live + count
    allocatedSinceCollection := heap.allocatedSinceCollection + count }

theorem fill_zero (heap : Heap α) (content : α) : heap.fill content 0 = heap := by
  simp [fill]

theorem allocate_fill (hidle : heap.phase = .idle) (hfree : heap.free = []) (content : α)
    (count : Nat) :
    ((heap.fill content count).allocate content).2 = heap.fill content (count + 1) := by
  simp [allocate, fill, hidle, hfree, List.replicate_succ', Nat.add_assoc]

theorem isOccupied_fill {index count : Nat} (hindex : heap.slots.length ≤ index)
    (hbound : index < heap.slots.length + count) :
    (heap.fill content count).isOccupied index = true := by
  rw [isOccupied, fill, List.getElem?_append_right hindex,
    List.getElem?_replicate_of_lt (by omega)]
  rfl

theorem get?_fill {found : α} (count : Nat) (h : heap.get? cell = some found) :
    (heap.fill content count).get? cell = some found := by
  obtain ⟨slot, hslot, hcontent⟩ := get?_eq_some_iff.mp h
  obtain ⟨hplace, hrest⟩ := slot?_eq_some_iff.mp hslot
  refine get?_eq_some_iff.mpr ⟨slot, slot?_eq_some_iff.mpr ⟨?_, hrest⟩, hcontent⟩
  rw [fill, List.getElem?_append_left (List.getElem?_eq_some_iff.mp hplace).1]
  exact hplace

theorem contains_fill (count : Nat) (h : heap.contains cell = true) :
    (heap.fill content count).contains cell = true := by
  obtain ⟨found, hfound⟩ := contains_iff.mp h
  exact contains_iff.mpr ⟨found, get?_fill count hfound⟩

theorem Reaches.fill {roots : List Cell} (count : Nat) (h : heap.Reaches roots cell) :
    (heap.fill content count).Reaches roots cell := by
  induction h with
  | root hmem hlive => exact .root hmem (contains_fill count hlive)
  | edge _ hedge ih =>
      obtain ⟨found, hfound, hchild, hlive⟩ := hedge
      exact .edge ih ⟨found, get?_fill count hfound, hchild, contains_fill count hlive⟩

theorem get?_allocate_of_free {rest : List Nat} (hfree : heap.free = cell.index.toNat :: rest)
    (hlive : heap.contains cell = true) (content : α) :
    (heap.allocate content).2.get? cell = some content := by
  obtain ⟨slot, hslot⟩ := Option.isSome_iff_exists.mp hlive
  obtain ⟨hplace, hgeneration, _⟩ := slot?_eq_some_iff.mp hslot
  rw [allocate, hfree]
  dsimp only
  rw [hplace, get?_eq_some_iff]
  have hbound := (List.getElem?_eq_some_iff.mp hplace).1
  exact ⟨_, slot?_eq_some_iff.mpr ⟨List.getElem?_set_self hbound, hgeneration, rfl⟩, rfl⟩

end

end Heap

namespace Machine

open Heap CodeTable

variable {machine : Machine}

/-! ### A collection that leaves the code alone -/

/-- A collection that is not in progress yet marks what is alive, and no slot further up. -/
theorem sweepHeap_of_idle (hidle : machine.heap.phase = .idle) : ∃ marked : Heap Entity,
    marked.room = machine.heap.room ∧ (∀ cell, marked.get? cell = machine.heap.get? cell) ∧
    (∀ cell, marked.isMarked cell = true ↔ machine.heap.Reaches machine.rootSet cell) ∧
    marked.unnamed = machine.heap.whitened.unnamed ∧ marked.settings = machine.heap.settings ∧
    machine.sweepHeap.2.heap = marked.reclaim.2 ∧
    machine.sweepHeap.2.code = (machine.code.visitWeak marked.isMarked machine.stats).1 := by
  have hnot : ¬ machine.heap.isMarking = true := by
    rw [isMarking, hidle]
    decide
  have hstarted := startMarking_marks hidle machine.rootSet
  have hphase : (machine.heap.startMarking machine.rootSet).phase = .marking := by
    rw [startMarking_of_idle hidle]
  rw [sweepHeap_heap, sweepHeap_code, if_neg hnot, if_neg hnot]
  refine ⟨_, ?_, fun cell => ?_, fun cell => ?_, ?_, ?_, rfl, rfl⟩
  · rw [room_completeMarking, room_startMarking]
  · rw [get?_completeMarking, get?_startMarking]
  · rw [hstarted.isMarked_completeMarking hphase, found_whitened]
  · rw [completeMarking, hphase]
    dsimp only
    rw [colorblind_unnamed.markAll, colorblind_unnamed.shadeAll, startMarking_of_idle hidle]
    exact colorblind_unnamed.shadeAll machine.heap.whitened machine.rootSet
  · rw [colorblind_settings.completeMarking rfl, colorblind_settings.startMarking rfl]

/-- Everything that the code needs is alive, and none of the code has been replaced. -/
structure Intact (machine : Machine) : Prop where
  numbered : machine.code.Numbered
  linked : machine.code.Linked
  idle : machine.heap.phase = .idle
  cells : ∀ {site link}, machine.code.link? site = some link →
    ∀ cell ∈ link.dependents, machine.heap.Reaches machine.rootSet cell
  blocks : ∀ {id block}, machine.code.get? id = some block → ∃ executable,
    machine.heap.executable? block.owner = some executable ∧
      executable.code block.kind = some id ∧
      machine.heap.Reaches machine.rootSet block.owner

/-- Whether a machine is intact can be computed: mark what is alive, and look. -/
def isIntact (machine : Machine) : Bool :=
  let marked := machine.heap.completeMarking machine.rootSet
  machine.heap.phase == .idle &&
    (machine.code.blocks.flatMap Block.links).all (fun link =>
      link.dependents.all marked.isMarked) &&
    machine.code.blocks.all fun block => marked.isMarked block.owner &&
      (machine.heap.executable? block.owner).any fun executable =>
        executable.code block.kind == some block.id

theorem intact_of_isIntact (hnumbered : machine.code.Numbered) (hlinked : machine.code.Linked)
    (h : machine.isIntact = true) : machine.Intact := by
  simp only [isIntact, Bool.and_eq_true, beq_iff_eq, List.all_eq_true] at h
  obtain ⟨⟨hidle, hcells⟩, hblocks⟩ := h
  refine ⟨hnumbered, hlinked, hidle, fun {site link} hlink cell hcell => ?_, ?_⟩
  · obtain ⟨caller, hcaller, hindex⟩ := link?_eq_some_iff.mp hlink
    refine (isMarked_completeMarking_of_idle hidle).mp (hcells link ?_ cell hcell)
    exact List.mem_flatMap.mpr ⟨caller, mem_of_get? hcaller, List.mem_of_getElem? hindex⟩
  · intro id block hblock
    obtain ⟨hmarked, hcurrent⟩ := hblocks block (mem_of_get? hblock)
    rw [Option.any_eq_true] at hcurrent
    obtain ⟨executable, hexecutable, hcode⟩ := hcurrent
    rw [beq_iff_eq, id_of_get? hblock] at hcode
    exact ⟨executable, hexecutable, hcode, (isMarked_completeMarking_of_idle hidle).mp hmarked⟩

theorem Intact.sweep (h : machine.Intact) :
    (∀ site, machine.sweepHeap.2.code.link? site = machine.code.link? site) ∧
    machine.sweepHeap.2.code.blocks.filter machine.sweepHeap.2.isReclaimable = [] := by
  obtain ⟨marked, _, hget, hmarked, _, _, hheap, hcode⟩ := sweepHeap_of_idle h.idle
  constructor
  · intro site
    rw [hcode, link?_visitWeak]
    rcases hlink : machine.code.link? site with _ | link
    · rfl
    · have halive : link.Alive marked.isMarked :=
        fun cell hcell => (hmarked cell).mpr (h.cells hlink cell hcell)
      rw [Option.map_some, Link.visitWeak_of_alive halive]
  · rw [List.filter_eq_nil_iff]
    intro block hmem
    have hblock := (machine.sweepHeap_settled h.numbered).numbered.get?_of_mem hmem
    have houtline := get?_of_outline machine.sweepHeap_links.1 block.id
    rw [hblock] at houtline
    obtain ⟨origin, horigin, hsame⟩ := Option.map_eq_some_iff.mp houtline.symm
    obtain ⟨executable, hexecutable, hcurrent, hreaches⟩ := h.blocks horigin
    have hstill : machine.sweepHeap.2.heap.executable? origin.owner = some executable := by
      rw [executable?_eq_some_iff] at hexecutable ⊢
      rw [hheap]
      show marked.sweep.get? origin.owner = _
      rw [get?_sweep, if_pos ((hmarked _).mpr hreaches), hget, hexecutable]
    have hkept : machine.sweepHeap.2.isReclaimable origin = false := by
      refine isReclaimable_eq_false_iff.mpr ⟨executable, hstill, .inl ?_⟩
      rw [hcurrent, id_of_get? horigin]
    rw [isReclaimable_congr rfl rfl hsame.symm, hkept]
    decide

end Machine

namespace MachineM

open Machine CodeTable

variable {machine : Machine}

theorem exec_collect_of_intact (h : machine.Intact) : ∃ after,
    collect.exec machine = (.ok machine.sweepHeap.1, after) ∧ machine.Collected after ∧
      ∀ site, after.code.link? site = machine.code.link? site := by
  obtain ⟨hlinks, hnone⟩ := h.sweep
  obtain ⟨after, hrun, hcollected⟩ := exec_collect h.numbered h.linked
  refine ⟨after, hrun, hcollected, fun site => ?_⟩
  have hnothing : (([] : List CodeId).forM jettisonCode).exec machine.sweepHeap.2
      = (.ok ⟨⟩, machine.sweepHeap.2) := rfl
  have hcode : (collect.exec machine).2.code = machine.sweepHeap.2.code.pruneIncoming.2 := by
    rw [collect]
    simp only [exec_bind, exec_get, exec_modifyGet, hnone, List.map_nil, hnothing, exec_modify,
      exec_look]
    generalize Machine.verifyLinks _ = checked
    rcases checked with error | _ <;> rfl
  rw [hrun] at hcode
  rw [hcode, link?_pruneIncoming, hlinks]

end MachineM

namespace Machine

open Heap CodeTable

variable {machine : Machine}

/-! ### Crowding the heap -/

/-- The machine after it has made objects that nothing refers to. -/
def crowded (machine : Machine) (count : Nat) : Machine :=
  { machine with heap := machine.heap.fill (.object none) count }

theorem Intact.crowded (h : machine.Intact) (count : Nat) : (machine.crowded count).Intact where
  numbered := h.numbered
  linked := h.linked
  idle := h.idle
  cells hlink cell hcell := (h.cells hlink cell hcell).fill count
  blocks hblock := by
    obtain ⟨executable, hexecutable, hcurrent, hreaches⟩ := h.blocks hblock
    rw [executable?_eq_some_iff] at hexecutable
    exact ⟨executable, executable?_eq_some_iff.mpr (get?_fill count hexecutable), hcurrent,
      hreaches.fill count⟩

/-- So many objects that the last of them has the index of a cell. -/
def crowd (machine : Machine) (cell : Cell) : Nat :=
  UInt32.size + cell.index.toNat + 1 - machine.heap.slots.length

/-- After the collection of a heap that is so crowded, the slot of the cell is free although the
cell is alive. -/
theorem Intact.free_collected {cell : Cell} {after : Machine} (h : machine.Intact)
    (hroom : machine.heap.slots.length ≤ UInt32.size)
    (hcollected : (machine.crowded (machine.crowd cell)).Collected after) :
    ∃ rest, after.heap.free = cell.index.toNat :: rest := by
  obtain ⟨last, hlast⟩ : ∃ last, last = UInt32.size + cell.index.toNat := ⟨_, rfl⟩
  have hcount : machine.heap.slots.length + machine.crowd cell = last + 1 := by
    rw [crowd]
    omega
  have hlength : (machine.crowded (machine.crowd cell)).heap.slots.length = last + 1 := by
    rw [← hcount]
    simp [Machine.crowded, fill]
  have hbeyond : UInt32.size ≤ last := by omega
  have hoccupied : (machine.crowded (machine.crowd cell)).heap.isOccupied last = true := by
    refine isOccupied_fill ?_ ?_ <;> omega
  obtain ⟨marked, hsame, _, _, hunnamed, _, hheap, _⟩ :=
    sweepHeap_of_idle (h.crowded (machine.crowd cell)).idle
  rw [← isOccupied_of_room hsame, isOccupied_iff] at hoccupied
  obtain ⟨slot, hslot, hholds⟩ := hoccupied
  have hdead : last ∈ marked.deadIndices := mem_deadIndices.mpr
    ⟨slot, hslot, hholds, color_of_unnamed hunnamed hbeyond hslot hholds⟩
  obtain ⟨rest, hfree⟩ := free_sweep hdead ((length_slots_of_room hsame).trans hlength)
  refine ⟨rest, ?_⟩
  rw [hcollected.heap_eq, hheap]
  show marked.sweep.free = _
  rw [hfree, hlast, Nat.add_mod_left, Nat.mod_eq_of_lt cell.index.toNat_lt]

end Machine

namespace Execution

open Machine MachineM Heap

variable {execution : Execution}

theorem run_createObjects (hidle : execution.machine.heap.phase = .idle)
    (hfree : execution.machine.heap.free = []) (count : Nat) :
    execution.run (List.replicate count (.order (.createObject none)))
      = { execution with machine := execution.machine.crowded count } := by
  induction count with
  | zero =>
      rw [Machine.crowded, fill_zero]
      rfl
  | succ count ih =>
      rw [List.replicate_succ', run_append, ih]
      show Execution.mk { execution.machine with
        heap := ((execution.machine.crowded count).heap.allocate (.object none)).2 } _ = _
      rw [Machine.crowded, allocate_fill hidle hfree, Machine.crowded]

theorem adopters_createObjects (execution : Execution) (count : Nat) :
    execution.adopters (List.replicate count (.order (.createObject none))) = [] := by
  induction count generalizing execution with
  | zero => rfl
  | succ count ih =>
      rw [List.replicate_succ, adopters, ih]
      rfl

theorem adopters_append (execution : Execution) (first second : List Request) :
    execution.adopters (first ++ second)
      = execution.adopters first ++ (execution.run first).adopters second := by
  induction first generalizing execution with
  | nil => rfl
  | cons request rest ih =>
      rw [List.cons_append, adopters, ih, adopters, List.append_assoc]
      rfl

/-- Objects that nothing refers to are made and collected, and then one more. -/
def overwriting (machine : Machine) (cell : Cell) : List Request :=
  List.replicate (machine.crowd cell) (.order (.createObject none))
    ++ [.order .collect, .order (.createObject none)]

/-- Any cell that is alive can be overwritten with an object, and no link notices. -/
theorem overwritten (h : execution.machine.Intact) (hfree : execution.machine.heap.free = [])
    (hroom : execution.machine.heap.slots.length ≤ UInt32.size) {cell : Cell}
    (hcell : execution.machine.heap.Reaches execution.machine.rootSet cell) :
    let after := execution.run (overwriting execution.machine cell)
    after.machine.heap.get? cell = some (.object none) ∧
      (∀ site, after.machine.code.link? site = execution.machine.code.link? site) ∧
      after.machine.heap.phase = .idle ∧ after.machine.heap.allocatedSinceCollection = 1 ∧
      after.machine.heap.settings = execution.machine.heap.settings ∧
      execution.adopters (overwriting execution.machine cell) = [] := by
  intro after
  obtain ⟨crowded, hcrowded⟩ : ∃ crowded,
      execution.machine.crowded (execution.machine.crowd cell) = crowded := ⟨_, rfl⟩
  have hintact : crowded.Intact := hcrowded ▸ h.crowded _
  obtain ⟨collected, hrun, hcollected, hlinks⟩ := exec_collect_of_intact hintact
  obtain ⟨rest, hnext⟩ := h.free_collected hroom (hcrowded ▸ hcollected)
  obtain ⟨marked, _, _, hmarked, _, hsettings, hheap, _⟩ := sweepHeap_of_idle hintact.idle
  rw [← hcollected.heap_eq] at hheap
  have hlive : collected.heap.contains cell = true := by
    rw [hheap, contains_reclaim, hmarked, ← hcrowded]
    exact hcell.fill _
  have hcollect : (Execution.step { execution with machine := crowded } (.order .collect)).2
      = { execution with machine := collected } := by
    rw [step, Order.run, exec_map, hrun]
  have hafter : after.machine = { collected with
      heap := (collected.heap.allocate (.object none)).2 } := by
    show (execution.run (overwriting execution.machine cell)).machine = _
    rw [overwriting, run_append, run_createObjects h.idle hfree, hcrowded]
    show (Execution.step (Execution.step _ (.order .collect)).2 _).2.machine = _
    rw [hcollect]
    rfl
  rw [hafter]
  refine ⟨get?_allocate_of_free hnext hlive _, fun site => (hlinks site).trans ?_,
    (allocate_phase _ _).trans hcollected.settled.idle, ?_, ?_, ?_⟩
  · rw [← hcrowded]
    rfl
  · rw [Heap.allocate, hnext, hheap]
    rfl
  · rw [Heap.allocate, hnext, hheap]
    show marked.settings = _
    rw [hsettings, ← hcrowded]
    rfl
  · rw [overwriting, adopters_append, adopters_createObjects]
    rfl

end Execution
end InlineCache
