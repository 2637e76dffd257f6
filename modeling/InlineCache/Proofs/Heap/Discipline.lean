import InlineCache.Heap.Node
import InlineCache.Proofs.Heap.Tidy
import InlineCache.Proofs.Heap.Tricolor

/-!
# Stores and their barriers

Whoever stores a reference while marking owes the marker a barrier for it. The barriers that are
owed are listed beside the heap: one for each reference that a cell receives or is born with, until
the barrier is issued. Only a listed reference can hide a cell from the marker, so a collection that
begins when nothing is owed keeps everything that is alive.
-/

namespace InlineCache.Heap

variable {α : Type} [Traceable α] {heap after : Heap α} {owed : List (Cell × Cell)}
  {cell source target : Cell}

/-! ### Runs of a heap -/

/-- What can be done with a heap. -/
inductive Step (α : Type) where
  | allocate (content : α)
  /-- Change what a cell holds: references are stored and removed. -/
  | mutate (cell : Cell) (change : α → α)
  | writeBarrier (owner target : Cell)
  | startMarking (roots : List Cell)
  | markStep (budget : Nat)
  | collect (roots : List Cell)

def apply (heap : Heap α) : Step α → Heap α
  | .allocate content => (heap.allocate content).2
  | .mutate cell change => heap.update cell change
  | .writeBarrier owner target => heap.writeBarrier owner target
  | .startMarking roots => heap.startMarking roots
  | .markStep budget => (heap.markStep budget).2
  | .collect roots => (heap.collect roots).2

def run (heap : Heap α) (steps : List (Step α)) : Heap α :=
  steps.foldl apply heap

/-- While marking, a cell that receives references owes a barrier for each of them. -/
def owe (heap : Heap α) (owed : List (Cell × Cell)) (owner : Cell) (targets : List Cell) :
    List (Cell × Cell) :=
  if heap.phase = .marking then targets.map (fun target => (owner, target)) ++ owed else owed

/-- The barriers that are owed after a step. A cycle that has ended needs none. -/
def owedAfter (heap : Heap α) (owed : List (Cell × Cell)) : Step α → List (Cell × Cell)
  | .allocate content => heap.owe owed (heap.allocate content).1 (Traceable.children content)
  | .mutate cell change =>
    heap.owe owed cell
      (((heap.update cell change).referents cell).filter (· ∉ heap.referents cell))
  | .writeBarrier owner target => owed.filter (· ≠ (owner, target))
  | .startMarking _ => owed
  | .markStep _ => owed
  | .collect _ => []

/-- The barriers that are owed after a run. -/
def owedAfterRun (heap : Heap α) (owed : List (Cell × Cell)) : List (Step α) → List (Cell × Cell)
  | [] => owed
  | step :: rest => (heap.apply step).owedAfterRun (heap.owedAfter owed step) rest

omit [Traceable α] in
theorem mem_owe {owner : Cell} {targets : List Cell} (hphase : heap.phase = .marking) :
    (source, target) ∈ heap.owe owed owner targets ↔
      source = owner ∧ target ∈ targets ∨ (source, target) ∈ owed := by
  simp only [owe, if_pos hphase, List.mem_append, List.mem_map, Prod.mk.injEq]
  grind

/-! ### Hidden cells -/

/-- A cell that is not scanned any more refers to a cell that has not been found. -/
def Hides (heap : Heap α) (source target : Cell) : Prop :=
  heap.Edge source target ∧ ¬ heap.isPending source = true ∧ ¬ heap.isMarked target = true

theorem Hides.of_marks {roots : List Cell} (hhides : after.Hides source target)
    (h : Marks roots heap after) : heap.Hides source target := by
  obtain ⟨hedge, hblack, hwhite⟩ := hhides
  rw [Edge.congr h.get?_eq] at hedge
  have hscanned : ¬ heap.isPending source = true :=
    fun hpending => hwhite (h.scanned hpending hblack hedge)
  exact ⟨hedge, hscanned, fun hmarked => hwhite (h.marked hmarked)⟩

/-- A barrier uncovers the reference that it is issued for, and hides nothing. -/
theorem Hides.of_writeBarrier {owner child : Cell}
    (hhides : (heap.writeBarrier owner child).Hides source target) :
    heap.Hides source target ∧ (heap.phase = .marking → (source, target) ≠ (owner, child)) := by
  obtain ⟨hedge, hblack, hwhite⟩ := hhides
  rw [Edge.congr fun _ => get?_writeBarrier] at hedge
  by_cases hacts : heap.phase = .marking ∧ heap.color? owner = some .black
  · have hcolor : ∀ cell, (heap.writeBarrier owner child).color? cell
        = (heap.shade child).color? cell := fun cell => by rw [color?_writeBarrier, if_pos hacts]
    rw [isPending_congr (hcolor source), isPending_shade] at hblack
    rw [isMarked_congr (hcolor target), isMarked_shade, not_or] at hwhite
    refine ⟨⟨hedge, hblack, hwhite.1⟩, fun _ hpair => ?_⟩
    obtain ⟨rfl, rfl⟩ := Prod.mk.inj hpair
    exact hwhite.2 ⟨rfl, (edge_iff.mp hedge).2⟩
  · have hcolor : ∀ cell, (heap.writeBarrier owner child).color? cell = heap.color? cell :=
      fun cell => by rw [color?_writeBarrier, if_neg hacts]
    rw [isPending_congr (hcolor source)] at hblack
    rw [isMarked_congr (hcolor target)] at hwhite
    refine ⟨⟨hedge, hblack, hwhite⟩, fun hphase hpair => hacts ⟨hphase, ?_⟩⟩
    obtain ⟨rfl, rfl⟩ := Prod.mk.inj hpair
    exact color?_of_not_isPending hedge.contains hblack

/-- What a new cell hides, it was born with. -/
theorem Hides.of_allocate {content : α} (hphase : heap.phase = .marking)
    (hhides : (heap.allocate content).2.Hides source target) :
    heap.Hides source target ∨
      source = (heap.allocate content).1 ∧ target ∈ Traceable.children content := by
  obtain ⟨⟨held, hheld, hmem, hlive⟩, hblack, hwhite⟩ := hhides
  rcases get?_allocate heap content source with ⟨hsource, hscolor⟩ | ⟨hsource, hcontent, _⟩
  · rcases get?_allocate heap content target with ⟨htarget, htcolor⟩ | ⟨_, _, htcolor⟩
    · rw [hsource] at hheld
      rw [contains_congr htarget] at hlive
      rw [isPending_congr hscolor] at hblack
      rw [isMarked_congr htcolor] at hwhite
      exact .inl ⟨⟨held, hheld, hmem, hlive⟩, hblack, hwhite⟩
    · rw [isMarked_iff, htcolor, if_pos hphase] at hwhite
      exact absurd ⟨.black, rfl, by simp⟩ hwhite
  · obtain rfl := Option.some.inj (hheld.symm.trans hcontent)
    exact .inr ⟨hsource, hmem⟩

/-- What a changed cell hides from now on, it has received. -/
theorem Hides.of_update {change : α → α} (hhides : (heap.update cell change).Hides source target) :
    heap.Hides source target ∨
      source = cell ∧ target ∈ (heap.update cell change).referents cell ∧
        target ∉ heap.referents cell := by
  obtain ⟨hedge, hblack, hwhite⟩ := hhides
  rw [isPending_congr (color?_update change)] at hblack
  rw [isMarked_congr (color?_update change)] at hwhite
  obtain ⟨hmem, hlive⟩ := edge_iff.mp hedge
  rw [contains_iff_color?, color?_update, ← contains_iff_color?] at hlive
  by_cases hcell : source = cell
  · subst hcell
    by_cases hold : target ∈ heap.referents source
    · exact .inl ⟨edge_iff.mpr ⟨hold, hlive⟩, hblack, hwhite⟩
    · exact .inr ⟨rfl, hmem, hold⟩
  · rw [referents, get?_update, if_neg hcell] at hmem
    exact .inl ⟨edge_iff.mpr ⟨hmem, hlive⟩, hblack, hwhite⟩

/-! ### The discipline -/

/-- Every reference that hides a cell is listed. -/
structure Barriered (heap : Heap α) (owed : List (Cell × Cell)) : Prop where
  idle : heap.phase = .idle → ∀ cell, heap.isMarked cell = false
  queued : heap.phase = .marking → heap.Queued
  hidden : ∀ {source target}, heap.Hides source target → (source, target) ∈ owed

namespace Barriered

theorem tricolor (h : heap.Barriered owed) : heap.Tricolor (owed.map Prod.fst) where
  idle := h.idle
  queued := h.queued
  hidden hedge hblack hwhite :=
    List.mem_map.mpr ⟨_, h.hidden ⟨hedge, hblack, hwhite⟩, rfl⟩

/-- Between two cycles nothing is black, so nothing is hidden. -/
theorem of_marking (hidle : heap.phase = .idle → ∀ cell, heap.isMarked cell = false)
    (hqueued : heap.phase = .marking → heap.Queued)
    (hhidden : heap.phase = .marking → ∀ {source target}, heap.Hides source target →
      (source, target) ∈ owed) : heap.Barriered owed where
  idle := hidle
  queued := hqueued
  hidden := by
    intro source target hhides
    rcases hphase : heap.phase with _ | _
    · have hmarked := isMarked_of_not_isPending hhides.1.contains hhides.2.1
      rw [hidle hphase] at hmarked
      cases hmarked
    · exact hhidden hphase hhides

theorem marks {roots : List Cell} (h : heap.Barriered owed) (hmarks : Marks roots heap after)
    (hphase : after.phase = .marking) : after.Barriered owed :=
  have hrule := h.tricolor.marks hmarks hphase
  ⟨hrule.idle, hrule.queued, fun hhides => h.hidden (hhides.of_marks hmarks)⟩

theorem allocate (h : heap.Barriered owed) (content : α) :
    (heap.allocate content).2.Barriered (heap.owedAfter owed (.allocate content)) := by
  have hrule : (heap.allocate content).2.Tricolor _ :=
    h.tricolor.allocate (fun _ => List.mem_cons_of_mem (heap.allocate content).1)
      (.inr List.mem_cons_self)
  refine of_marking hrule.idle hrule.queued fun hphase source target hhides => ?_
  rw [allocate_phase] at hphase
  rw [owedAfter, mem_owe hphase]
  rcases hhides.of_allocate hphase with hold | hborn
  · exact .inr (h.hidden hold)
  · exact .inl hborn

theorem mutate (h : heap.Barriered owed) (cell : Cell) (change : α → α) :
    (heap.update cell change).Barriered (heap.owedAfter owed (.mutate cell change)) := by
  obtain ⟨slots, hslots⟩ := update_eq heap cell change
  have hcolor : ∀ other, (heap.update cell change).color? other = heap.color? other :=
    fun _ => color?_update change
  refine of_marking ?_ ?_ ?_
  · intro hidle other
    rw [update_phase] at hidle
    exact (isMarked_congr (hcolor other)).trans (h.idle hidle other)
  · intro hphase
    rw [update_phase] at hphase
    exact (h.queued hphase).congr hcolor (by rw [hslots]; rfl)
  · intro hphase source target hhides
    rw [update_phase] at hphase
    rw [owedAfter, mem_owe hphase]
    rcases hhides.of_update with hold | ⟨hsource, hmem, hnew⟩
    · exact .inr (h.hidden hold)
    · exact .inl ⟨hsource, List.mem_filter.mpr ⟨hmem, decide_eq_true hnew⟩⟩

theorem writeBarrier (h : heap.Barriered owed) (owner target : Cell) :
    (heap.writeBarrier owner target).Barriered
      (heap.owedAfter owed (.writeBarrier owner target)) := by
  have hrule := h.tricolor.writeBarrier owner target
  refine of_marking hrule.idle hrule.queued fun hphase _ _ hhides => ?_
  rw [writeBarrier_phase] at hphase
  obtain ⟨hold, hother⟩ := hhides.of_writeBarrier
  exact List.mem_filter.mpr ⟨h.hidden hold, decide_eq_true (hother hphase)⟩

theorem startMarking (h : heap.Barriered owed) (roots : List Cell) :
    (heap.startMarking roots).Barriered owed := by
  rcases hphase : heap.phase with _ | _
  · refine h.marks (h.tricolor.startMarking_marks hphase roots) ?_
    rw [Heap.startMarking, hphase]
  · rw [Heap.startMarking, hphase]
    exact h

theorem markStep (h : heap.Barriered owed) (budget : Nat) :
    (heap.markStep budget).2.Barriered owed := by
  rcases hphase : heap.phase with _ | _
  · rw [Heap.markStep, hphase]
    exact h
  · have hmarks : Marks [] heap _ := markStep_marks budget (h.queued hphase)
    exact h.marks hmarks (by rw [markStep_phase, hphase])

theorem step (h : heap.Barriered owed) (step : Step α) :
    (heap.apply step).Barriered (heap.owedAfter owed step) := by
  cases step with
  | allocate content => exact h.allocate content
  | mutate cell change => exact h.mutate cell change
  | writeBarrier owner target => exact h.writeBarrier owner target
  | startMarking roots => exact h.startMarking roots
  | markStep budget => exact h.markStep budget
  | collect roots =>
      exact of_marking (fun _ _ => isMarked_sweep) (fun hphase => nomatch hphase)
        fun hphase => nomatch hphase

theorem run (h : heap.Barriered owed) (steps : List (Step α)) :
    (heap.run steps).Barriered (heap.owedAfterRun owed steps) := by
  induction steps generalizing heap owed with
  | nil => exact h
  | cons step rest ih => exact ih (h.step step)

end Barriered

/-! ### Collections -/

theorem Tricolor.isMarked_completeMarking {born roots : List Cell} (h : heap.Tricolor born) :
    (heap.completeMarking roots).isMarked cell = true ↔ heap.Found roots cell := by
  rcases hphase : heap.phase with _ | _
  · have hstarted := h.startMarking_marks hphase roots
    have hmarking : (heap.startMarking roots).phase = .marking := by
      rw [Heap.startMarking, hphase]
    have hended : Marks roots (heap.startMarking roots) (heap.startMarking roots).markAll :=
      markAll_marks hstarted.queued
    rw [completeMarking, hphase]
    refine (hstarted.trans hended).isMarked_iff_found (markAll_done hmarking) ?_
    intro root hmem hlive
    refine hended.marked ?_
    rw [Heap.startMarking, hphase]
    exact isMarked_shadeAll.mpr (.inr ⟨hmem, (contains_congr get?_whiten).trans hlive⟩)
  · exact (Marks.refl (h.queued hphase)).isMarked_completeMarking hphase

/-- A collection that begins when no barrier is owed keeps every cell that is alive, as it is. -/
theorem collect_keeps_alive (settings : HeapSettings) (steps : List (Step α)) (roots : List Cell)
    (hpaid : ({ settings } : Heap α).owedAfterRun [] steps = []) :
    let heap := ({ settings } : Heap α).run steps
    ∀ cell, heap.Reaches roots cell →
      (heap.collect roots).2.contains cell = true ∧
        (heap.collect roots).2.get? cell = heap.get? cell ∧
        (heap.Addressable → cell ∉ (heap.collect roots).1.reclaimed) := by
  intro heap cell halive
  have hempty : ({ settings } : Heap α).Barriered [] := by
    refine .of_marking (fun _ cell => ?_) (fun hphase => nomatch hphase)
      fun hphase => nomatch hphase
    rfl
  have hbarriered : heap.Barriered [] := hpaid ▸ hempty.run steps
  have hrule : heap.Tricolor [] := hbarriered.tricolor
  have hfound : heap.Found roots cell :=
    hrule.reaches_found_iff.mpr (fun _ hmem => nomatch hmem) cell halive
  have hmarked : (heap.completeMarking roots).isMarked cell = true :=
    hrule.isMarked_completeMarking.mpr hfound
  refine ⟨contains_reclaim.trans hmarked, ?_, fun haddressable hmem => ?_⟩
  · show (heap.completeMarking roots).sweep.get? cell = heap.get? cell
    rw [get?_sweep, if_pos hmarked, get?_completeMarking]
  · have haddressable : (heap.completeMarking roots).Addressable := by
      rw [Addressable, length_slots_of_room room_completeMarking]
      exact haddressable
    have hwhite := color?_of_mem_garbage haddressable hmem
    rw [isMarked_iff, hwhite] at hmarked
    simp at hmarked

/-- The first cell is scanned before it receives the second, which was born with a handle to a cell
that is allocated last. The third cell is born black, with a reference to the second and with one
that names nothing. -/
def storesWhileMarking : List (Step Node) :=
  [.allocate ⟨0, []⟩, .allocate ⟨1, [⟨3, 0⟩]⟩, .startMarking [⟨0, 0⟩], .markStep 1,
    .mutate ⟨0, 0⟩ fun node => { node with children := [⟨1, 0⟩, ⟨2, 0⟩] },
    .writeBarrier ⟨0, 0⟩ ⟨1, 0⟩,
    .allocate ⟨2, [⟨1, 0⟩, ⟨7, 4⟩]⟩, .writeBarrier ⟨2, 0⟩ ⟨7, 4⟩, .writeBarrier ⟨2, 0⟩ ⟨1, 0⟩,
    .writeBarrier ⟨0, 0⟩ ⟨2, 0⟩,
    .mutate ⟨2, 0⟩ fun node => { node with children := [] },
    .allocate ⟨3, []⟩]

theorem collect_keeps_cell_named_early :
    let heap := ({} : Heap Node).run storesWhileMarking
    ({} : Heap Node).owedAfterRun [] storesWhileMarking = [] ∧
      heap.Reaches [⟨0, 0⟩] ⟨3, 0⟩ ∧ heap.Addressable ∧
      (heap.collect [⟨0, 0⟩]).2.get? ⟨3, 0⟩ = some ⟨3, []⟩ ∧
      ⟨3, 0⟩ ∉ (heap.collect [⟨0, 0⟩]).1.reclaimed := by
  intro heap
  have hpaid : ({} : Heap Node).owedAfterRun [] storesWhileMarking = [] := by decide
  have hroot : heap.Reaches [⟨0, 0⟩] ⟨0, 0⟩ := .root (by decide) rfl
  have hreceived : heap.Reaches [⟨0, 0⟩] ⟨1, 0⟩ := .edge hroot ⟨_, rfl, by decide, rfl⟩
  have hearly : heap.Reaches [⟨0, 0⟩] ⟨3, 0⟩ := .edge hreceived ⟨_, rfl, by decide, rfl⟩
  have haddressable : heap.Addressable := by
    show (({} : Heap Node).run storesWhileMarking).slots.length ≤ UInt32.size
    decide
  obtain ⟨_, hget, hlisted⟩ := collect_keeps_alive {} storesWhileMarking [⟨0, 0⟩] hpaid _ hearly
  exact ⟨hpaid, hearly, haddressable, hget, hlisted haddressable⟩

end InlineCache.Heap
