import InlineCache.Proofs.Heap.Inventory
import InlineCache.Proofs.WeakVisit

/-!
# Weak references across a collection

A collection shows the marked heap to the weak references before it sweeps. What they are told there
is about the future: a cell counts as live if the sweep is going to leave it, and this is decided by
its colour, while afterwards it is decided by the occupant and the generation of its slot. The two
agree for every handle, whether it is live, stale or made up, so a reference that was not cleared
can be followed from then on without asking, until the next collection.
-/

namespace InlineCache

namespace WeakRef

variable {isLive survives : Cell → Bool}

/-- A reference is cleared exactly if it has a target and the target is dead. -/
theorem visit_cleared_iff (ref : WeakRef) : (ref.visit isLive).1 = true ↔
    ∃ target, ref.target = some target ∧ isLive target = false := by
  constructor
  · intro hcleared
    exact dead_of_visit (Prod.ext hcleared rfl)
  · rintro ⟨target, htarget, hdead⟩
    by_contra hkept
    have hlive := live_of_visit (Prod.ext (Bool.eq_false_iff.mpr hkept) rfl) target
      (by simp [htarget])
    rw [hdead] at hlive
    cases hlive

theorem visit_of_cleared {ref : WeakRef} (hcleared : (ref.visit isLive).1 = true) :
    (ref.visit isLive).2 = .empty := by
  obtain ⟨target, htarget, hdead⟩ := ref.visit_cleared_iff.mp hcleared
  simp [visit, htarget, hdead]

theorem visit_of_kept {ref : WeakRef} (hkept : (ref.visit isLive).1 = false) :
    (ref.visit isLive).2 = ref := by
  rw [visit_of_live (live_of_visit (Prod.ext hkept rfl))]

theorem isLive_of_visit {ref : WeakRef} {target : Cell}
    (htarget : (ref.visit isLive).2.target = some target) : isLive target = true := by
  cases hcleared : (ref.visit isLive).1 with
  | true =>
      rw [visit_of_cleared hcleared] at htarget
      cases htarget
  | false =>
      rw [visit_of_kept hcleared] at htarget
      exact live_of_visit (Prod.ext hcleared rfl) target (by simp [htarget])

/-- A visited reference reads as it is wherever the cells that were found live are live. -/
theorem get?_visit (ref : WeakRef)
    (hsurvives : ∀ cell, isLive cell = true → survives cell = true) :
    (ref.visit isLive).2.get? survives = (ref.visit isLive).2.target := by
  rw [get?]
  cases htarget : (ref.visit isLive).2.target with
  | none => rfl
  | some target => simp [hsurvives target (isLive_of_visit htarget)]

end WeakRef

namespace Heap

variable {α : Type} [Traceable α] {heap : Heap α} {cell : Cell}

/-! ### Between two collections -/

theorem Tidy.apply (h : heap.Tidy) {step : Step α} (hgoes : ∀ roots, step ≠ .collect roots) :
    (heap.apply step).Tidy ∧
      (heap.contains cell = true → (heap.apply step).contains cell = true) := by
  have hroom {after : Heap α} (hsame : after.room = heap.room) :
      after.Tidy ∧ (heap.contains cell = true → after.contains cell = true) :=
    ⟨h.of_room hsame, contains_of_room hsame⟩
  cases step with
  | allocate content =>
      refine ⟨h.allocate content, fun hlive => ?_⟩
      obtain ⟨color, hcolor⟩ := contains_iff_color?.mp hlive
      exact contains_iff_color?.mpr ⟨color, h.color?_allocate content hcolor⟩
  | mutate cell change => exact hroom (room_update change)
  | writeBarrier owner target => exact hroom room_writeBarrier
  | startMarking roots => exact hroom room_startMarking
  | markStep budget => exact hroom (room_markStep budget)
  | collect roots => exact absurd rfl (hgoes roots)

theorem Tidy.contains_run (h : heap.Tidy) {steps : List (Step α)}
    (hgoes : ∀ roots, .collect roots ∉ steps) (hlive : heap.contains cell = true) :
    (heap.run steps).contains cell = true := by
  induction steps generalizing heap with
  | nil => exact hlive
  | cons step rest ih =>
      have hstep : ∀ roots, step ≠ .collect roots := by
        rintro roots rfl
        exact hgoes roots List.mem_cons_self
      obtain ⟨htidy, hkept⟩ := h.apply hstep
      exact ih htidy (fun roots hmem => hgoes roots (List.mem_cons_of_mem _ hmem)) (hkept hlive)

/-! ### Across a collection -/

/-- After every run, marking that goes on to its end marks what can be found. -/
theorem isMarked_completeMarking_run (settings : HeapSettings) (steps : List (Step α))
    (roots : List Cell) :
    ((({ settings } : Heap α).run steps).completeMarking roots).isMarked cell = true ↔
      (({ settings } : Heap α).run steps).Found roots cell := by
  have hempty : ({ settings } : Heap α).Barriered [] :=
    .of_marking (fun _ _ => rfl) (by rintro ⟨⟩) (by rintro ⟨⟩)
  exact (hempty.run steps).tricolor.isMarked_completeMarking

/-- What the weak references are told before a sweep is what is true after it, for every handle.
A reference is cleared exactly if its target does not survive, and reads as it is from the sweep
until the next one. -/
theorem weak_pass_foretells_sweep (settings : HeapSettings) (steps : List (Step α))
    (roots : List Cell) :
    let heap := ({ settings } : Heap α).run steps
    let isLive := (heap.completeMarking roots).isMarked
    let after := (heap.collect roots).2
    (∀ cell, isLive cell = after.contains cell) ∧
    (∀ cell, after.contains cell = true ↔ heap.Found roots cell) ∧
    (∀ cell, isLive cell = true → after.get? cell = heap.get? cell) ∧
    ∀ ref : WeakRef,
      ((ref.visit isLive).1 = true ↔
        ∃ target, ref.target = some target ∧ after.contains target = false) ∧
      (ref.visit isLive).2 = (if (ref.visit isLive).1 then .empty else ref) ∧
      (ref.visit isLive).2.get? after.contains = (ref.visit isLive).2.target ∧
      (heap.Addressable → ∀ later : List (Step α), (∀ others, .collect others ∉ later) →
        (ref.visit isLive).2.get? (after.run later).contains = (ref.visit isLive).2.target) := by
  intro heap isLive after
  have hforetold : ∀ cell, isLive cell = after.contains cell := fun _ => contains_reclaim.symm
  refine ⟨hforetold, fun cell => ?_, fun cell hlive => ?_, fun ref => ⟨?_, ?_, ?_, ?_⟩⟩
  · rw [← hforetold]
    exact isMarked_completeMarking_run settings steps roots
  · show (heap.completeMarking roots).sweep.get? cell = heap.get? cell
    rw [get?_sweep, if_pos hlive, get?_completeMarking]
  · rw [ref.visit_cleared_iff]
    simp only [hforetold]
  · cases hcleared : (ref.visit isLive).1 with
    | true => exact WeakRef.visit_of_cleared hcleared
    | false => exact WeakRef.visit_of_kept hcleared
  · apply ref.get?_visit
    intro cell hlive
    rw [← hforetold]
    exact hlive
  · intro haddressable later hgoes
    have hinventory : heap.Inventory _ := (Inventory.empty settings).run steps haddressable
    have htidy : after.Tidy := (hinventory.collect haddressable roots).stocked.tidy
    apply ref.get?_visit
    intro cell hlive
    apply htidy.contains_run hgoes
    rw [← hforetold]
    exact hlive

/-- One cell has been scanned when a second one, whose slot was used before, is born black with a
reference to a third one. The barrier for it has shaded the third cell, and nothing names the
fourth. -/
def weaklyHeld : List (Step Node) :=
  [.allocate ⟨0, []⟩, .allocate ⟨1, []⟩, .allocate ⟨2, []⟩, .allocate ⟨3, []⟩,
    .collect [⟨0, 0⟩, ⟨1, 0⟩, ⟨2, 0⟩], .startMarking [⟨0, 0⟩], .markStep 1,
    .allocate ⟨4, [⟨1, 0⟩]⟩, .writeBarrier ⟨3, 1⟩ ⟨1, 0⟩]

theorem weak_pass_of_weaklyHeld :
    let heap := ({} : Heap Node).run weaklyHeld
    let isLive := (heap.completeMarking []).isMarked
    let after := (heap.collect []).2
    let later : List (Step Node) := [.allocate ⟨5, []⟩, .startMarking [], .markStep 9]
    heap.Addressable ∧ (∀ others, .collect others ∉ later) ∧
      heap.color? ⟨3, 1⟩ = some .black ∧ heap.color? ⟨1, 0⟩ = some .gray ∧
      ([⟨0, 0⟩, ⟨1, 0⟩, ⟨2, 0⟩, ⟨3, 0⟩, ⟨3, 1⟩, ⟨9, 9⟩].map isLive
        = [true, true, false, false, true, false]) ∧
      isLive ⟨3, 0⟩ = after.contains ⟨3, 0⟩ ∧
      ((WeakRef.ofCell ⟨2, 0⟩).visit isLive).1 = true ∧ after.contains ⟨2, 0⟩ = false ∧
      ((WeakRef.ofCell ⟨3, 1⟩).visit isLive).2.target = some ⟨3, 1⟩ ∧
      ((WeakRef.ofCell ⟨3, 1⟩).visit isLive).2.get? (after.run later).contains = some ⟨3, 1⟩ := by
  intro heap isLive after later
  have haddressable : heap.Addressable := by
    show (({} : Heap Node).run weaklyHeld).slots.length ≤ UInt32.size
    decide +kernel
  have hgoes : ∀ others, .collect others ∉ later := fun _ => by simp [later]
  obtain ⟨hforetold, _, _, hrefs⟩ := weak_pass_foretells_sweep ({} : HeapSettings) weaklyHeld []
  obtain ⟨hcleared, _⟩ := hrefs (.ofCell ⟨2, 0⟩)
  obtain ⟨_, _, _, hstays⟩ := hrefs (.ofCell ⟨3, 1⟩)
  have hdead : after.contains ⟨2, 0⟩ = false := by decide +kernel
  have hkept : ((WeakRef.ofCell ⟨3, 1⟩).visit isLive).2.target = some ⟨3, 1⟩ := by decide +kernel
  exact ⟨haddressable, hgoes, by decide +kernel, by decide +kernel, by decide +kernel, hforetold _,
    hcleared.mpr ⟨_, rfl, hdead⟩, hdead, hkept, (hstays haddressable later hgoes).trans hkept⟩

end Heap

end InlineCache
