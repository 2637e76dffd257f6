import InlineCache.Proofs.Machine.Heap

/-!
# Whose code a block is

The current code of an executable was compiled for that executable, and for the specialization that
it is the current code for, unless the executable brought code along when it was allocated. A block
that is the current code of an executable serves the calls to the closures of the executable, until
it is replaced or discarded.
-/

namespace InlineCache

theorem Executable.code_eq_none {template : Executable} (h : template.isCompiled = false)
    (kind : Specialization) : template.code kind = none := by
  rw [isCompiled, Bool.or_eq_false_iff, Option.isSome_eq_false_iff, Option.isSome_eq_false_iff,
    Option.isNone_iff_eq_none, Option.isNone_iff_eq_none] at h
  cases kind with
  | call => exact h.1
  | construct => exact h.2

namespace Machine

open CodeTable Heap

variable {may : Work → Prop} {machine before after : Machine} {cell : Cell}
  {kind : Specialization} {id : CodeId} {adopters : List Cell}

/-- The current code of an executable is its own, unless it brought code along. A number that is not
given yet is nobody's. -/
structure Owned (machine : Machine) (adopters : List Cell) : Prop where
  given : ∀ {cell kind id}, cell ∉ adopters → machine.currentCode? cell kind = some id →
    id.number ≤ machine.code.lastNumber
  own : ∀ {cell kind block}, cell ∉ adopters → machine.currentCode? cell kind = some block.id →
    machine.code.get? block.id = some block → block.owner = cell ∧ block.kind = kind

/-! ### Current code along changes -/

theorem currentCode?_setCode {owner : Cell} {other : Specialization} {code : Option CodeId} :
    (machine.setCode owner other code).currentCode? cell kind =
      if cell = owner ∧ kind = other then (machine.heap.executable? owner).bind fun _ => code
      else machine.currentCode? cell kind := by
  rw [currentCode?, currentCode?, Machine.setCode, executable?_setCode]
  by_cases howner : cell = owner
  · rw [if_pos howner, howner]
    by_cases hkind : kind = other
    · rw [if_pos ⟨rfl, hkind⟩, hkind]
      rcases machine.heap.executable? owner with _ | executable
      · rfl
      · exact Executable.code_setCode_self _ _ _
    · rw [if_neg fun h => hkind h.2]
      rcases machine.heap.executable? owner with _ | executable
      · rfl
      · exact Executable.code_setCode_of_ne _ _ _ hkind
  · rw [if_neg howner, if_neg fun h => howner h.1]

/-- A cell has the code that it had before, or brings it along. -/
theorem currentCode?_withCell {entity : Entity}
    (h : (machine.withCell entity).currentCode? cell kind = some id) :
    machine.currentCode? cell kind = some id ∨
      entity.bringsCode = true ∧ cell = (machine.heap.allocate entity).1 := by
  have hheap : (machine.withCell entity).heap = (machine.heap.allocate entity).2 := rfl
  rw [currentCode?, executable?, hheap] at h
  rcases get?_allocate machine.heap entity cell with ⟨hget, _⟩ | ⟨hnew, hget, _⟩ <;> rw [hget] at h
  · exact .inl h
  · cases entity with
    | function closure => cases h
    | executable template =>
        refine .inr ⟨?_, hnew⟩
        rcases hcompiled : template.isCompiled
        · exact absurd ((template.code_eq_none hcompiled kind).symm.trans h) (by simp)
        · exact hcompiled
    | object handler => cases h

/-- A sweep leaves a cell alone, or takes it away. -/
theorem get?_sweepHeap_of_contains (h : before.sweepHeap.2.heap.contains cell = true) :
    before.sweepHeap.2.heap.get? cell = before.heap.get? cell := by
  obtain ⟨marked, _, hget, hheap, _⟩ := sweepHeap_marked before
  have hswept : marked.reclaim.2.get? cell = marked.sweep.get? cell := rfl
  rw [hheap, contains_reclaim] at h
  rw [hheap, hswept, get?_sweep, if_pos h, hget]

theorem executable?_sweepHeap_of_contains (h : before.sweepHeap.2.heap.contains cell = true) :
    before.sweepHeap.2.heap.executable? cell = before.heap.executable? cell := by
  rw [executable?, get?_sweepHeap_of_contains h]
  rfl

theorem executable?_sweepHeap {executable : Executable}
    (h : before.sweepHeap.2.heap.executable? cell = some executable) :
    before.heap.executable? cell = some executable := by
  rw [← executable?_sweepHeap_of_contains, h]
  exact Heap.contains_iff.mpr ⟨_, executable?_eq_some_iff.mp h⟩

theorem currentCode?_sweepHeap (h : before.sweepHeap.2.currentCode? cell kind = some id) :
    before.currentCode? cell kind = some id := by
  obtain ⟨executable, hexecutable, hcode⟩ := Option.bind_eq_some_iff.mp h
  rw [currentCode?, executable?_sweepHeap hexecutable]
  exact hcode

theorem currentCode?_compiled (request : Compilation) (labels : List Locations) :
    (machine.compiled request labels).currentCode? cell kind =
      if cell = request.owner ∧ kind = request.kind then
        (machine.heap.executable? request.owner).bind fun _ => some machine.nextCode
      else machine.currentCode? cell kind := by
  rw [← currentCode?_setCode]
  rfl

theorem currentCode?_replaced (block : Block) (executable : Executable) (entry : Entry)
    (tier : Tier) (labels : List Locations) (cell : Cell) (kind : Specialization) :
    (machine.replaced block executable entry tier labels).currentCode? cell kind =
      if cell = block.owner ∧ kind = block.kind then
        (machine.heap.executable? block.owner).bind fun _ => some machine.nextCode
      else machine.currentCode? cell kind := by
  have hbarriers := replaced_barriers machine block executable entry tier labels
  have hset : (machine.replaced block executable entry tier labels).currentCode? cell kind
      = (machine.setCode block.owner block.kind (some machine.nextCode)).currentCode? cell kind :=
    currentCode?_congr hbarriers.get? cell kind
  rw [hset, currentCode?_setCode]

theorem currentCode?_jettison (block : Block) (cell : Cell) (kind : Specialization) :
    (machine.jettison block).currentCode? cell kind =
      if machine.currentCode? cell kind = some block.id ∧ cell = block.owner ∧ kind = block.kind
      then none else machine.currentCode? cell kind := by
  obtain ⟨heap, hbarriers, hheap⟩ := jettison_heap machine block
  have hsame : ({ machine with heap } : Machine).currentCode? cell kind
      = machine.currentCode? cell kind := currentCode?_congr hbarriers.get? cell kind
  by_cases hcurrent : machine.currentCode? block.owner block.kind = some block.id
  · rw [if_pos hcurrent] at hheap
    have hset : (machine.jettison block).currentCode? cell kind
        = (({ machine with heap } : Machine).setCode block.owner block.kind none).currentCode?
          cell kind := currentCode?_congr (fun _ => by rw [hheap]; rfl) cell kind
    rw [hset, currentCode?_setCode, hsame]
    by_cases howned : cell = block.owner ∧ kind = block.kind
    · rw [if_pos howned, if_pos ⟨by rw [howned.1, howned.2, hcurrent], howned⟩]
      exact Option.bind_fun_none _
    · rw [if_neg howned, if_neg fun h => howned h.2]
  · rw [if_neg hcurrent] at hheap
    rw [if_neg, ← hsame]
    · exact currentCode?_congr (fun _ => by rw [hheap]) cell kind
    · rintro ⟨hcode, howner, hkind⟩
      rw [howner, hkind] at hcode
      exact hcurrent hcode

/-- An executable gets new code only when that code is compiled for it, or when it is allocated. -/
theorem Change.currentCode?_cases (h : Change may before after) (hnumbered : before.code.Numbered)
    (hcode : after.currentCode? cell kind = some id) :
    before.currentCode? cell kind = some id ∨ may (.adopting cell) ∨
      id = before.nextCode ∧ id.number ≤ after.code.lastNumber ∧
        ∀ block, after.code.get? id = some block → block.owner = cell ∧ block.kind = kind := by
  cases h with
  | bookkeeping hstore =>
      rw [currentCode?, show after.heap = before.heap from congrArg Store.heap hstore] at hcode
      exact .inl hcode
  | allocation entity hplain hmay =>
      rcases currentCode?_withCell hcode with hkept | ⟨hbrings, rfl⟩
      · exact .inl hkept
      · exact .inr (.inl (hmay hbrings))
  | barrier owner target =>
      exact .inl ((currentCode?_congr (fun _ => get?_writeBarrier) _ _).symm.trans hcode)
  | startMarking =>
      exact .inl ((currentCode?_congr (fun _ => get?_startMarking) _ _).symm.trans hcode)
  | markStep _ budget =>
      exact .inl ((currentCode?_congr (fun _ => get?_markStep budget) _ _).symm.trans hcode)
  | sweep => exact .inl (currentCode?_sweepHeap hcode)
  | profile => exact .inl hcode
  | giveUp => exact .inl hcode
  | install => exact .inl hcode
  | @compile request labels hexecutable =>
      rw [currentCode?_compiled] at hcode
      split at hcode
      · rename_i hsame
        obtain ⟨_, _, hnext⟩ := Option.bind_eq_some_iff.mp hcode
        obtain rfl := Option.some.inj hnext
        refine .inr (.inr ⟨rfl, Nat.le_refl _, fun block hblock => ?_⟩)
        have hnew : (before.compiled request labels).code.get? before.nextCode
            = some (before.assembled request labels) := hnumbered.get?_append_self rfl
        rw [hnew] at hblock
        rw [← Option.some.inj hblock, hsame.1, hsame.2]
        exact ⟨rfl, rfl⟩
      · exact .inl hcode
  | @replace old executable entry tier labels hold =>
      rw [currentCode?_replaced] at hcode
      split at hcode
      · rename_i hsame
        obtain ⟨_, _, hnext⟩ := Option.bind_eq_some_iff.mp hcode
        obtain rfl := Option.some.inj hnext
        have hevolves := replaced_evolves_compiled before old executable entry tier labels
        refine .inr (.inr ⟨rfl, hevolves.lastNumber_le, fun block hblock => ?_⟩)
        obtain ⟨origin, horigin, hbare⟩ := hevolves.block hblock (Nat.le_refl _)
        have hnew : (before.compiled (old.replacement executable entry tier) labels).code.get?
            before.nextCode
              = some (before.assembled (old.replacement executable entry tier) labels) :=
          hnumbered.get?_append_self rfl
        rw [hnew] at horigin
        obtain ⟨_, howner, _, hkind, _⟩ := Block.eq_of_bare hbare
        rw [howner, hkind, ← Option.some.inj horigin, hsame.1, hsame.2]
        exact ⟨rfl, rfl⟩
      · exact .inl hcode
  | @jettison block =>
      rw [currentCode?_jettison] at hcode
      split at hcode
      · cases hcode
      · exact .inl hcode
  | prune => exact .inl hcode

theorem Change.owned (h : Change may before after) (hnumbered : before.code.Numbered)
    (hadopts : ∀ cell, may (.adopting cell) → cell ∈ adopters) (howned : before.Owned adopters) :
    after.Owned adopters := by
  have hevolves := h.evolves hnumbered
  constructor
  · intro cell kind id hplain hcode
    rcases h.currentCode?_cases hnumbered hcode with hkept | hadopted | ⟨_, hgiven, _⟩
    · exact Nat.le_trans (howned.given hplain hkept) hevolves.lastNumber_le
    · exact absurd (hadopts cell hadopted) hplain
    · exact hgiven
  · intro cell kind block hplain hcode hblock
    rcases h.currentCode?_cases hnumbered hcode with hkept | hadopted | ⟨_, _, hnew⟩
    · obtain ⟨origin, horigin, hbare⟩ := hevolves.block hblock (howned.given hplain hkept)
      obtain ⟨hid, howner, _, hkind, _⟩ := Block.eq_of_bare hbare
      rw [hid] at hkept horigin
      rw [howner, hkind]
      exact howned.own hplain hkept horigin
    · exact absurd (hadopts cell hadopted) hplain
    · exact hnew block hblock

/-- A new closure is no executable. -/
theorem currentCode?_withClosure {closure : Closure}
    (h : (machine.withCell (.function closure)).currentCode? cell kind = some id) :
    machine.currentCode? cell kind = some id :=
  (currentCode?_withCell h).resolve_right fun hbrings => Bool.false_ne_true hbrings.1

theorem Owned.withClosure (h : machine.Owned adopters) (closure : Closure) :
    (machine.withCell (.function closure)).Owned adopters where
  given := fun hplain hcode => h.given hplain (currentCode?_withClosure hcode)
  own := fun hplain hcode hblock => h.own hplain (currentCode?_withClosure hcode) hblock

/-- Code that is not shared is the current code of its own executable only. -/
theorem owner_of_not_shared {block : Block} (h : machine.isShared block = false)
    (hcode : machine.currentCode? cell kind = some block.id) :
    cell = block.owner ∧ kind = block.kind := by
  obtain ⟨executable, hexecutable, _⟩ := Option.bind_eq_some_iff.mp hcode
  obtain ⟨slot, hslot⟩ := mem_occupied (executable?_eq_some_iff.mp hexecutable)
  rw [isShared, List.any_eq_false] at h
  have hnone := h (cell, slot) hslot
  rw [Bool.not_eq_true, List.any_eq_false] at hnone
  have hkind : kind ∈ [Specialization.call, .construct] := by cases kind <;> simp
  simpa [hcode] using hnone kind hkind

/-! ### The block that calls go to -/

/-- Calls to the closures of an executable go to the block with this number: it is the current code
for such calls, and they are no constructor calls unless the executable can construct. -/
def Serves (machine : Machine) (cell : Cell) (kind : Specialization) (id : CodeId) : Prop :=
  ∃ executable, machine.heap.executable? cell = some executable ∧ executable.code kind = some id ∧
    (kind = .construct → executable.constructible = true)

/-- The executable is there, and can construct if the calls are constructor calls. -/
def Suits (machine : Machine) (cell : Cell) (kind : Specialization) : Prop :=
  ∃ executable, machine.heap.executable? cell = some executable ∧
    (kind = .construct → executable.constructible = true)

theorem Serves.suits (h : machine.Serves cell kind id) : machine.Suits cell kind := by
  obtain ⟨executable, hexecutable, _, hconstruct⟩ := h
  exact ⟨executable, hexecutable, hconstruct⟩

/-- What a callee resolves to is the block that serves its executable. -/
theorem Resolves.serves {resolved : Resolved} (h : machine.Resolves kind resolved) :
    ∃ block, machine.code.get? resolved.target.block = some block ∧
      block.pointer = resolved.target ∧ machine.Serves resolved.executable kind block.id := by
  obtain ⟨executable, block, hexecutable, hcode, hblock, htarget, hconstruct⟩ := h.code
  exact ⟨block, by rw [← htarget]; exact hblock, htarget, executable, hexecutable, hcode,
    hconstruct⟩

section Serves

variable {block : Block}

theorem Serves.currentCode? (h : machine.Serves cell kind id) :
    machine.currentCode? cell kind = some id := by
  obtain ⟨executable, hexecutable, hcode, _⟩ := h
  rw [Machine.currentCode?, hexecutable]
  exact hcode

theorem Serves.congr (hget : ∀ cell, after.heap.get? cell = before.heap.get? cell)
    (h : before.Serves cell kind id) : after.Serves cell kind id := by
  rw [Serves, executable?, hget]
  exact h

theorem Serves.withCell (htidy : before.heap.Tidy) (entity : Entity)
    (h : before.Serves cell kind id) : (before.withCell entity).Serves cell kind id := by
  obtain ⟨executable, hexecutable, hcode⟩ := h
  exact ⟨executable, executable?_eq_some_iff.mpr
    (htidy.get?_allocate entity (executable?_eq_some_iff.mp hexecutable)), hcode⟩

/-- Another executable, or the other kind of code, gets or loses code. -/
theorem Serves.setCode {owner : Cell} {other : Specialization} {code : Option CodeId}
    (hheap : ∀ cell, after.heap.get? cell = (before.heap.setCode owner other code).get? cell)
    (hother : ¬ (cell = owner ∧ kind = other)) (h : before.Serves cell kind id) :
    after.Serves cell kind id := by
  obtain ⟨executable, hexecutable, hcode, hconstruct⟩ := h
  have hset : after.heap.executable? cell
      = (before.heap.setCode owner other code).executable? cell := by
    rw [executable?, hheap]
    rfl
  rw [executable?_setCode] at hset
  by_cases hsame : cell = owner
  · rw [if_pos hsame, ← hsame, hexecutable] at hset
    refine ⟨_, hset, ?_, fun hfor => ?_⟩
    · rw [Executable.code_setCode_of_ne _ _ _ fun heq => hother ⟨hsame, heq⟩]
      exact hcode
    · rw [Executable.setCode_constructible]
      exact hconstruct hfor
  · rw [if_neg hsame] at hset
    exact ⟨executable, hset.trans hexecutable, hcode, hconstruct⟩

/-- Code that is compiled takes the place of no code that is there. -/
theorem Serves.compiled {request : Compilation} (labels : List Locations)
    (hexecutable : before.heap.executable? request.owner = some request.executable)
    (hmissing : ∀ id, request.executable.code request.kind = some id →
      before.code.contains id = false)
    (hlive : before.code.contains id = true) (h : before.Serves cell kind id) :
    (before.compiled request labels).Serves cell kind id := by
  refine Serves.setCode (fun _ => rfl) ?_ h
  rintro ⟨rfl, rfl⟩
  obtain ⟨executable, hfound, hcode, _⟩ := h
  obtain rfl := Option.some.inj (hexecutable.symm.trans hfound)
  rw [hmissing id hcode] at hlive
  cases hlive

/-- Discarding a block leaves the code of executables alone, but for the block itself. -/
theorem Serves.jettison (hne : id ≠ block.id) (h : before.Serves cell kind id) :
    (before.jettison block).Serves cell kind id := by
  obtain ⟨heap, hbarriers, hheap⟩ := jettison_heap before block
  by_cases hcurrent : before.currentCode? block.owner block.kind = some block.id
  · rw [if_pos hcurrent] at hheap
    have hmarked : ({ before with heap } : Machine).Serves cell kind id := h.congr hbarriers.get?
    refine hmarked.setCode (fun cell => by rw [hheap]) ?_
    rintro ⟨rfl, rfl⟩
    exact hne (Option.some.inj (h.currentCode?.symm.trans hcurrent))
  · rw [if_neg hcurrent] at hheap
    exact h.congr fun cell => by rw [hheap, hbarriers.get?]

/-- Replacing a block leaves the code of other executables alone. -/
theorem Serves.replaced_other {executable : Executable} (entry : Entry) (tier : Tier)
    (labels : List Locations) (hother : ¬ (cell = block.owner ∧ kind = block.kind))
    (h : before.Serves cell kind id) :
    (before.replaced block executable entry tier labels).Serves cell kind id :=
  h.setCode (replaced_barriers before block executable entry tier labels).get? hother

/-- The new block serves the executable of the block that it replaces. -/
theorem Suits.replaced {executable : Executable} (entry : Entry) (tier : Tier)
    (labels : List Locations) (h : before.Suits block.owner block.kind) :
    (before.replaced block executable entry tier labels).Serves block.owner block.kind
      before.nextCode := by
  obtain ⟨known, hknown, hconstruct⟩ := h
  have hbarriers := replaced_barriers before block executable entry tier labels
  have hset : (before.replaced block executable entry tier labels).heap.executable? block.owner
      = (before.heap.setCode block.owner block.kind (some before.nextCode)).executable?
        block.owner := by
    rw [executable?, hbarriers.get?]
    rfl
  rw [executable?_setCode, if_pos rfl, hknown, Option.map_some] at hset
  refine ⟨_, hset, Executable.code_setCode_self _ _ _, fun hfor => ?_⟩
  rw [Executable.setCode_constructible]
  exact hconstruct hfor

end Serves

end Machine

end InlineCache
