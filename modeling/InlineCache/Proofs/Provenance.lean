import InlineCache.Proofs.Code.Provenance
import InlineCache.Proofs.Incoming
import InlineCache.Proofs.Ownership

/-!
# Routes along changes

Discarding a block takes routes away, replacing a block moves the routes that go to it, and a sweep
takes the routes that name dead cells. Otherwise routes change only where a call is linked.
-/

namespace InlineCache.Machine

open CodeTable

variable {machine : Machine} {old : CodeId} {site : SiteRef}

theorem upgradeSite_follows (machine : Machine) (old : CodeId) (site : SiteRef)
    (new : CodePointer) :
    machine.code.Follows (Link.Moves old new) (machine.upgradeSite old site new).code := by
  have hrefl := Link.Moves.refl old new
  rw [upgradeSite_code]
  rcases hlink : machine.code.link? site with _ | link <;> dsimp only
  · exact (Follows.refl _).of_eq hrefl
  · split
    · have hmoved : machine.code.Follows (Link.Moves old new)
          (machine.code.setLink site (link.retarget old (some new)).2.link) :=
        .setLink hrefl hlink (link.retarget_some_follows old new)
      refine hmoved.trans Link.Moves.trans ((Follows.of_link? fun elsewhere => ?_).of_eq hrefl)
      exact link?_update (fun _ => Block.addIncoming_id _ _) fun _ => Block.addIncoming_links _ _
    · exact .setLink hrefl hlink (.refl hrefl link)

theorem clearIncoming_follows (machine : Machine) (id : CodeId) :
    machine.code.Follows Eq (machine.clearIncoming id).code :=
  .of_link? fun _ => link?_update (fun _ => rfl) fun _ => rfl

theorem foldl_follows {relation : Guard × CodePointer → Guard × CodePointer → Prop}
    {step : Machine → SiteRef → Machine} (hrefl : ∀ route, relation route route)
    (htrans : ∀ {first second third}, relation first second → relation second third →
      relation first third)
    (hstep : ∀ (machine : Machine) (site : SiteRef),
      machine.code.Follows relation (step machine site).code)
    (machine : Machine) (sites : List SiteRef) :
    machine.code.Follows relation (sites.foldl step machine).code := by
  induction sites generalizing machine with
  | nil => exact (Follows.refl _).of_eq hrefl
  | cons site rest ih => exact (hstep machine site).trans htrans (ih (step machine site))

theorem compiled_follows (request : Compilation) (labels : List Locations)
    (hnumbered : machine.code.Numbered) :
    machine.code.Follows Eq (machine.compiled request labels).code := by
  refine .append hnumbered rfl fun link hmem => ?_
  obtain ⟨⟨descriptor, locations⟩, _, rfl⟩ := List.mem_map.mp hmem
  rfl

/-- Replacing a block moves the routes that go to it. -/
theorem replaced_follows {block : Block} (executable : Executable) (entry : Entry) (tier : Tier)
    (labels : List Locations) (hnumbered : machine.code.Numbered) :
    machine.code.Follows (Link.Moves block.id ⟨machine.nextCode, entry⟩)
      (machine.replaced block executable entry tier labels).code := by
  have hcompiled := compiled_follows (block.replacement executable entry tier) labels hnumbered
  have hcleared := hcompiled.after_eq (clearIncoming_follows _ block.id)
  rw [replaced, upgradeSites_eq_foldl]
  refine hcleared.after_eq ?_
  exact foldl_follows (Link.Moves.refl _ _) Link.Moves.trans
    (fun moved site => upgradeSite_follows moved block.id site ⟨machine.nextCode, entry⟩) _ _

theorem dropSite_follows (machine : Machine) (old : CodeId) (site : SiteRef) :
    machine.code.Follows Eq (machine.dropSite old site).code := by
  rw [dropSite_code_eq]
  rcases hlink : machine.code.link? site with _ | link <;> dsimp only
  · exact .refl _
  · exact .setLink (fun _ => rfl) hlink (link.retarget_none_follows old)

theorem jettison_follows (machine : Machine) (block : Block) (hnumbered : machine.code.Numbered) :
    machine.code.Follows Eq (machine.jettison block).code := by
  have hdropped : machine.code.Follows Eq _ := (clearIncoming_follows machine block.id).after_eq
    (foldl_follows (fun _ => rfl) Eq.trans
      (fun moved site => dropSite_follows moved block.id site) _ block.incoming)
  have hstill := ((clearIncoming_evolves machine block.id).trans (foldl_evolves _
    (fun machine site => dropSite_evolves machine block.id site) block.incoming)).numbered hnumbered
  rw [jettison, report]
  dsimp only
  rw [releaseCode_code, revertLinks_code _ _ hstill]
  exact (hdropped.after_eq (.revert _ block.id)).after_eq (.remove _ block.id)

/-! ### Every change -/

/-- A change after which routes, closures and the code that serves are as before, as far as they are
still there. -/
structure Quiet (before after : Machine) : Prop where
  follows : before.code.Follows Eq after.code
  closure : ∀ {cell closure}, before.heap.Tidy → before.heap.closure? cell = some closure →
    after.heap.closure? cell = some closure
  serves : ∀ {cell kind id}, before.heap.Tidy → before.code.contains id = true →
    after.code.contains id = true → before.Serves cell kind id → after.Serves cell kind id

theorem Quiet.of_get? {before after : Machine} (hfollows : before.code.Follows Eq after.code)
    (hget : ∀ cell, after.heap.get? cell = before.heap.get? cell) : Quiet before after where
  follows := hfollows
  closure := by
    intro cell closure _ hcell
    rwa [Heap.closure?, hget]
  serves := fun _ _ _ hserves => hserves.congr hget

theorem Quiet.withCell (machine : Machine) (entity : Entity) :
    Quiet machine (machine.withCell entity) where
  follows := .refl _
  closure := fun htidy hcell => htidy.closure?_allocate entity hcell
  serves := fun htidy _ _ hserves => hserves.withCell htidy entity

theorem Quiet.executableOf? {before after : Machine} (h : Quiet before after)
    (htidy : before.heap.Tidy) {cell executable : Cell}
    (hcell : before.heap.executableOf? cell = some executable) :
    after.heap.executableOf? cell = some executable := by
  obtain ⟨closure, hclosure, hexecutable⟩ := Option.map_eq_some_iff.mp hcell
  exact Option.map_eq_some_iff.mpr ⟨closure, h.closure htidy hclosure, hexecutable⟩

/-- A change is quiet unless a call is linked, a block is replaced or the heap is swept. -/
theorem Change.cases {may : Work → Prop} {before after : Machine}
    (h : Change may before after) (hnumbered : before.code.Numbered) :
    Quiet before after ∨
    (may .collecting ∧ after = before.sweepHeap.2) ∨
    (∃ block executable entry tier labels, before.code.get? block.id = some block ∧
      may (.replacing (before.isCurrent block) (before.isShared block)) ∧
      after = before.replaced block executable entry tier labels) ∨
    ∃ site link changed owner resolved codes, before.code.link? site = some link ∧
      before.Resolves link.callType.specialization resolved ∧
      link.Installs before.heap owner before.config.polymorphicCapacity resolved changed codes ∧
      before.SameRealm site resolved.callee ∧
      after =
        { before with code := (before.code.setLink site changed).noteIncoming codes site } := by
  have hset : ∀ {site : SiteRef} {link changed : Link}, before.code.link? site = some link →
      link.Follows Eq changed → before.code.Follows Eq (before.code.setLink site changed) :=
    fun hlink => .setLink (fun _ => rfl) hlink
  cases h with
  | bookkeeping hstore =>
      refine .inl (.of_get? ?_ ?_)
      · rw [show after.code = before.code from congrArg Store.code hstore]
        exact .refl _
      · rw [show after.heap = before.heap from congrArg Store.heap hstore]
        exact fun _ => rfl
  | allocation entity => exact .inl (.withCell before entity)
  | barrier => exact .inl (.of_get? (.refl _) fun _ => Heap.get?_writeBarrier)
  | startMarking => exact .inl (.of_get? (.refl _) fun _ => Heap.get?_startMarking)
  | markStep _ budget => exact .inl (.of_get? (.refl _) fun _ => Heap.get?_markStep budget)
  | sweep hmay => exact .inr (.inl ⟨hmay, rfl⟩)
  | profile hlink hprofiled => exact .inl (.of_get? (hset hlink hprofiled.follows) fun _ => rfl)
  | giveUp hlink hafter =>
      refine .inl (.of_get? (hset hlink ?_) fun _ => rfl)
      rcases hafter with rfl | rfl
      · exact Link.setVirtual_follows _
      · exact Link.disallowStubs_follows _
  | install hlink hresolves hinstalls hrealm =>
      exact .inr (.inr (.inr ⟨_, _, _, _, _, _, hlink, hresolves, hinstalls, hrealm, rfl⟩))
  | compile labels hexecutable hmissing =>
      refine .inl ⟨compiled_follows _ labels hnumbered, fun _ hcell => ?_, ?_⟩
      · exact Heap.closure?_setCode.trans hcell
      · exact fun _ hlive _ hserves => hserves.compiled labels hexecutable hmissing hlive
  | @replace block executable entry tier labels hblock hexecutable hmay =>
      exact .inr (.inr (.inl ⟨block, executable, entry, tier, labels, hblock, hmay, rfl⟩))
  | @jettison block =>
      refine .inl ⟨jettison_follows before block hnumbered, fun _ hcell => ?_, ?_⟩
      · exact (closure?_jettison before block _).trans hcell
      · refine fun _ _ hkept hserves => hserves.jettison ?_
        rintro rfl
        obtain ⟨found, hfound⟩ := contains_iff.mp hkept
        exact absurd (hfound.symm.trans get?_remove_self) (by simp)
  | prune => exact .inl (.of_get? (.of_link? fun _ => link?_pruneIncoming) fun _ => rfl)

end InlineCache.Machine
