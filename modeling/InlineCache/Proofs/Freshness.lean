import InlineCache.Proofs.Placement

/-!
# Links that are up to date

As long as nothing is collected, and no code is replaced but the current code of its own executable
that no other executable shares, every route goes to the block that serves the callees which pass
its guard: going along a route and resolving the callee lead to the same code.
-/

namespace InlineCache

/-- Nothing is collected, and code is replaced only if it is the current code of its executable and
of nothing else. -/
def Work.KeepsLinks : Work → Prop
  | .collecting => False
  | .replacing current shared => current = true ∧ shared = false
  | .adopting _ => True

namespace Machine

open CodeTable Heap

variable {machine before after : Machine}

structure Fresh (machine : Machine) : Prop where
  idle : machine.heap.phase = .idle
  tidy : machine.heap.Tidy
  linked : machine.code.Linked
  placed : machine.code.Placed fun kind guard block =>
    ∃ executable, guard.Names machine.heap executable ∧ machine.Serves executable kind block.id

theorem Change.idle (h : Change Work.KeepsLinks before after)
    (hidle : before.heap.phase = .idle) : after.heap.phase = .idle := by
  cases h with
  | bookkeeping hstore =>
      rw [show after.heap = before.heap from congrArg Store.heap hstore]
      exact hidle
  | allocation entity => exact (allocate_phase _ _).trans hidle
  | barrier owner target => rw [writeBarrier_phase, hidle]
  | startMarking hmay => exact hmay.elim
  | markStep hmay => exact hmay.elim
  | sweep hmay => exact hmay.elim
  | profile => exact hidle
  | giveUp => exact hidle
  | install => exact hidle
  | compile labels => exact setCode_phase.trans hidle
  | @replace block executable entry tier labels =>
      rw [(replaced_barriers before block executable entry tier labels).phase, setCode_phase, hidle]
  | @jettison block =>
      obtain ⟨heap, hbarriers, hheap⟩ := jettison_heap before block
      rw [hheap]
      split
      · rw [setCode_phase, hbarriers.phase, hidle]
      · rw [hbarriers.phase, hidle]
  | prune => exact hidle

theorem Quiet.placed_fresh (h : Quiet before after) (hnumbered : before.code.Numbered)
    (hevolves : before.code.Evolves after.code) (hlinked : after.code.Linked)
    (hfresh : before.Fresh) : after.code.Placed fun kind guard block =>
      ∃ executable, guard.Names after.heap executable ∧ after.Serves executable kind block.id := by
  refine hfresh.placed.keep hnumbered hevolves hlinked h.follows id ?_
  rintro kind guard pointer origin found _ horigin hfound hbare ⟨executable, hnames, hserves⟩
  refine ⟨executable, hnames.congr fun cell _ hcell => h.executableOf? hfresh.tidy hcell, ?_⟩
  have hid := (Block.eq_of_bare hbare).1
  rw [hid] at hfound ⊢
  exact h.serves hfresh.tidy (contains_iff.mpr ⟨_, horigin⟩) (contains_iff.mpr ⟨_, hfound⟩) hserves

theorem Change.fresh (h : Change Work.KeepsLinks before after)
    (hnumbered : before.code.Numbered) (hfresh : before.Fresh) : after.Fresh := by
  have hidle := h.idle hfresh.idle
  have htidy : after.heap.Tidy := h.tidy (fun hmay => hmay.elim) hfresh.tidy
  have hlinked := h.linked hnumbered hfresh.linked
  refine ⟨hidle, htidy, hlinked, ?_⟩
  rcases h.cases hnumbered with hquiet | ⟨hmay, _⟩ |
    ⟨block, template, entry, tier, labels, hblock, ⟨hcurrent, hexclusive⟩, rfl⟩ |
    ⟨site, link, changed, owner, resolved, codes, hlink, hresolves, hinstalls, _, rfl⟩
  · exact hquiet.placed_fresh hnumbered (h.evolves hnumbered) hlinked hfresh
  · exact hmay.elim
  · refine replaced_placed template entry tier labels hnumbered hblock hfresh.linked ?_ ?_
      hfresh.placed
    · rintro kind guard origin found hne _ hbare ⟨executable, hnames, hserves⟩
      refine ⟨executable, hnames.replaced, ?_⟩
      rw [(Block.eq_of_bare hbare).1]
      refine hserves.replaced_other entry tier labels ?_
      rintro ⟨rfl, rfl⟩
      have hcode := hserves.currentCode?
      rw [beq_iff_eq.mp hcurrent] at hcode
      exact hne (Option.some.inj hcode).symm
    · rintro kind guard found hbare ⟨executable, hnames, hserves⟩
      obtain ⟨rfl, rfl⟩ := owner_of_not_shared hexclusive hserves.currentCode?
      refine ⟨block.owner, hnames.replaced, ?_⟩
      rw [(Block.eq_of_bare hbare).1]
      exact hserves.suits.replaced entry tier labels
  · refine install_placed ?_ ?_ ?_ hfresh.placed hnumbered hlink hresolves hinstalls
      (h.evolves hnumbered) hlinked
    · rintro kind guard origin found hbare ⟨executable, hnames, hserves⟩
      rw [(Block.eq_of_bare hbare).1]
      exact ⟨executable, hnames, hserves⟩
    · rintro kind guard guard' block hsame ⟨executable, hnames, hserves⟩
      exact ⟨executable, hsame _ hnames, hserves⟩
    · exact fun hnames _ hserves => ⟨_, hnames, hserves⟩

theorem Changes.fresh (h : Changes Work.KeepsLinks before after)
    (hnumbered : before.code.Numbered) (hfresh : before.Fresh) :
    after.code.Numbered ∧ after.Fresh := by
  induction h with
  | refl => exact ⟨hnumbered, hfresh⟩
  | tail _ hlast ih => exact ⟨(hlast.evolves ih.1).numbered ih.1, hlast.fresh ih.1 ih.2⟩

theorem Fresh.withClosure (h : machine.Fresh) (hnumbered : machine.code.Numbered)
    (closure : Closure) : (machine.withCell (.function closure)).Fresh := by
  refine ⟨(allocate_phase _ _).trans h.idle, h.tidy.allocate _, h.linked, ?_⟩
  exact (Quiet.withCell machine _).placed_fresh hnumbered (.refl _) h.linked h

end Machine

end InlineCache
