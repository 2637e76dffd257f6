import InlineCache.Proofs.Crowding
import InlineCache.Proofs.Stages

/-!
# What is cached is right

A slot sends a call to a block of the callee's own executable, compiled for the kind of call that
the site makes. Whether a guard still says what its callee is depends on the cells that it names.
They stay what they are as long as they are live, since an allocation takes an empty slot, and a
guard loses its route when they die.
-/

namespace InlineCache

namespace Machine

open CodeTable Heap

variable {may : Work → Prop} {machine before after : Machine} {adopters : List Cell}

/-- What is cached is what the callees are, unless the executable of the callee brought code along.
Where there are more slots than handles, a guard may be wrong about its callee. -/
structure Faithful (machine : Machine) (adopters : List Cell) : Prop extends Orderly machine where
  owned : machine.Owned adopters
  placed : machine.code.Placed fun kind guard block => machine.heap.Addressable →
    ∃ executable, guard.Names machine.heap executable ∧
      (executable ∉ adopters → block.owner = executable ∧ block.kind = kind)

theorem sweepHeap_placed (h : before.Faithful adopters) :
    before.sweepHeap.2.code.Placed fun kind guard block => before.sweepHeap.2.heap.Addressable →
      ∃ executable, guard.Names before.sweepHeap.2.heap executable ∧
        (executable ∉ adopters → block.owner = executable ∧ block.kind = kind) := by
  have hchange : Change anyWork before before.sweepHeap.2 := .sweep trivial
  have hevolves := hchange.evolves h.numbered
  have hafter := hchange.linked h.numbered h.linked
  obtain ⟨marked, _, hget, hheap, hcode⟩ := sweepHeap_marked before
  have hfollows := Follows.visitWeak before.code marked.isMarked before.stats
  rw [← hcode] at hfollows
  refine h.placed.keep h.numbered hevolves hafter hfollows And.left ?_
  rintro kind guard pointer origin found ⟨_, hlive⟩ _ _ hbare hfits haddressable
  obtain ⟨executable, hnames, hown⟩ := hfits (hchange.addressable haddressable)
  obtain ⟨_, howner, _, hkind, _⟩ := Block.eq_of_bare hbare
  rw [howner, hkind]
  refine ⟨executable, hnames.congr fun cell hcell hclosure => ?_, hown⟩
  have hmarked : marked.isMarked cell = true := List.all_eq_true.mp hlive cell hcell
  have hswept : marked.reclaim.2.get? cell = marked.sweep.get? cell := rfl
  rw [executableOf?, closure?, hheap, hswept, get?_sweep, if_pos hmarked, hget]
  exact hclosure

theorem Quiet.placed (h : Quiet before after)
    (hevolves : before.code.Evolves after.code) (hlinked : after.code.Linked)
    (haddressable : after.heap.Addressable → before.heap.Addressable)
    (hfaithful : before.Faithful adopters) :
    after.code.Placed fun kind guard block => after.heap.Addressable →
      ∃ executable, guard.Names after.heap executable ∧
        (executable ∉ adopters → block.owner = executable ∧ block.kind = kind) := by
  refine hfaithful.placed.keep hfaithful.numbered hevolves hlinked h.follows id ?_
  intro kind guard pointer origin found _ _ _ hbare hfits hafter
  have hbefore := haddressable hafter
  obtain ⟨executable, hnames, hown⟩ := hfits hbefore
  obtain ⟨_, howner, _, hkind, _⟩ := Block.eq_of_bare hbare
  rw [howner, hkind]
  exact ⟨executable,
    hnames.congr fun cell _ hcell => h.executableOf? (hfaithful.tidy hbefore) hcell, hown⟩

theorem Change.faithful (h : Change may before after)
    (hadopts : ∀ cell, may (.adopting cell) → cell ∈ adopters)
    (hfaithful : before.Faithful adopters) : after.Faithful adopters := by
  have hnumbered := hfaithful.numbered
  have horderly := h.orderly hfaithful.toOrderly
  have hlinked := horderly.linked
  refine ⟨horderly, h.owned hnumbered hadopts hfaithful.owned, ?_⟩
  rcases h.cases hnumbered with hquiet | ⟨_, rfl⟩ |
    ⟨block, executable, entry, tier, labels, hblock, _, rfl⟩ |
    ⟨site, link, changed, owner, resolved, codes, hlink, hresolves, hinstalls, _, rfl⟩
  · exact hquiet.placed (h.evolves hnumbered) hlinked h.addressable hfaithful
  · exact sweepHeap_placed hfaithful
  · refine replaced_placed executable entry tier labels hnumbered hblock hfaithful.linked ?_ ?_
      hfaithful.placed
    · intro kind guard origin found _ _ hbare hfits hafter
      obtain ⟨named, hnames, hown⟩ := hfits (h.addressable hafter)
      obtain ⟨_, howner, _, hkind, _⟩ := Block.eq_of_bare hbare
      rw [howner, hkind]
      exact ⟨named, hnames.replaced, hown⟩
    · intro kind guard found hbare hfits hafter
      obtain ⟨named, hnames, hown⟩ := hfits (h.addressable hafter)
      obtain ⟨_, howner, _, hkind, _⟩ := Block.eq_of_bare hbare
      rw [howner, hkind]
      exact ⟨named, hnames.replaced, hown⟩
  · refine install_placed ?_ ?_ ?_ hfaithful.placed hnumbered hlink hresolves hinstalls
      (h.evolves hnumbered) hlinked
    · intro kind guard origin found hbare hfits
      obtain ⟨_, howner, _, hkind, _⟩ := Block.eq_of_bare hbare
      rw [howner, hkind]
      exact hfits
    · intro kind guard guard' block hsame hfits haddressable
      obtain ⟨named, hnames, hown⟩ := hfits haddressable
      exact ⟨named, hsame _ hnames, hown⟩
    · intro guard block named hnames hblock hserves _
      exact ⟨named, hnames, fun hplain => hfaithful.owned.own hplain hserves.currentCode? hblock⟩

theorem Changes.faithful (h : Changes may before after)
    (hadopts : ∀ cell, may (.adopting cell) → cell ∈ adopters)
    (hfaithful : before.Faithful adopters) : after.Faithful adopters :=
  h.preserves (fun machine => machine.Faithful adopters)
    (fun hchange => hchange.faithful hadopts) hfaithful

/-- What each stage preserves is preserved by all of them, if the stages keep what is cached
right. -/
theorem Stages.preserves_faithful {stack : List Cell} (invariant : Machine → Prop)
    (hadopts : ∀ cell, may (.adopting cell) → cell ∈ adopters)
    (hstage : ∀ {before after}, before.Faithful adopters → Stage may stack before after →
      invariant before → invariant after)
    (h : Stages may stack before after) (hfaithful : before.Faithful adopters)
    (hbefore : invariant before) : after.Faithful adopters ∧ invariant after := by
  induction h with
  | refl => exact ⟨hfaithful, hbefore⟩
  | tail _ hlast ih =>
      exact ⟨(hlast.changes_adopting hadopts).faithful (fun _ hmay => hmay _ rfl) ih.1,
        hstage ih.1 hlast ih.2⟩

theorem Faithful.withClosure (h : machine.Faithful adopters) (closure : Closure) :
    (machine.withCell (.function closure)).Faithful adopters :=
  ⟨h.toOrderly.withClosure closure, h.owned.withClosure closure,
    (Quiet.withCell machine (.function closure)).placed (.refl _) h.linked
      (Nat.le_trans (length_slots_allocate _)) h⟩

theorem faithful_of_create {config : Config} (h : Machine.create config = .ok machine) :
    machine.Faithful adopters := by
  have horderly := orderly_of_create h
  rw [Machine.create_eq_ok h] at horderly ⊢
  exact ⟨horderly, ⟨fun _ hcode => (nomatch hcode), fun _ hcode => (nomatch hcode)⟩,
    ⟨fun hlink => (nomatch hlink)⟩⟩

/-- Every stub at a site has the shape that the configuration asks for. -/
def Shaped (machine : Machine) : Prop :=
  ∀ {site link}, machine.code.link? site = some link →
    link.Shaped machine.config.polymorphicCapacity

theorem Change.shaped (h : Change may before after) (hnumbered : before.code.Numbered)
    (hshaped : before.Shaped) : after.Shaped := by
  rw [Shaped, h.config_eq]
  rcases h.cases hnumbered with hquiet | ⟨_, rfl⟩ |
    ⟨block, executable, entry, tier, labels, _, _, rfl⟩ |
    ⟨site, link, changed, owner, resolved, codes, hlink, _, hinstalls, _, rfl⟩
  · exact hquiet.follows.shaped hshaped
  · obtain ⟨marked, _, _, _, hcode⟩ := sweepHeap_marked before
    rw [hcode]
    exact (Follows.visitWeak _ _ _).shaped hshaped
  · exact (replaced_follows executable entry tier labels hnumbered).shaped hshaped
  · exact install_shaped hshaped hlink hinstalls

end Machine

namespace Execution

open Machine

variable {config : Config} {machine : Machine}

theorem step_faithful {execution : Execution} {request : Request} {adopters : List Cell}
    (h : execution.machine.Faithful adopters)
    (hadopts : request.adopts execution.machine ⊆ adopters) :
    (execution.step request).2.machine.Faithful adopters :=
  (step_preserves (fun machine => machine.Faithful adopters)
    (fun _ hchange => hchange.faithful fun _ hmay => hmay _ rfl)
    (fun _ _ hfaithful => hfaithful.withClosure _) execution request h.numbered
    (adoptingIn_of_needs hadopts) h).2

theorem faithful_run (hcreate : Machine.create config = .ok machine) (requests : List Request) :
    (run ⟨machine, []⟩ requests).machine.Faithful (adopters ⟨machine, []⟩ requests) :=
  (run_preserves_adopting (fun machine => machine.Faithful (adopters _ requests))
    (fun _ hchange => hchange.faithful fun _ hmay => hmay _ rfl)
    (fun _ _ hfaithful => hfaithful.withClosure _) ⟨machine, []⟩ requests (List.Subset.refl _)
    (numbered_of_create hcreate) (faithful_of_create hcreate)).2

theorem shaped_run (hcreate : Machine.create config = .ok machine) (requests : List Request) :
    (run ⟨machine, []⟩ requests).machine.Shaped := by
  refine (run_preserves Machine.Shaped (fun hnumbered hchange => hchange.shaped hnumbered)
    (fun _ _ hshaped => hshaped) ⟨machine, []⟩ requests (numbered_of_create hcreate) ?_).2
  rw [create_eq_ok hcreate]
  exact fun hlink => (nomatch hlink)

/-- In every state that a new machine gets into, a slot of a site that is not direct sends a call
only to a live block. As long as every slot of the heap has a handle of its own, the callee is then
a live closure, and unless its executable brought code along, the block was compiled for the
executable and for the kind of call that the site makes. Every stub at a site has a case, has no
more cases than the capacity, has one case for an executable, and has cases of one width. -/
theorem cached_code_is_of_callee (hcreate : Machine.create config = .ok machine)
    (requests : List Request) :
    let before : Execution := ⟨machine, []⟩
    let after := (before.run requests).machine
    ∀ site link, after.code.link? site = some link →
      (∀ callee pointer, link.isDirect = false →
        link.site.target.fast? after.heap callee = some pointer →
        ∃ block, after.code.get? pointer.block = some block ∧ block.pointer = pointer ∧
          (after.heap.Addressable → ∃ closure,
            after.heap.get? callee = some (.function closure) ∧
              (closure.executable ∉ before.adopters requests →
                block.owner = closure.executable ∧
                  block.kind = link.callType.specialization))) ∧
      ∀ stub, link.site.target = .stub stub ∨ link.state = .polymorphic stub →
        stub.WellShaped config.polymorphicCapacity := by
  intro before after site link hlink
  have hfaithful := faithful_run hcreate requests
  have hagrees := hfaithful.linked.agrees hlink
  refine ⟨fun callee pointer hdirect hfast => ?_, fun stub hstub => ?_⟩
  · obtain ⟨guard, hroute, hcallee⟩ := hagrees.route_of_fast? hdirect hfast
    obtain ⟨block, hblock, hpointer, hfits⟩ := hfaithful.placed.block hlink _ hroute
    refine ⟨block, hblock, hpointer, fun haddressable => ?_⟩
    obtain ⟨executable, hnames, hown⟩ := hfits haddressable
    obtain ⟨closure, hclosure, rfl⟩ := Option.map_eq_some_iff.mp (hcallee _ hnames)
    exact ⟨closure, Heap.closure?_eq_some_iff.mp hclosure, hown⟩
  · have hconfig : after.config = machine.config :=
      config_run before requests (numbered_of_create hcreate)
    have hsame : machine.config = config := by rw [create_eq_ok hcreate]
    rw [← hsame, ← hconfig]
    exact shaped_run hcreate requests hlink stub (hagrees.state_of_stub hstub)

/-- Two closures of one executable are called at a site, one after the other. -/
def siblingCalls : List Request :=
  [.order (.allocateExecutable { name := "caller", entry := ⟨0⟩, sites := [⟨.call, 0⟩] }),
   .order (.allocateExecutable { name := "callee", entry := ⟨1⟩ }),
   .order (.createClosure ⟨0, 0⟩ {} []),
   .order (.createClosure ⟨1, 0⟩ {} []),
   .order (.createClosure ⟨1, 0⟩ {} []),
   .order (.createClosure ⟨1, 0⟩ {} []),
   .hostCall (.cell ⟨2, 0⟩) .undefined [] .call,
   .siteCall ⟨⟨⟨1⟩, 0⟩, .cell ⟨3, 0⟩, .undefined, [], false⟩,
   .finish (.ok .undefined),
   .siteCall ⟨⟨⟨1⟩, 0⟩, .cell ⟨4, 0⟩, .undefined, [], false⟩]

theorem cached_code_is_of_sibling :
    ∃ (machine : Machine) (link : Link) (block : Block) (closure : Closure),
      Machine.create {} = .ok machine ∧
      (run ⟨machine, []⟩ siblingCalls).machine.code.link? ⟨⟨1⟩, 0⟩ = some link ∧
      link.site.target.fast? (run ⟨machine, []⟩ siblingCalls).machine.heap ⟨5, 0⟩
        = some ⟨⟨2⟩, ⟨1⟩⟩ ∧
      (run ⟨machine, []⟩ siblingCalls).machine.code.get? ⟨2⟩ = some block ∧
      (run ⟨machine, []⟩ siblingCalls).machine.heap.get? ⟨5, 0⟩ = some (.function closure) ∧
      block.owner = closure.executable := by
  obtain ⟨machine, hcreate⟩ : ∃ machine, Machine.create {} = .ok machine := ⟨_, rfl⟩
  have hmachine := create_eq_ok hcreate
  have hsound := cached_code_is_of_callee hcreate siblingCalls
  dsimp only at hsound
  have hadopters : adopters ⟨machine, []⟩ siblingCalls = [] := by
    rw [hmachine]
    decide +kernel
  generalize hafter : (run ⟨machine, []⟩ siblingCalls).machine = after at hsound
  have haddressable : after.heap.Addressable := by
    rw [← hafter, hmachine, Heap.Addressable]
    decide +kernel
  have hfast : (after.code.link? ⟨⟨1⟩, 0⟩).any (fun link => !link.isDirect &&
      link.site.target.fast? after.heap ⟨5, 0⟩ == some ⟨⟨2⟩, ⟨1⟩⟩) = true := by
    rw [← hafter, hmachine]
    decide +kernel
  rcases hlink : after.code.link? ⟨⟨1⟩, 0⟩ with _ | link <;> rw [hlink] at hfast
  · cases hfast
  · rw [Option.any_some, Bool.and_eq_true, Bool.not_eq_true', beq_iff_eq] at hfast
    obtain ⟨block, hblock, _, hcallee⟩ := (hsound _ link hlink).1 ⟨5, 0⟩ _ hfast.1 hfast.2
    obtain ⟨closure, hclosure, howner⟩ := hcallee haddressable
    have hplain : closure.executable ∉ adopters ⟨machine, []⟩ siblingCalls := by
      rw [hadopters]
      exact List.not_mem_nil
    rw [← hafter] at hlink hfast hblock hclosure
    exact ⟨machine, link, block, closure, hcreate, hlink, hfast.2, hblock, hclosure,
      (howner hplain).1⟩

/-- A closure is called at a site of a caller, which goes on. The closure is a root. -/
def rootedCall : List Request :=
  [.order (.allocateExecutable { name := "caller", entry := ⟨0⟩, sites := [⟨.call, 0⟩] }),
   .order (.allocateExecutable { name := "callee", entry := ⟨1⟩ }),
   .order (.createClosure ⟨0, 0⟩ {} []),
   .order (.createClosure ⟨1, 0⟩ {} []),
   .order (.addRoot ⟨3, 0⟩),
   .hostCall (.cell ⟨2, 0⟩) .undefined [] .call,
   .siteCall ⟨⟨⟨1⟩, 0⟩, .cell ⟨3, 0⟩, .undefined, [], false⟩,
   .finish (.ok .undefined)]

theorem callee_overwritten : ∃ (machine : Machine) (requests : List Request) (link : Link),
    let after := run ⟨machine, []⟩ requests
    Machine.create {} = .ok machine ∧ adopters ⟨machine, []⟩ requests = [] ∧
      after.machine.code.link? ⟨⟨1⟩, 0⟩ = some link ∧ link.callType = .call ∧
      link.mode = .monomorphic ∧ link.site.target = .guarded ⟨3, 0⟩ ⟨⟨2⟩, ⟨1⟩⟩ ∧
      after.machine.heap.get? ⟨3, 0⟩ = some (.object none) ∧
      after.machine.heap.isMarking = false ∧ after.machine.heap.shouldCollect = false := by
  obtain ⟨machine, hcreate⟩ : ∃ machine, Machine.create {} = .ok machine := ⟨_, rfl⟩
  have hmachine := create_eq_ok hcreate
  obtain ⟨before, hbefore⟩ : ∃ before, before = run ⟨machine, []⟩ rootedCall := ⟨_, rfl⟩
  have hreachable : before.Reachable {} := ⟨machine, rootedCall, hcreate, hbefore⟩
  have horderly := hreachable.orderly
  have hplain : adopters ⟨machine, []⟩ rootedCall = [] := by
    rw [hmachine]
    decide +kernel
  have hintact : before.machine.isIntact = true := by
    rw [hbefore, hmachine]
    decide +kernel
  have hheap : before.machine.heap.free = [] ∧ before.machine.heap.slots.length = 4 ∧
      before.machine.heap.settings = {} := by
    rw [hbefore, hmachine]
    decide +kernel
  have hroot : before.machine.heap.Reaches before.machine.rootSet ⟨3, 0⟩ := by
    refine .root ?_ ?_ <;>
    · rw [hbefore, hmachine]
      decide +kernel
  have hslot : (before.machine.code.link? ⟨⟨1⟩, 0⟩).any (fun link =>
      link.callType = .call ∧ link.mode = .monomorphic ∧
        link.site.target = .guarded ⟨3, 0⟩ ⟨⟨2⟩, ⟨1⟩⟩) = true := by
    rw [hbefore, hmachine]
    decide +kernel
  rw [Option.any_eq_true] at hslot
  obtain ⟨link, hlink, hslot⟩ := hslot
  obtain ⟨htype, hmode, htarget⟩ := of_decide_eq_true hslot
  obtain ⟨hget, hlinks, hidle, hcount, hsettings, hadopters⟩ := overwritten
    (intact_of_isIntact horderly.numbered horderly.linked hintact) hheap.1
    (by rw [hheap.2.1]; decide) hroot
  refine ⟨machine, rootedCall ++ overwriting before.machine ⟨3, 0⟩, link, ?_⟩
  dsimp only
  rw [adopters_append, run_append, ← hbefore, hplain, hadopters, hlinks]
  refine ⟨hcreate, rfl, hlink, htype, hmode, htarget, hget, ?_, ?_⟩
  · rw [Heap.isMarking, hidle]
    rfl
  · rw [Heap.shouldCollect, hcount, hsettings, hheap.2.2]
    exact Bool.and_false _

/-- A copy of the callee brings the code of the callee along, and a closure of it is called. -/
def copiedCalls : List Request :=
  rootedCall ++
    [.order (.allocateExecutable { name := "callee", entry := ⟨1⟩, callCode := some ⟨2⟩ }),
     .order (.createClosure ⟨4, 0⟩ {} []),
     .siteCall ⟨⟨⟨1⟩, 0⟩, .cell ⟨5, 0⟩, .undefined, [], false⟩]

/-- A slot may send a closure of a copy to the code of the original, and in a crowded heap it may
send on what is no closure. -/
theorem cached_code_of_stranger :
    (∃ (machine : Machine) (link : Link) (block : Block) (closure : Closure),
      let after := (run ⟨machine, []⟩ copiedCalls).machine
      Machine.create {} = .ok machine ∧ after.heap.Addressable ∧
        after.code.link? ⟨⟨1⟩, 0⟩ = some link ∧ link.isDirect = false ∧
        link.site.target.fast? after.heap ⟨5, 0⟩ = some block.pointer ∧
        after.code.get? block.id = some block ∧
        after.heap.get? ⟨5, 0⟩ = some (.function closure) ∧ block.owner ≠ closure.executable) ∧
    ∃ (machine : Machine) (requests : List Request) (link : Link) (pointer : CodePointer),
      let after := (run ⟨machine, []⟩ requests).machine
      Machine.create {} = .ok machine ∧ adopters ⟨machine, []⟩ requests = [] ∧
        after.code.link? ⟨⟨1⟩, 0⟩ = some link ∧ link.isDirect = false ∧
        link.site.target.fast? after.heap ⟨3, 0⟩ = some pointer ∧
        after.heap.get? ⟨3, 0⟩ = some (.object none) := by
  constructor
  · obtain ⟨machine, hcreate⟩ : ∃ machine, Machine.create {} = .ok machine := ⟨_, rfl⟩
    have hmachine := create_eq_ok hcreate
    obtain ⟨after, hafter⟩ : ∃ after, after = (run ⟨machine, []⟩ copiedCalls).machine := ⟨_, rfl⟩
    have haddressable : after.heap.Addressable := by
      rw [hafter, hmachine, Heap.Addressable]
      decide +kernel
    have hslot : (after.code.link? ⟨⟨1⟩, 0⟩).any (fun link => link.isDirect = false ∧
        link.site.target.fast? after.heap ⟨5, 0⟩ = some ⟨⟨2⟩, ⟨1⟩⟩) = true := by
      rw [hafter, hmachine]
      decide +kernel
    have hcode : (after.code.get? ⟨2⟩).any (fun block => block.id = ⟨2⟩ ∧
        block.pointer = ⟨⟨2⟩, ⟨1⟩⟩ ∧ block.owner = ⟨1, 0⟩) = true := by
      rw [hafter, hmachine]
      decide +kernel
    have hclosure : after.heap.closure? ⟨5, 0⟩ = some ⟨⟨4, 0⟩, {}, []⟩ := by
      rw [hafter, hmachine]
      decide +kernel
    rw [Option.any_eq_true] at hslot hcode
    obtain ⟨link, hlink, hslot⟩ := hslot
    obtain ⟨block, hblock, hcode⟩ := hcode
    obtain ⟨hindirect, hfast⟩ := of_decide_eq_true hslot
    obtain ⟨hid, hpointer, howner⟩ := of_decide_eq_true hcode
    refine ⟨machine, link, block, ⟨⟨4, 0⟩, {}, []⟩, ?_⟩
    dsimp only
    rw [← hafter, hpointer, hid, howner]
    exact ⟨hcreate, haddressable, hlink, hindirect, hfast, hblock,
      Heap.closure?_eq_some_iff.mp hclosure, by decide⟩
  · obtain ⟨machine, requests, link, hcreate, hplain, hlink, htype, _, htarget, hget, _⟩ :=
      callee_overwritten
    refine ⟨machine, requests, link, ⟨⟨2⟩, ⟨1⟩⟩, hcreate, hplain, hlink, ?_, ?_, hget⟩
    · rw [Link.isDirect, htype]
      rfl
    · rw [htarget, Target.fast?]
      exact if_pos rfl

end Execution

end InlineCache
