import InlineCache.Proofs.Frames
import InlineCache.Proofs.Landing
import InlineCache.Proofs.Stages

/-!
# Calls between realms

A site is linked only to callees of the realm that its code was compiled for, so a guard that asks
for one callee asks for one of that realm. A call of a callee of another realm takes the slow path,
and the site is virtual from then on. There is one exception. A case of a stub for all closures of
an executable does not look at the realm, and serves the call.
-/

namespace InlineCache

theorem Link.Agrees.stub_of_case {link : Link} {variant : Variant} {pointer : CodePointer}
    (h : link.Agrees) (hroute : (Guard.case variant, pointer) ∈ link.routes) :
    ∃ stub, link.site.target = .stub stub ∧ variant ∈ stub.cases.map Case.variant := by
  unfold Link.Agrees at h
  rw [Link.routes] at hroute
  rcases hstate : link.state with _ | ⟨ref, target⟩ | stub | _ | ⟨ref, target⟩ <;>
    rw [hstate] at h hroute
  · cases hroute
  · simp [LinkState.routes] at hroute
  · obtain ⟨route, hmem, heq⟩ := List.mem_map.mp hroute
    obtain ⟨case, hcase, rfl⟩ := Stub.mem_routes.mp hmem
    exact ⟨stub, h.2, List.mem_map.mpr ⟨case, hcase, Guard.case.inj (congrArg Prod.fst heq)⟩⟩
  · cases hroute
  · simp [LinkState.routes] at hroute

theorem Link.Agrees.mode_of_virtual {link : Link} (h : link.Agrees)
    (htarget : link.site.target = .virtual) : link.mode = .virtual := by
  unfold Link.Agrees at h
  rw [Link.mode]
  rcases hstate : link.state with _ | _ | _ | _ | _ <;> rw [hstate, htarget] at h <;>
    dsimp only at h
  · cases h
  · obtain ⟨_, _, _, heq⟩ := h
    cases heq
  · cases h.2
  · rfl
  · cases h.2.2

namespace Machine

open CodeTable Heap

variable {may : Work → Prop} {machine before after : Machine} {site : SiteRef} {link : Link}
  {callee : Cell}

/-! ### Which callees a site asks for -/

theorem SameRealm.keep (h : before.SameRealm site callee) (hnumbered : before.code.Numbered)
    (hevolves : before.code.Evolves after.code) (hlink : after.code.link? site = some link)
    (hclosure : ∀ closure, before.heap.closure? callee = some closure →
      after.heap.closure? callee = some closure) : after.SameRealm site callee := by
  obtain ⟨block, closure, hblock, hcallee, hrealm⟩ := h
  obtain ⟨found, hfound, _⟩ := link?_eq_some_iff.mp hlink
  have hsame := (Block.eq_of_bare (hevolves.bare_eq hnumbered hblock hfound)).2.2.1
  exact ⟨found, closure, hfound, hclosure closure hcallee, hrealm.trans hsame.symm⟩

/-- The callees that a site asks for are of the realm that its code was compiled for. Where there
are more slots than handles, a guard may be wrong about its callee. -/
structure Confined (machine : Machine) : Prop where
  sameRealm : ∀ {site link route callee}, machine.code.link? site = some link →
    route ∈ link.routes → route.1.callee? = some callee → machine.heap.Addressable →
    machine.SameRealm site callee

/-- A sweep takes the routes whose guards name dead cells. -/
theorem sweepHeap_confined (hnumbered : before.code.Numbered) (h : before.Confined) :
    before.sweepHeap.2.Confined := by
  have hchange : Change anyWork before before.sweepHeap.2 := .sweep trivial
  obtain ⟨marked, _, hget, hheap, hcode⟩ := sweepHeap_marked before
  refine ⟨fun {site link route callee} hlink hroute hcallee haddressable => ?_⟩
  have hfollows := Follows.visitWeak before.code marked.isMarked before.stats
  rw [← hcode] at hfollows
  obtain ⟨origin, horigin, _, source, hsource, rfl, hlive⟩ := hfollows.route hlink hroute
  have hbefore := h.sameRealm horigin hsource hcallee (hchange.addressable haddressable)
  refine hbefore.keep hnumbered (hchange.evolves hnumbered) hlink fun closure hclosure => ?_
  have hmarked : marked.isMarked callee = true :=
    List.all_eq_true.mp hlive callee (Guard.mem_cells_of_callee? hcallee)
  have hswept : marked.reclaim.2.get? callee = marked.sweep.get? callee := rfl
  rw [Heap.closure?, hheap, hswept, get?_sweep, if_pos hmarked, hget]
  exact hclosure

theorem Change.confined (h : Change may before after) (horderly : before.Orderly)
    (hconfined : before.Confined) : after.Confined := by
  have hnumbered := horderly.numbered
  have hevolves := h.evolves hnumbered
  rcases h.cases hnumbered with hquiet | ⟨_, rfl⟩ |
    ⟨block, executable, entry, tier, labels, _, _, rfl⟩ |
    ⟨changedSite, link, changed, owner, resolved, codes, hlink, _, hinstalls, hrealm, rfl⟩
  · refine ⟨fun hlink hroute hcallee hafter => ?_⟩
    have haddressable := h.addressable hafter
    obtain ⟨origin, horigin, _, source, hsource, rfl⟩ := hquiet.follows.route hlink hroute
    have hbefore := hconfined.sameRealm horigin hsource hcallee haddressable
    exact hbefore.keep hnumbered hevolves hlink fun _ =>
      hquiet.closure (horderly.tidy haddressable)
  · exact sweepHeap_confined hnumbered hconfined
  · refine ⟨fun {site link route callee} hlink hroute hcallee hafter => ?_⟩
    obtain ⟨origin, horigin, _, source, hsource, hstep⟩ :=
      (replaced_follows executable entry tier labels hnumbered).route hlink hroute
    have hguard : source.1 = route.1 := by
      rcases hstep with rfl | ⟨_, rfl⟩
      · rfl
      · rfl
    have hbefore := hconfined.sameRealm horigin hsource (hguard ▸ hcallee) (h.addressable hafter)
    exact hbefore.keep hnumbered hevolves hlink fun closure hclosure =>
      (closure?_replaced before block executable entry tier labels callee).trans hclosure
  · refine ⟨fun {site found route callee} hfound hroute hcallee hafter => ?_⟩
    suffices hbefore : before.SameRealm site callee from
      hbefore.keep hnumbered hevolves hfound fun _ hclosure => hclosure
    rw [link?_noteIncoming] at hfound
    by_cases heq : site = changedSite
    · obtain rfl := heq
      rw [link?_setLink_self changed hlink] at hfound
      obtain rfl := Option.some.inj hfound
      rcases hinstalls.route_cases hroute with ⟨_, hnew, _⟩ | ⟨source, hsource, _, hold, _⟩
      · rwa [hnew callee hcallee]
      · exact hconfined.sameRealm hlink hsource (hold callee hcallee) hafter
    · rw [link?_setLink_of_ne changed heq] at hfound
      exact hconfined.sameRealm hfound hroute hcallee hafter

theorem Confined.withClosure (h : machine.Confined) (horderly : machine.Orderly)
    (closure : Closure) : (machine.withCell (.function closure)).Confined := by
  refine ⟨fun hlink hroute hcallee hafter => ?_⟩
  have haddressable : machine.heap.Addressable := Nat.le_trans (length_slots_allocate _) hafter
  have hbefore := h.sameRealm hlink hroute hcallee haddressable
  exact hbefore.keep horderly.numbered (.refl _) hlink fun _ =>
    (horderly.tidy haddressable).closure?_allocate _

/-- What is known of a machine between two requests. -/
structure Sound (machine : Machine) : Prop extends Orderly machine where
  confined : machine.Confined
  tricolor : ∃ born, machine.heap.Tricolor born

theorem Change.sound (h : Change may before after) (hsound : before.Sound) : after.Sound where
  toOrderly := h.orderly hsound.toOrderly
  confined := h.confined hsound.toOrderly hsound.confined
  tricolor := hsound.tricolor.imp fun _ => h.tricolor

theorem Changes.sound (h : Changes may before after) (hsound : before.Sound) : after.Sound :=
  h.preserves Sound Change.sound hsound

theorem Sound.withClosure (h : machine.Sound) (closure : Closure) :
    (machine.withCell (.function closure)).Sound where
  toOrderly := h.toOrderly.withClosure closure
  confined := h.confined.withClosure h.toOrderly closure
  tricolor := by
    obtain ⟨born, hrule⟩ := h.tricolor
    exact ⟨_ :: born, hrule.allocate (fun _ => List.mem_cons_of_mem _) (.inr List.mem_cons_self)⟩

/-! ### Callees of another realm -/

/-- The callee is a closure of another realm than the code of the site, and the site is not
direct. -/
structure Foreign (machine : Machine) (site : SiteRef) (callee : Cell) (closure : Closure) :
    Prop where
  callee_eq : machine.heap.closure? callee = some closure
  realm_ne : ∀ {block}, machine.code.get? site.caller = some block → closure.realm ≠ block.realm
  indirect : ∀ {link}, machine.code.link? site = some link → link.isDirect = false

/-- The slot of a site serves a callee of another realm exactly if it has a stub with a case for all
closures of the executable. -/
theorem Foreign.fast?_iff {closure : Closure} (h : machine.Foreign site callee closure)
    (hsound : machine.Sound) (haddressable : machine.heap.Addressable)
    (hlink : machine.code.link? site = some link) :
    (∃ pointer, link.site.target.fast? machine.heap callee = some pointer) ↔
      ∃ stub, link.site.target = .stub stub ∧
        .closure closure.executable ∈ stub.cases.map Case.variant := by
  have hexecutable : machine.heap.executableOf? callee = some closure.executable := by
    rw [executableOf?, h.callee_eq]
    rfl
  have hagrees := hsound.linked.agrees hlink
  constructor
  · rintro ⟨pointer, hfast⟩
    obtain ⟨guard, hroute, hcallee | ⟨executable, hcallee, rfl⟩⟩ :=
      hagrees.guard_of_fast? (h.indirect hlink) hfast
    · obtain ⟨block, other, hblock, hother, hsame⟩ :=
        hsound.confined.sameRealm hlink hroute hcallee haddressable
      rw [h.callee_eq] at hother
      rw [← Option.some.inj hother] at hsame
      exact absurd hsame (h.realm_ne hblock)
    · rw [← Option.some.inj (hcallee.symm.trans hexecutable)]
      exact hagrees.stub_of_case hroute
  · rintro ⟨stub, htarget, hcase⟩
    rw [htarget, Target.fast?, hexecutable]
    exact Stub.dispatch?_of_accepts hcase (beq_self_eq_true closure.executable)

def IsVirtual (machine : Machine) (site : SiteRef) : Prop :=
  ∃ link, machine.code.link? site = some link ∧ link.mode = .virtual

/-! ### Where the slot is read -/

/-- The machine in which a call at a site reads the slot, if it gets so far. -/
def reading? (machine : Machine) (request : SiteCall) : Option Machine :=
  (machine.arrive? request).map fun prepared => (MachineM.safepoint.exec prepared).2

/-- Does a call at a site find a stub with a case for all closures of the executable? -/
def findsWideCase (machine : Machine) (request : SiteCall) (executable : Cell) : Bool :=
  (machine.reading? request).any fun safe => (safe.code.link? request.site).any fun slot =>
    match slot.site.target with
    | .stub stub => (stub.cases.map Case.variant).contains (.closure executable)
    | _ => false

theorem findsWideCase_iff {request : SiteCall} {executable : Cell} :
    machine.findsWideCase request executable = true ↔ ∃ safe slot stub,
      machine.reading? request = some safe ∧ safe.code.link? request.site = some slot ∧
        slot.site.target = .stub stub ∧ .closure executable ∈ stub.cases.map Case.variant := by
  simp only [findsWideCase, Option.any_eq_true]
  constructor
  · rintro ⟨safe, hread, slot, hslot, hcase⟩
    rcases htarget : slot.site.target with _ | _ | stub | _ | _ <;> rw [htarget] at hcase
    · cases hcase
    · cases hcase
    · exact ⟨safe, slot, stub, hread, hslot, htarget, List.contains_iff_mem.mp hcase⟩
    · cases hcase
    · cases hcase
  · rintro ⟨safe, slot, stub, hread, hslot, htarget, hcase⟩
    refine ⟨safe, hread, slot, hslot, ?_⟩
    rw [htarget]
    exact List.contains_iff_mem.mpr hcase

end Machine

namespace MachineM

open Machine CodeTable

variable {machine before after safe : Machine} {site : SiteRef} {link : Link} {call : Call}
  {request : SiteCall} {callee : Cell} {destination : Destination}

/-! ### Reading the slot -/

theorem exec_safepoint_ok (hnumbered : machine.code.Numbered) (hlinked : machine.code.Linked) :
    safepoint.exec machine = (.ok ⟨⟩, (safepoint.exec machine).2) := by
  rw [exec_safepoint]
  split
  · split
    · have hmarked : machine.marked.code = machine.code := rfl
      rw [← hmarked] at hnumbered hlinked
      obtain ⟨collected, hrun, _⟩ := exec_collect hnumbered hlinked
      rw [exec_discard, hrun]
      rfl
    · rfl
  · split <;> rfl

theorem arrive?_fastPathHits {prepared : Machine} (h : machine.arrive? request = some prepared) :
    prepared.stats.fastPathHits = machine.stats.fastPathHits := by
  obtain ⟨link, callee, _, _, _, rfl⟩ := arrive?_eq_some_iff.mp h
  rw [noted]
  split <;> rfl

theorem arrive?_callee {prepared : Machine} (h : machine.arrive? request = some prepared)
    (hcallee : request.callee = .cell callee) : callee ∈ prepared.stackRoots := by
  obtain ⟨link, cell, _, hcell, _, rfl⟩ := arrive?_eq_some_iff.mp h
  rw [hcallee] at hcell
  obtain rfl := Value.cell.inj hcell
  exact List.mem_append_right _ List.mem_cons_self

theorem reading?_changes (hread : machine.reading? request = some safe) :
    Changes anyWork machine safe := by
  obtain ⟨prepared, harrive, rfl⟩ := Option.map_eq_some_iff.mp hread
  have hsafe : Delivers anyWork prepared (safepoint.exec prepared) :=
    safepoint_delivers fun _ => trivial
  exact (arrive?_changes harrive).trans hsafe.changes

theorem reading?_fastPathHits (hread : machine.reading? request = some safe) :
    safe.stats.fastPathHits = machine.stats.fastPathHits := by
  obtain ⟨prepared, harrive, rfl⟩ := Option.map_eq_some_iff.mp hread
  exact (safepoint_steady.fastPathHits prepared).trans (arrive?_fastPathHits harrive)

/-- The callee is what it was when the slot is read: it is on the stack of roots. -/
theorem reading?_foreign {closure : Closure} {block : Block} (h : machine.Sound)
    (hread : machine.reading? request = some safe) (haddressable : safe.heap.Addressable)
    (hblock : machine.code.get? request.site.caller = some block)
    (hlink : machine.code.link? request.site = some link) (hdirect : link.isDirect = false)
    (hcallee : request.callee = .cell callee)
    (hclosure : machine.heap.closure? callee = some closure)
    (hrealm : closure.realm ≠ block.realm) : safe.Foreign request.site callee closure := by
  have hchanges := reading?_changes hread
  have hevolves := hchanges.evolves h.numbered
  obtain ⟨prepared, harrive, rfl⟩ := Option.map_eq_some_iff.mp hread
  refine ⟨?_, fun hfound => ?_, fun hfound => ?_⟩
  · have hsound := (arrive?_changes harrive : Changes anyWork machine prepared).sound h
    obtain ⟨born, hrule⟩ := hsound.tricolor
    have hstages : Stages withoutCollecting prepared.stackRoots prepared _ :=
      safepoint_stages (List.Subset.refl _)
    rw [← arrive?_heap harrive] at hclosure
    exact hstages.closure? hsound.toOrderly hrule haddressable
      (arrive?_callee harrive hcallee) hclosure
  · rw [(Block.eq_of_bare (hevolves.bare_eq h.numbered hblock hfound)).2.2.1]
    exact hrealm
  · rw [Link.isDirect, hchanges.callType_eq h.numbered hlink hfound]
    exact hdirect

theorem exec_startSiteCall_of_reading (h : machine.Sound)
    (hread : machine.reading? request = some safe)
    (hlink : machine.code.link? request.site = some link)
    (hcallee : request.callee = .cell callee) :
    ∃ base, (startSiteCall request).exec machine =
      match (selectAtSite request.site
        (request.call callee link.callType.specialization)).exec safe with
      | (.ok destination, after) =>
        (.ok ⟨request.call callee link.callType.specialization, destination, base⟩, after)
      | (.error error, after) => (.error error, after.unwindTo base) := by
  obtain ⟨prepared, harrive, hafter⟩ := Option.map_eq_some_iff.mp hread
  have hsound := (arrive?_changes harrive : Changes anyWork machine prepared).sound h
  have hsafe := exec_safepoint_ok hsound.numbered hsound.linked
  rw [hafter] at hsafe
  obtain ⟨found, cell, hfound, hcell, htail, rfl⟩ := arrive?_eq_some_iff.mp harrive
  obtain rfl := Option.some.inj (hlink.symm.trans hfound)
  obtain rfl := Value.cell.inj (hcallee.symm.trans hcell)
  refine ⟨(machine.noted request link).stackRoots.length, ?_⟩
  have hselect := exec_selecting (request.call callee link.callType.specialization)
    (do
      safepoint
      selectAtSite request.site (request.call callee link.callType.specialization))
    (machine.noted request link)
  rw [exec_bind, hsafe] at hselect
  rw [exec_startSiteCall hlink htail, hcallee]
  exact hselect

/-! ### Calls that the slot serves -/

theorem hitStub_mode (link : Link) (callee executable : Cell) :
    (link.hitStub callee executable).mode = link.mode := by
  rw [Link.mode, Link.mode, Link.hitStub]
  rcases link.state with _ | _ | _ | _ | _ <;> rfl

theorem selectAtSite_of_fast? {pointer : CodePointer} (hlink : before.code.link? site = some link)
    (hfast : link.site.target.fast? before.heap call.callee = some pointer) :
    ∃ after found, (selectAtSite site call).exec before = (.ok (.code pointer), after) ∧
      after.code.link? site = some found ∧ found.mode = link.mode := by
  obtain ⟨counted, houtcome, rfl | ⟨executable, rfl⟩⟩ := selectAtSite_served hlink hfast
  · exact ⟨_, link, houtcome, hlink, rfl⟩
  · exact ⟨_, _, houtcome, link?_setLink_self _ hlink, hitStub_mode _ _ _⟩

/-! ### Calls that the slot does not serve -/

theorem selectAtSite_fastPathHits (hmissed : ∀ link, before.code.link? site = some link →
      link.site.target.fast? before.heap call.callee = none) :
    ((selectAtSite site call).exec before).2.stats.fastPathHits = before.stats.fastPathHits := by
  cases selectAtSite_cases site call before with
  | missing _ houtcome => rw [houtcome]
  | slow _ _ houtcome =>
      rw [houtcome]
      exact (selectSlow_steady site call).fastPathHits before
  | resolved _ _ houtcome =>
      rw [houtcome]
      exact (selectGeneric_steady call).fastPathHits before.countVirtual
  | served hlink hfast _ =>
      rw [hmissed _ hlink] at hfast
      cases hfast
  | servedByStub executable hlink hfast _ =>
      rw [hmissed _ hlink] at hfast
      cases hfast

theorem goVirtual_isVirtual {reason : VirtualReason} {outcome : LinkOutcome}
    (hlink : before.code.link? site = some link)
    (h : (runLinker site link fun linker => (.ok .virtualized, linker.goVirtual reason)).exec before
      = (.ok outcome, after)) : after.IsVirtual site := by
  rw [exec_runLinker] at h
  rw [← (Prod.mk.inj h).2]
  refine ⟨_, link?_setLink_self _ hlink, ?_⟩
  rw [Linker.goVirtual_link]
  exact link.setVirtual_link_mode

theorem linkFunction_isVirtual {resolved : Resolved} {realm : Realm}
    (hrealm : ∀ block, before.code.get? site.caller = some block → realm ≠ block.realm)
    (h : (linkFunction site resolved realm).exec before = (.ok ⟨⟩, after)) :
    after.IsVirtual site := by
  obtain ⟨block, hblock, h⟩ := exec_bind_look_ok h
  obtain ⟨link, hlink, h⟩ := exec_bind_look_ok h
  obtain ⟨_, _, hgot, h⟩ := exec_bind_ok h
  cases hgot
  obtain ⟨outcome, linked, hrun, h⟩ := exec_bind_ok h
  rcases hreason : uncachable? block realm with _ | reason
  · exact absurd (realm_of_cachable hreason) (hrealm block (block_eq_ok_iff.mp hblock))
  · simp only [hreason] at hrun
    have hvirtual := goVirtual_isVirtual (link_eq_ok_iff.mp hlink) hrun
    rw [exec_runLinker] at hrun
    rw [← Except.ok.inj (Prod.mk.inj hrun).1] at h
    cases h
    exact hvirtual

theorem selectSlow_isVirtual {closure : Closure}
    (hforeign : before.Foreign site call.callee closure) (hnumbered : before.code.Numbered)
    (h : (selectSlow site call).exec before = (.ok destination, after)) :
    after.IsVirtual site := by
  obtain ⟨link, profiled, resolution, found, hlink, hprofile, hheap, hresolved, _, hlinking⟩ :=
    exec_selectSlow_ok anyWork h
  obtain ⟨block, hblock, _⟩ := link?_eq_some_iff.mp hlink
  have hstill := (hprofile.evolves hnumbered).numbered hnumbered
  have hcases : Resolving anyWork profiled _ _ _ := resolve_cases hstill call.callee call.kind
  rw [hresolved] at hcases
  cases hlinking with
  | handler hcurrent hgone => exact goVirtual_isVirtual hcurrent hgone
  | function hlinked =>
      have hevolves := (hprofile.trans hcases.delivers.changes).evolves hnumbered
      cases hcases with
      | function _ _ _ _ _ hrealm =>
          obtain ⟨other, hother, rfl⟩ := hrealm
          rw [hheap, hforeign.callee_eq] at hother
          obtain rfl := Option.some.inj hother
          refine linkFunction_isVirtual (fun current hcurrent => ?_) hlinked
          rw [(Block.eq_of_bare (hevolves.bare_eq hnumbered hblock hcurrent)).2.2.1]
          exact hforeign.realm_ne hblock

theorem selectGeneric_isVirtual (hnumbered : before.code.Numbered) (hsite : before.IsVirtual site)
    (h : (selectGeneric call).exec before = (.ok destination, after)) : after.IsVirtual site := by
  obtain ⟨resolution, hrun, _⟩ := exec_selectGeneric_ok h
  have hcases : Resolving anyWork before _ _ _ := resolve_cases hnumbered call.callee call.kind
  rw [hrun] at hcases
  cases hcases with
  | handler entry => exact hsite
  | function hchanges hkept =>
      obtain ⟨link, hlink, hmode⟩ := hsite
      obtain ⟨block, hblock, hindex⟩ := link?_eq_some_iff.mp hlink
      exact ⟨link, link?_eq_some_iff.mpr ⟨block, hkept hblock, hindex⟩, hmode⟩

theorem selectAtSite_isVirtual {closure : Closure}
    (hforeign : before.Foreign site call.callee closure) (hsound : before.Sound)
    (hmissed : ∀ link, before.code.link? site = some link →
      link.site.target.fast? before.heap call.callee = none)
    (h : (selectAtSite site call).exec before = (.ok destination, after)) :
    after.IsVirtual site := by
  cases selectAtSite_cases site call before with
  | missing _ houtcome =>
      rw [houtcome] at h
      cases h
  | slow _ _ houtcome => exact selectSlow_isVirtual hforeign hsound.numbered (houtcome ▸ h)
  | resolved hlink htarget houtcome =>
      have hvirtual : before.countVirtual.IsVirtual site :=
        ⟨_, hlink, (hsound.linked.agrees hlink).mode_of_virtual htarget⟩
      have hcounted : before.countVirtual.code.Numbered := hsound.numbered
      exact selectGeneric_isVirtual hcounted hvirtual (houtcome ▸ h)
  | served hlink hfast _ =>
      rw [hmissed _ hlink] at hfast
      cases hfast
  | servedByStub executable hlink hfast _ =>
      rw [hmissed _ hlink] at hfast
      cases hfast

/-! ### Making the call -/

theorem siteCall_of_fast? {slot : Link} {pointer : CodePointer} (h : machine.Sound)
    (hread : machine.reading? request = some safe)
    (hlink : machine.code.link? request.site = some link) (hcallee : request.callee = .cell callee)
    (hslot : safe.code.link? request.site = some slot)
    (hfast : slot.site.target.fast? safe.heap callee = some pointer) :
    ∃ activation after found,
      (startSiteCall request >>= enter).exec machine = (.ok activation, after) ∧
        after.code.link? request.site = some found ∧ found.mode = slot.mode := by
  obtain ⟨base, hstart⟩ := exec_startSiteCall_of_reading h hread hlink hcallee
  obtain ⟨selected, found, hselect, hfound, hmode⟩ :
      ∃ selected found, (selectAtSite request.site
        (request.call callee link.callType.specialization)).exec safe
          = (.ok (.code pointer), selected) ∧ _ := selectAtSite_of_fast? hslot hfast
  rw [hselect] at hstart
  have hlive := startSiteCall_lands h.numbered h.linked hstart
  rw [exec_bind, hstart]
  dsimp only
  generalize Transfer.mk _ _ base = transfer at hlive
  have hentering : Entering anyWork selected transfer _ := enter_cases transfer
  have hkept := enter_keeps transfer selected
  generalize (enter transfer).exec selected = outcome at hentering hkept
  cases hentering with
  | @entered activation after _ _ _ =>
      refine ⟨activation, after, found, rfl, ?_, hmode⟩
      rw [(Prod.mk.inj hkept).1, hfound]
  | dangling hdestination hgone =>
      rw [hdestination, isLive, hgone] at hlive
      cases hlive

/-- A call of a callee of another realm that the slot does not serve is not counted as served, and
leaves the site virtual if it enters. -/
theorem siteCall_of_missed {closure : Closure} (h : machine.Sound)
    (hread : machine.reading? request = some safe)
    (hforeign : safe.Foreign request.site callee closure)
    (hlink : machine.code.link? request.site = some link) (hcallee : request.callee = .cell callee)
    (hmissed : ∀ slot, safe.code.link? request.site = some slot →
      slot.site.target.fast? safe.heap callee = none) :
    ((startSiteCall request >>= enter).exec machine).2.stats.fastPathHits
        = safe.stats.fastPathHits ∧
      ∀ activation after, (startSiteCall request >>= enter).exec machine = (.ok activation, after) →
        after.IsVirtual request.site := by
  obtain ⟨base, hstart⟩ := exec_startSiteCall_of_reading h hread hlink hcallee
  have hhits : ((selectAtSite request.site
      (request.call callee link.callType.specialization)).exec safe).2.stats.fastPathHits
        = safe.stats.fastPathHits := selectAtSite_fastPathHits hmissed
  rw [exec_bind, hstart]
  rcases hselect : (selectAtSite request.site
    (request.call callee link.callType.specialization)).exec safe with
    ⟨error | destination, selected⟩ <;> rw [hselect] at hhits <;> dsimp only
  · exact ⟨hhits, fun _ _ hentered => nomatch hentered⟩
  · generalize Transfer.mk _ destination base = transfer
    have hkept := enter_keeps transfer selected
    refine ⟨(congrArg Stats.fastPathHits (Prod.mk.inj hkept).2).trans hhits, ?_⟩
    intro activation after hentered
    obtain ⟨found, hfound, hmode⟩ :=
      selectAtSite_isVirtual hforeign ((reading?_changes hread).sound h) hmissed hselect
    rw [hentered] at hkept
    exact ⟨found, (congrArg (link? · request.site) (Prod.mk.inj hkept).1).trans hfound, hmode⟩

theorem siteCall_of_wideCase {closure : Closure} (h : machine.Sound)
    (hread : machine.reading? request = some safe) (haddressable : safe.heap.Addressable)
    (hforeign : safe.Foreign request.site callee closure)
    (hlink : machine.code.link? request.site = some link) (hcallee : request.callee = .cell callee)
    (hwide : machine.findsWideCase request closure.executable = true) :
    ∃ activation after,
      (startSiteCall request >>= enter).exec machine = (.ok activation, after) ∧
        ¬ after.IsVirtual request.site := by
  obtain ⟨found, slot, stub, hfound, hslot, htarget, hcase⟩ := findsWideCase_iff.mp hwide
  obtain rfl := Option.some.inj (hread.symm.trans hfound)
  have hsound := (reading?_changes hread).sound h
  obtain ⟨pointer, hfast⟩ :=
    (hforeign.fast?_iff hsound haddressable hslot).mpr ⟨stub, htarget, hcase⟩
  obtain ⟨activation, after, kept, hrun, hkept, hmode⟩ :=
    siteCall_of_fast? h hread hlink hcallee hslot hfast
  refine ⟨activation, after, hrun, ?_⟩
  rintro ⟨other, hother, hvirtual⟩
  rw [hkept] at hother
  rw [← Option.some.inj hother, hmode, Link.mode,
    (hsound.linked.agrees hslot).state_of_stub (.inl htarget)] at hvirtual
  cases hvirtual

theorem missed_of_noWideCase {closure : Closure} (h : machine.Sound)
    (hread : machine.reading? request = some safe) (haddressable : safe.heap.Addressable)
    (hforeign : safe.Foreign request.site callee closure)
    (hnarrow : machine.findsWideCase request closure.executable = false) {slot : Link}
    (hslot : safe.code.link? request.site = some slot) :
    slot.site.target.fast? safe.heap callee = none := by
  rcases hfast : slot.site.target.fast? safe.heap callee with _ | pointer
  · rfl
  · have hsound := (reading?_changes hread).sound h
    obtain ⟨stub, htarget, hcase⟩ := (hforeign.fast?_iff hsound haddressable hslot).mp ⟨_, hfast⟩
    rw [findsWideCase_iff.mpr ⟨safe, slot, stub, hread, hslot, htarget, hcase⟩] at hnarrow
    cases hnarrow

end MachineM

namespace Execution

open Machine MachineM CodeTable

variable {config : Config} {execution : Execution} {site : SiteRef}

theorem Reachable.sound (h : execution.Reachable config) : execution.machine.Sound := by
  obtain ⟨machine, requests, hcreate, rfl⟩ := h
  have hnew : machine.Sound := by
    refine ⟨orderly_of_create hcreate, ?_, [], ?_⟩ <;> rw [create_eq_ok hcreate]
    · exact ⟨fun hlink => nomatch hlink⟩
    · exact .of_idle rfl fun _ => rfl
  exact (run_preserves Sound (fun _ hchange => hchange.sound)
    (fun _ _ hsound => hsound.withClosure _) ⟨machine, []⟩ requests hnew.numbered hnew).2

/-- The site is virtual now, and for as long as it is there. -/
def StaysVirtual (execution : Execution) (site : SiteRef) : Prop :=
  execution.machine.IsVirtual site ∧ ∀ requests link,
    (execution.run requests).machine.code.link? site = some link → link.mode = .virtual

theorem run_evolves (execution : Execution) (requests : List Request)
    (hnumbered : execution.machine.code.Numbered) :
    execution.machine.code.Evolves (execution.run requests).machine.code :=
  (run_preserves (fun machine => execution.machine.code.Evolves machine.code)
    (fun hbefore hchange hevolves => hevolves.trans (hchange.evolves hbefore))
    (fun _ _ hevolves => hevolves) execution requests hnumbered (.refl _)).2

/-- A virtual site stays virtual, whatever happens. -/
theorem staysVirtual_iff (hnumbered : execution.machine.code.Numbered) :
    execution.StaysVirtual site ↔ execution.machine.IsVirtual site := by
  refine ⟨And.left, fun hsite => ⟨hsite, fun requests found hfound => ?_⟩⟩
  obtain ⟨link, hlink, hmode⟩ := hsite
  exact ((run_evolves execution requests hnumbered).becomes hnumbered hlink hfound).mode_virtual
    hmode

/-- In every state that a new machine can get into, a call of a closure of another realm, at a site
that is not direct, is not served from the slot, and leaves the site virtual from then on if it
enters. This holds exactly where the call does not find a stub with a case for all closures of the
executable, as long as every slot of the heap has a handle of its own. -/
theorem cross_realm_call_uncached_iff (h : execution.Reachable config) {request : SiteCall}
    {block : Block} {link : Link} {callee : Cell} {closure : Closure}
    (hblock : execution.machine.code.get? request.site.caller = some block)
    (hlink : execution.machine.code.link? request.site = some link)
    (hdirect : link.isDirect = false) (hcallee : request.callee = .cell callee)
    (hclosure : execution.machine.heap.get? callee = some (.function closure))
    (hrealm : closure.realm ≠ block.realm)
    (haddressable : (execution.step (.siteCall request)).2.machine.heap.Addressable) :
    let reply := (execution.step (.siteCall request)).1
    let after := (execution.step (.siteCall request)).2
    (after.machine.stats.fastPathHits = execution.machine.stats.fastPathHits ∧
        ∀ activation, reply = .entered activation → after.StaysVirtual request.site) ↔
      execution.machine.findsWideCase request closure.executable = false := by
  intro reply after
  have hsound := h.sound
  have hafter : after.machine.code.Numbered :=
    (execution.run_evolves [.siteCall request] hsound.numbered).numbered hsound.numbered
  have hmachine : after.machine = ((startSiteCall request >>= enter).exec execution.machine).2 :=
    execution.call_machine (startSiteCall request)
  have hentered : ∀ {activation}, reply = .entered activation ↔
      ((startSiteCall request >>= enter).exec execution.machine).1 = .ok activation :=
    call_eq_entered_iff
  rw [staysVirtual_iff hafter, hmachine]
  rcases hread : execution.machine.reading? request with _ | safe
  · -- the call is refused before it gets to the slot
    have htail : link.callType.isTail ≠ request.tail := by
      intro htail
      rw [reading?, arrive?_eq_some_iff.mpr ⟨link, callee, hlink, hcallee, htail, rfl⟩] at hread
      cases hread
    have hrefused := exec_startSiteCall_of_mismatch hlink htail
    rw [exec_bind, hrefused] at hentered ⊢
    refine iff_of_true ⟨rfl, fun activation hreply => ?_⟩ ?_
    · cases hentered.mp hreply
    · rw [findsWideCase, hread]
      rfl
  · have hlater : Changes anyWork safe after.machine := by
      obtain ⟨prepared, harrive, rfl⟩ := Option.map_eq_some_iff.mp hread
      exact call_changes execution (startSiteCall_arrived hsound.numbered harrive)
    have hfits := hlater.addressable haddressable
    have hforeign := reading?_foreign hsound hread hfits hblock hlink hdirect hcallee
      (Heap.closure?_eq_some_iff.mpr hclosure) hrealm
    rcases hwide : execution.machine.findsWideCase request closure.executable with _ | _
    · have hcall := siteCall_of_missed hsound hread hforeign hlink hcallee fun _ =>
        missed_of_noWideCase hsound hread hfits hforeign hwide
      refine iff_of_true ⟨hcall.1.trans (reading?_fastPathHits hread), ?_⟩ rfl
      exact fun activation hreply => hcall.2 activation _ (Prod.ext (hentered.mp hreply) rfl)
    · obtain ⟨activation, found, hrun, hvirtual⟩ :=
        siteCall_of_wideCase hsound hread hfits hforeign hlink hcallee hwide
      refine iff_of_false (fun hboth => hvirtual ?_) (by simp)
      rw [hrun] at hboth hentered
      exact hboth.2 activation (hentered.mpr rfl)

/-- Closures of one executable are called at a site, one after the other. Cells 3 and 4 are closures
of the realm of the site, and cell 5 is of another. -/
def callsAtSite (callees : List Cell) : List Request :=
  [.order (.allocateExecutable { name := "caller", entry := ⟨0⟩, sites := [⟨.call, 0⟩] }),
   .order (.allocateExecutable { name := "callee", entry := ⟨1⟩ }),
   .order (.createClosure ⟨0, 0⟩ {} []),
   .order (.createClosure ⟨1, 0⟩ {} []),
   .order (.createClosure ⟨1, 0⟩ {} []),
   .order (.createClosure ⟨1, 0⟩ ⟨1⟩ []),
   .hostCall (.cell ⟨2, 0⟩) .undefined [] .call] ++
  callees.flatMap fun callee =>
    [.siteCall ⟨⟨⟨1⟩, 0⟩, .cell callee, .undefined, [], false⟩, .finish (.ok .undefined)]

/-- The call of the closure of another realm. -/
def foreignCall : SiteCall := ⟨⟨⟨1⟩, 0⟩, .cell ⟨5, 0⟩, .undefined, [], false⟩

theorem cross_realm_call_after_one :
    ∃ (execution : Execution) (block : Block) (link : Link) (closure : Closure)
      (activation : Activation),
      let after := (execution.step (.siteCall foreignCall)).2
      execution.Reachable {} ∧ execution.machine.code.get? foreignCall.site.caller = some block ∧
      execution.machine.code.link? foreignCall.site = some link ∧ link.isDirect = false ∧
      link.mode = .monomorphic ∧ execution.machine.heap.get? ⟨5, 0⟩ = some (.function closure) ∧
      closure.realm ≠ block.realm ∧
      (execution.step (.siteCall foreignCall)).1 = .entered activation ∧
      after.machine.stats.fastPathHits = execution.machine.stats.fastPathHits ∧
      after.StaysVirtual foreignCall.site := by
  have hreachable : Execution.Reachable {} ((Execution.mk
      { config := {}, heap := { settings := ({} : Config).heapSettings } } []).run
        (callsAtSite [⟨3, 0⟩])) := ⟨_, callsAtSite [⟨3, 0⟩], rfl, rfl⟩
  generalize hexecution : (Execution.mk _ []).run (callsAtSite [⟨3, 0⟩]) = execution at hreachable
  have haddressable :
      (execution.step (.siteCall foreignCall)).2.machine.heap.Addressable := by
    rw [← hexecution, Heap.Addressable]
    decide +kernel
  have hsite : (execution.machine.code.link? foreignCall.site).any (fun link =>
      link.isDirect = false ∧ link.mode = .monomorphic) = true := by
    rw [← hexecution]
    decide +kernel
  have hrealms : (execution.machine.code.get? foreignCall.site.caller).any (fun block =>
      (execution.machine.heap.closure? ⟨5, 0⟩).any fun closure =>
        closure.realm ≠ block.realm ∧
          execution.machine.findsWideCase foreignCall closure.executable = false) = true := by
    rw [← hexecution]
    decide +kernel
  have hentered :
      ((startSiteCall foreignCall >>= enter).exec execution.machine).1.isOk = true := by
    rw [← hexecution]
    decide +kernel
  simp only [Option.any_eq_true, decide_eq_true_eq] at hsite hrealms
  obtain ⟨link, hlink, hdirect, hmode⟩ := hsite
  obtain ⟨block, hblock, closure, hclosure, hrealm, hnarrow⟩ := hrealms
  have hcallee := Heap.closure?_eq_some_iff.mp hclosure
  have huncached := (cross_realm_call_uncached_iff hreachable hblock hlink hdirect rfl hcallee
    hrealm haddressable).mpr hnarrow
  rcases hrun : ((startSiteCall foreignCall >>= enter).exec execution.machine).1
    with _ | activation <;> rw [hrun] at hentered
  · cases hentered
  · have hreply : (execution.step (.siteCall foreignCall)).1 = .entered activation :=
      call_eq_entered_iff.mpr hrun
    exact ⟨execution, block, link, closure, activation, hreachable, hblock, hlink, hdirect, hmode,
      hcallee, hrealm, hreply, huncached.1, huncached.2 activation hreply⟩

/-- Once two closures of the executable have been called, the stub serves the call of the closure of
another realm. -/
theorem cross_realm_call_served_by_stub :
    let execution := (Execution.mk
      { config := {}, heap := { settings := ({} : Config).heapSettings } } []).run
        (callsAtSite [⟨3, 0⟩, ⟨4, 0⟩])
    let after := (execution.step (.siteCall foreignCall)).2
    execution.Reachable {} ∧
      (∃ block link closure,
        execution.machine.code.get? foreignCall.site.caller = some block ∧
        execution.machine.code.link? foreignCall.site = some link ∧ link.isDirect = false ∧
        execution.machine.heap.get? ⟨5, 0⟩ = some (.function closure) ∧
        closure.realm ≠ block.realm) ∧
      after.machine.heap.Addressable ∧ execution.machine.stats.fastPathHits = 0 ∧
      after.machine.stats.fastPathHits = 1 ∧ ¬ after.StaysVirtual foreignCall.site := by
  intro execution after
  have hsite : (execution.machine.code.get? foreignCall.site.caller).any (fun block =>
      (execution.machine.code.link? foreignCall.site).any fun link =>
        (execution.machine.heap.closure? ⟨5, 0⟩).any fun closure =>
          link.isDirect = false ∧ closure.realm ≠ block.realm) = true := by decide +kernel
  have hafter : (after.machine.code.link? foreignCall.site).all (fun link =>
      link.mode ≠ .virtual) = true := by decide +kernel
  simp only [Option.any_eq_true, decide_eq_true_eq] at hsite
  obtain ⟨block, hblock, link, hlink, closure, hclosure, hdirect, hrealm⟩ := hsite
  refine ⟨⟨_, callsAtSite [⟨3, 0⟩, ⟨4, 0⟩], rfl, rfl⟩,
    ⟨block, link, closure, hblock, hlink, hdirect, Heap.closure?_eq_some_iff.mp hclosure, hrealm⟩,
    ?_, ?_, ?_, ?_⟩
  · rw [Heap.Addressable]
    decide +kernel
  · decide +kernel
  · decide +kernel
  · rintro ⟨⟨found, hfound, hmode⟩, _⟩
    rw [hfound, Option.all_some, decide_eq_true_eq] at hafter
    exact hafter hmode

end Execution

end InlineCache
