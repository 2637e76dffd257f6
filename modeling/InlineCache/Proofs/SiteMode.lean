import InlineCache.Proofs.Callable
import InlineCache.Proofs.Consistency
import InlineCache.Proofs.Learning
import InlineCache.Proofs.Placement

/-!
# The mode of a site

What a site learns from its calls, step by step: a call that the slot serves, a call that is linked,
a call at a site that has gone virtual. Each of them reaches the code of its own executable, and
leaves the record as the longer history has it.
-/

namespace InlineCache

namespace Machine

open CodeTable MachineM

variable {machine after : Machine} {site : SiteRef} {kind : Specialization} {realm : Realm}
  {executableOf : Cell → Cell} {callees : List Cell} {link : Link} {call : Call}
  {pointer : CodePointer}

/-- The record of a site is what calls to the callees have left, and its routes go to the current
code of the executables that their guards name. -/
structure Trained (machine : Machine) (site : SiteRef) (kind : Specialization) (realm : Realm)
    (executableOf : Cell → Cell) (callees : List Cell) (link : Link) : Prop where
  numbered : machine.code.Numbered
  caller : ∃ block, machine.code.get? site.caller = some block ∧ block.cachesCalls = true ∧
    block.realm = realm
  found : machine.code.link? site = some link
  indirect : link.isDirect = false
  allowed : link.stubsAllowed = true
  agrees : link.Agrees
  learned : link.Learned executableOf machine.config.polymorphicCapacity callees
  closures : ∀ callee ∈ callees, machine.heap.executableOf? callee = some (executableOf callee)
  routes : ∀ route ∈ link.routes, ∃ executable, route.1.Names machine.heap executable ∧
    machine.target? executable kind = some route.2

namespace Trained

theorem targetOf?_of_fast? (h : machine.Trained site kind realm executableOf callees link)
    (hkind : call.kind = kind)
    (hfast : link.site.target.fast? machine.heap call.callee = some pointer) :
    machine.targetOf? call = some pointer := by
  obtain ⟨guard, hroute, hguard⟩ := h.agrees.route_of_fast? h.indirect hfast
  obtain ⟨executable, hnames, htarget⟩ := h.routes _ hroute
  rw [← hkind] at htarget
  exact Option.bind_eq_some_iff.mpr ⟨executable, hguard executable hnames, htarget⟩

theorem retain (h : machine.Trained site kind realm executableOf callees link)
    (hretains : machine.Retains after) {kept : Link} {history : List Cell}
    (hfound : after.code.link? site = some kept) (hindirect : kept.isDirect = false)
    (hallowed : kept.stubsAllowed = true) (hagrees : kept.Agrees)
    (hlearned : kept.Learned executableOf machine.config.polymorphicCapacity history)
    (hclosures : ∀ callee ∈ history,
      machine.heap.executableOf? callee = some (executableOf callee))
    (hroutes : ∀ route ∈ kept.routes, ∃ executable, route.1.Names after.heap executable ∧
      after.target? executable kind = some route.2) :
    after.Trained site kind realm executableOf history kept where
  numbered := hretains.numbered
  caller := by
    obtain ⟨block, hblock, hcaches, hrealm⟩ := h.caller
    obtain ⟨found, hcaller, hbare⟩ := hretains.block hblock
    exact ⟨found, hcaller, (congrArg Block.cachesCalls hbare).trans hcaches,
      (congrArg Block.realm hbare).trans hrealm⟩
  found := hfound
  indirect := hindirect
  allowed := hallowed
  agrees := hagrees
  learned := by rwa [hretains.config]
  closures callee hcallee := (hretains.executableOf? callee).trans (hclosures callee hcallee)
  routes := hroutes

theorem routes_retained (h : machine.Trained site kind realm executableOf callees link)
    (hretains : machine.Retains after) : ∀ route ∈ link.routes, ∃ executable,
      route.1.Names after.heap executable ∧ after.target? executable kind = some route.2 := by
  intro route hroute
  obtain ⟨executable, hnames, htarget⟩ := h.routes route hroute
  exact ⟨executable, hretains.names hnames, hretains.target htarget⟩

theorem closures_concat (h : machine.Trained site kind realm executableOf callees link)
    {callee : Cell} (hcallee : machine.heap.executableOf? callee = some (executableOf callee)) :
    ∀ known ∈ callees ++ [callee],
      machine.heap.executableOf? known = some (executableOf known) := by
  intro known hknown
  rcases List.mem_append.mp hknown with hold | hnew
  · exact h.closures known hold
  · rwa [List.mem_singleton.mp hnew]

theorem learn (h : machine.Trained site kind realm executableOf callees link) {callee : Cell}
    (hcallee : machine.heap.executableOf? callee = some (executableOf callee))
    (hfast : link.site.target.fast? machine.heap callee = some pointer) :
    machine.Trained site kind realm executableOf (callees ++ [callee]) link :=
  { h with
    learned := h.learned.of_fast? hcallee hfast
    closures := h.closures_concat hcallee }

theorem hit (h : machine.Trained site kind realm executableOf callees link)
    (callee executable : Cell) :
    (machine.editLink site { link := link.hitStub callee executable }).Trained site kind realm
      executableOf callees (link.hitStub callee executable) := by
  have hprofiled : link.Profiled (link.hitStub callee executable) := .hit callee executable
  have hretains : machine.Retains
      (machine.editLink site { link := link.hitStub callee executable }) :=
    .editLink h.numbered _
  refine h.retain hretains (link?_setLink_self _ h.found) h.indirect h.allowed
    (hprofiled.agrees h.agrees) (h.learned.hitStub callee executable) h.closures ?_
  rw [hprofiled.routes_eq]
  exact h.routes_retained hretains

theorem count (h : machine.Trained site kind realm executableOf callees link)
    (stats : Stats) :
    { machine with stats }.Trained site kind realm executableOf callees link :=
  ⟨h.numbered, h.caller, h.found, h.indirect, h.allowed, h.agrees, h.learned, h.closures, h.routes⟩

theorem served (h : machine.Trained site kind realm executableOf callees link)
    (hfast : link.site.target.fast? machine.heap call.callee = some pointer) :
    ∃ after kept, (selectAtSite site call).exec machine = (.ok (.code pointer), after) ∧
      machine.Retains after ∧ after.Trained site kind realm executableOf callees kept ∧
      after.stats.slowPathCalls = machine.stats.slowPathCalls := by
  obtain ⟨counted, houtcome, rfl | ⟨executable, rfl⟩⟩ := selectAtSite_served h.found hfast
  · exact ⟨_, link, houtcome, .of_bare h.numbered rfl (fun _ => rfl) fun _ => rfl, h.count _, rfl⟩
  · exact ⟨_, _, houtcome, .of_bare (h.numbered.setLink _) rfl (fun _ => rfl)
      fun _ => bare_setLink _, (h.hit call.callee executable).count _, rfl⟩

/-- What linking installs goes to the current code of the executables that the guards name. -/
theorem routes_installed (h : machine.Trained site kind realm executableOf callees link)
    {ready : Machine} {profiled kept : Link} {owner : Cell} {capacity : Nat} {resolved : Resolved}
    {codes : List CodeId} (hready : machine.Retains ready) (hafter : ready.Retains after)
    (hprofiled : link.Profiled profiled) (hresolves : ready.Resolves kind resolved)
    (hinstalls : profiled.Installs ready.heap owner capacity resolved kept codes) :
    ∀ route ∈ kept.routes, ∃ executable, route.1.Names after.heap executable ∧
      after.target? executable kind = some route.2 := by
  intro route hroute
  rcases hinstalls.route_cases hroute with
    ⟨hpointer, _, hnames⟩ | ⟨before, hold, hpointer, _, hnames⟩
  · rw [hpointer]
    exact ⟨resolved.executable, hafter.names (hnames hresolves.closure),
      hafter.target hresolves.target?_eq⟩
  · rw [hprofiled.routes_eq] at hold
    obtain ⟨executable, hnamed, htarget⟩ := h.routes_retained hready before hold
    rw [← hpointer]
    exact ⟨executable, hafter.names (hnames executable hnamed), hafter.target htarget⟩

theorem missed (h : machine.Trained site kind realm executableOf callees link)
    (hkind : call.kind = kind) (hcallable : machine.Callable kind realm call.callee)
    (hcallee : machine.heap.executableOf? call.callee = some (executableOf call.callee))
    (hmissed : link.site.target.fast? machine.heap call.callee = none) :
    ∃ pointer after kept, (selectSlow site call).exec machine = (.ok (.code pointer), after) ∧
      machine.Retains after ∧ after.targetOf? call = some pointer ∧
      after.Trained site kind realm executableOf (callees ++ [call.callee]) kept := by
  obtain ⟨block, hblock, hcaches, hrealm⟩ := h.caller
  rw [← hrealm, ← hkind] at hcallable
  obtain ⟨resolved, linker, ready, after, hrun, hsame, hlinker, hready, hresolves, hafter,
    hfound⟩ := selectSlow_of_callable h.numbered hblock hcaches h.found hcallable
  have hretains := hready.trans hafter
  have hprofiled : link.Profiled linker.link := hlinker ▸ .slowPath call.callee
  have hclosure : ready.heap.executableOf? resolved.callee
      = some (executableOf resolved.callee) := by
    rw [hsame, hready.executableOf?, hcallee]
  have hexecutable : resolved.executable = executableOf resolved.callee :=
    Option.some.inj (hresolves.closure.symm.trans hclosure)
  -- until the site goes virtual, the slot would have served a callee that it knows
  have hnew : linker.link.mode ≠ .virtual → resolved.callee ∉ callees := by
    intro hmode hmem
    rw [hsame] at hmem
    rw [hlinker] at hmode
    obtain ⟨pointer, hfast⟩ := h.learned.fast?_of_mem hmode hmem hcallee
    rw [hmissed] at hfast
    cases hfast
  obtain ⟨hlearned, hallowed⟩ := Linker.linkCall_learned (hlinker ▸ h.learned.recordSlowPath _)
    (hlinker ▸ h.indirect) (hlinker ▸ h.allowed)
    (fun known hknown => (hready.executableOf? known).trans (h.closures known hknown))
    hexecutable hnew block.owner
  obtain ⟨outcome, _, hinstalls⟩ := Linker.linkCall_installs linker ready.heap block.owner
    machine.config.polymorphicCapacity resolved
  refine ⟨resolved.target, after, _, hrun, hretains, Option.bind_eq_some_iff.mpr
    ⟨resolved.executable, ?_, hafter.target hresolves.target?_eq⟩, h.retain hretains hfound ?_
    hallowed (hinstalls.agrees (hprofiled.agrees h.agrees)) (hsame ▸ hlearned)
    (h.closures_concat hcallee)
    (h.routes_installed hready hafter hprofiled (hkind ▸ hresolves) hinstalls)⟩
  · rw [← hsame, hafter.executableOf?, hresolves.closure]
  · rw [Link.isDirect, hinstalls.callType_eq, hprofiled.callType_eq]
    exact h.indirect

theorem resolved (h : machine.Trained site kind realm executableOf callees link)
    (hkind : call.kind = kind) (hcallable : machine.Callable kind realm call.callee)
    (hcallee : machine.heap.executableOf? call.callee = some (executableOf call.callee))
    (hvirtual : link.site.target = .virtual) :
    ∃ pointer after, (selectGeneric call).exec machine.countVirtual = (.ok (.code pointer), after) ∧
      machine.Retains after ∧ after.targetOf? call = some pointer ∧
      after.Trained site kind realm executableOf (callees ++ [call.callee]) link := by
  have hcounted : machine.Retains machine.countVirtual :=
    .of_bare h.numbered rfl (fun _ => rfl) fun _ => rfl
  obtain ⟨resolved, after, hrun, hsame, hafter, hresolves, hlinks⟩ :=
    resolve_of_callable hcounted.numbered (hcounted.callable hcallable)
  have hretains := hcounted.trans hafter
  rw [← hkind] at hrun hresolves
  refine ⟨resolved.target, after, ?_, hretains, Option.bind_eq_some_iff.mpr
    ⟨_, hsame ▸ hresolves.closure, hresolves.target?_eq⟩, h.retain hretains
    (hlinks h.found) h.indirect h.allowed h.agrees (h.learned.of_virtual hvirtual call.callee)
    (h.closures_concat hcallee) (h.routes_retained hretains)⟩
  rw [selectGeneric_eq, exec_map, hrun]
  rfl

/-- Every call reaches the code of its own executable, and the site learns from it. -/
theorem step (h : machine.Trained site kind realm executableOf callees link)
    (hkind : call.kind = kind) (hcallable : machine.Callable kind realm call.callee)
    (hcallee : machine.heap.executableOf? call.callee = some (executableOf call.callee)) :
    ∃ pointer after kept, (selectAtSite site call).exec machine = (.ok (.code pointer), after) ∧
      machine.Retains after ∧ after.targetOf? call = some pointer ∧
      after.Trained site kind realm executableOf (callees ++ [call.callee]) kept := by
  rcases hfast : link.site.target.fast? machine.heap call.callee with _ | pointer
  · cases selectAtSite_cases site call machine with
    | missing hmissing _ =>
        rw [link_eq_ok_iff.mpr h.found] at hmissing
        cases hmissing
    | slow _ _ houtcome =>
        rw [houtcome]
        exact h.missed hkind hcallable hcallee hfast
    | resolved hfound htarget houtcome =>
        obtain rfl := Option.some.inj (hfound.symm.trans h.found)
        rw [houtcome]
        obtain ⟨pointer, after, hresolved⟩ := h.resolved hkind hcallable hcallee htarget
        exact ⟨pointer, after, _, hresolved⟩
    | served hfound hserved _ =>
        obtain rfl := Option.some.inj (hfound.symm.trans h.found)
        rw [hfast] at hserved
        cases hserved
    | servedByStub executable hfound hserved _ =>
        obtain rfl := Option.some.inj (hfound.symm.trans h.found)
        rw [hfast] at hserved
        cases hserved
  · obtain ⟨after, kept, hrun, hretains, htrained, _⟩ := (h.learn hcallee hfast).served hfast
    exact ⟨pointer, after, kept, hrun, hretains,
      hretains.targetOf? (h.targetOf?_of_fast? hkind hfast), htrained⟩

theorem run (h : machine.Trained site kind realm executableOf callees link) {calls : List Call}
    (hkinds : ∀ call ∈ calls, call.kind = kind)
    (hcallable : ∀ call ∈ calls, machine.Callable kind realm call.callee)
    (hcallees : ∀ call ∈ calls,
      machine.heap.executableOf? call.callee = some (executableOf call.callee)) :
    ∃ (pointers : List CodePointer) (after : Machine) (kept : Link),
      (calls.mapM (selectAtSite site)).exec machine = (.ok (pointers.map .code), after) ∧
      machine.Retains after ∧
      calls.map after.targetOf? = pointers.map some ∧
      after.Trained site kind realm executableOf (callees ++ calls.map Call.callee) kept := by
  -- the history grows by one callee at a time, and the targets found so far stay
  induction calls generalizing machine callees link with
  | nil =>
      refine ⟨[], machine, link, rfl, .refl h.numbered, rfl, ?_⟩
      rwa [List.map_nil, List.append_nil]
  | cons first rest ih =>
      obtain ⟨pointer, between, linked, hfirst, hbetween, htarget, htrained⟩ :=
        h.step (hkinds first List.mem_cons_self) (hcallable first List.mem_cons_self)
          (hcallees first List.mem_cons_self)
      obtain ⟨pointers, after, kept, hrest, hafter, htargets, hlast⟩ := ih htrained
        (fun call hcall => hkinds call (List.mem_cons_of_mem _ hcall))
        (fun call hcall => hbetween.callable (hcallable call (List.mem_cons_of_mem _ hcall)))
        (fun call hcall => (hbetween.executableOf? _).trans
          (hcallees call (List.mem_cons_of_mem _ hcall)))
      refine ⟨pointer :: pointers, after, kept, exec_mapM_cons hfirst hrest,
        hbetween.trans hafter, ?_, ?_⟩
      · rw [List.map_cons, List.map_cons, hafter.targetOf? htarget, htargets]
      · rwa [List.append_assoc] at hlast

/-- As long as the executables fit, calls of known callees never take the slow path. -/
theorem replay (h : machine.Trained site kind realm executableOf callees link)
    (hfits : (callees.map executableOf).eraseDups.length ≤ machine.config.polymorphicCapacity)
    {calls : List Call} (hkinds : ∀ call ∈ calls, call.kind = kind)
    (hknown : ∀ call ∈ calls, call.callee ∈ callees) :
    ∃ (pointers : List CodePointer) (after : Machine) (kept : Link),
      (calls.mapM (selectAtSite site)).exec machine = (.ok (pointers.map .code), after) ∧
      machine.Retains after ∧ calls.map after.targetOf? = pointers.map some ∧
      after.Trained site kind realm executableOf callees kept ∧
      after.stats.slowPathCalls = machine.stats.slowPathCalls := by
  induction calls generalizing machine link with
  | nil => exact ⟨[], machine, link, rfl, .refl h.numbered, rfl, h, rfl⟩
  | cons first rest ih =>
      have hmem := hknown first List.mem_cons_self
      obtain ⟨pointer, hfast⟩ := h.learned.fast?_of_mem (h.learned.mode_ne_virtual hfits) hmem
        (h.closures _ hmem)
      obtain ⟨between, linked, hfirst, hbetween, htrained, hcount⟩ := h.served hfast
      obtain ⟨pointers, after, kept, hrest, hafter, htargets, hlast, hslow⟩ :=
        ih htrained (hbetween.config ▸ hfits)
          (fun call hcall => hkinds call (List.mem_cons_of_mem _ hcall))
          fun call hcall => hknown call (List.mem_cons_of_mem _ hcall)
      have hretains := hbetween.trans hafter
      have htarget := h.targetOf?_of_fast? (hkinds first List.mem_cons_self) hfast
      refine ⟨pointer :: pointers, after, kept, exec_mapM_cons hfirst hrest, hretains, ?_, hlast,
        hslow.trans hcount⟩
      rw [List.map_cons, List.map_cons, hretains.targetOf? htarget, htargets]

end Trained

theorem trained_fresh {block : Block} {descriptor : SiteDescriptor} {locations : Locations}
    {ceiling : Nat} (hnumbered : machine.code.Numbered)
    (hblock : machine.code.get? site.caller = some block) (hcaches : block.cachesCalls = true)
    (hfresh : machine.code.link? site = some (Link.fresh descriptor locations ceiling))
    (hindirect : descriptor.callType.isDirect = false) :
    machine.Trained site kind block.realm executableOf [] (Link.fresh descriptor locations ceiling)
    where
  numbered := hnumbered
  caller := ⟨block, hblock, hcaches, rfl⟩
  found := hfresh
  indirect := hindirect
  allowed := rfl
  agrees := Link.agrees_fresh descriptor locations ceiling
  learned := Link.learned_fresh descriptor locations ceiling
  closures := by rintro _ ⟨⟩
  routes := by
    rw [Link.routes_fresh]
    rintro _ ⟨⟩

theorem Callable.executableOf? {callee : Cell} (h : machine.Callable kind realm callee) :
    ∃ executable, machine.heap.executableOf? callee = some executable := by
  obtain ⟨closure, _, hclosure, _⟩ := h
  exact ⟨closure.executable, congrArg (Option.map Closure.executable) hclosure⟩

/-- Calls of functions of its realm, at a site that caches calls and has not been executed yet.
Every call reaches the code of its own executable. What the site is in the end depends on how many
callees and executables there were. It stays unlinked without calls. It goes virtual if there were
more executables than the capacity allows. Otherwise it is monomorphic after one callee and
polymorphic after more. It then has one case for each executable, in the order in which they first
occurred, and the cases are made for one callee each if no two callees shared an executable, and for
all closures of an executable if some did. Unless it has gone virtual, its slot from then on serves
all of these callees. -/
theorem calls_set_site_mode (hnumbered : machine.code.Numbered)
    (hcapacity : 1 ≤ machine.config.polymorphicCapacity) {block : Block}
    {descriptor : SiteDescriptor} {locations : Locations} {ceiling : Nat} {calls : List Call}
    (hblock : machine.code.get? site.caller = some block) (hcaches : block.cachesCalls = true)
    (hfresh : machine.code.link? site = some (Link.fresh descriptor locations ceiling))
    (hindirect : descriptor.callType.isDirect = false)
    (hcalls : ∀ call ∈ calls, call.kind = descriptor.callType.specialization ∧
      machine.Callable call.kind block.realm call.callee) :
    let capacity := machine.config.polymorphicCapacity
    let callees := (calls.map Call.callee).eraseDups
    let executables :=
      (calls.filterMap fun call => machine.heap.executableOf? call.callee).eraseDups
    ∃ (pointers : List CodePointer) (after : Machine) (link : Link),
      (calls.mapM (selectAtSite site)).exec machine = (.ok (pointers.map .code), after) ∧
      after.code.link? site = some link ∧
      calls.map after.targetOf? = pointers.map some ∧
      (∀ call pointer, machine.targetOf? call = some pointer →
        after.targetOf? call = some pointer) ∧
      link.mode = LinkMode.learned capacity callees.length executables.length ∧
      (∀ stub, link.state = .polymorphic stub →
        stub.cases.map (fun case => case.variant.executable) = executables ∧
        (callees.length = executables.length →
          ∀ case ∈ stub.cases, case.variant.isClosure = false) ∧
        (executables.length < callees.length →
          ∀ case ∈ stub.cases, case.variant.isClosure = true)) ∧
      (executables.length ≤ capacity → ∀ again : List Call, again ⊆ calls →
        ∃ (served : List CodePointer) (last : Machine) (kept : Link),
          (again.mapM (selectAtSite site)).exec after = (.ok (served.map .code), last) ∧
          again.map last.targetOf? = served.map some ∧
          last.stats.slowPathCalls = after.stats.slowPathCalls ∧
          last.code.link? site = some kept ∧
          ∀ call ∈ calls, ∃ pointer,
            kept.site.target.fast? last.heap call.callee = some pointer) := by
  intro capacity callees executables
  -- callees that are no closures do not occur, so any cell will do for them
  let executableOf := fun callee => (machine.heap.executableOf? callee).getD callee
  have hcallees : ∀ call ∈ calls,
      machine.heap.executableOf? call.callee = some (executableOf call.callee) := by
    intro call hcall
    obtain ⟨executable, hexecutable⟩ := (hcalls call hcall).2.executableOf?
    dsimp only [executableOf]
    rw [hexecutable, Option.getD_some]
  have hexecutables : executables = ((calls.map Call.callee).map executableOf).eraseDups := by
    dsimp only [executables]
    rw [List.filterMap_congr hcallees, List.map_map, ← List.filterMap_eq_map]
    rfl
  have hkinds : ∀ call ∈ calls, call.kind = descriptor.callType.specialization :=
    fun call hcall => (hcalls call hcall).1
  have htrained : machine.Trained site descriptor.callType.specialization block.realm executableOf
      [] (Link.fresh descriptor locations ceiling) :=
    trained_fresh hnumbered hblock hcaches hfresh hindirect
  obtain ⟨pointers, after, link, hrun, hretains, htargets, hlast⟩ := htrained.run hkinds
    (fun call hcall => (hkinds call hcall) ▸ (hcalls call hcall).2) hcallees
  have hlearned := hlast.learned
  rw [List.nil_append] at hlast hlearned
  rw [hretains.config] at hlearned
  rw [hexecutables]
  refine ⟨pointers, after, link, hrun, hlast.found, htargets, fun _ _ => hretains.targetOf?,
    hlearned.mode_eq hcapacity, fun stub => hlearned.cases_of_stub, fun hfits again hagain => ?_⟩
  have hknown : ∀ call ∈ calls, call.callee ∈ calls.map Call.callee :=
    fun call => List.mem_map_of_mem
  obtain ⟨served, last, kept, hserved, hkept, htargets, hstill, hslow⟩ :=
    hlast.replay (by rwa [hretains.config]) (fun call hcall => hkinds call (hagain hcall))
      fun call hcall => hknown call (hagain hcall)
  have hmode := hstill.learned.mode_ne_virtual (by rwa [hkept.config, hretains.config])
  exact ⟨served, last, kept, hserved, htargets, hslow, hstill.found, fun call hcall =>
    hstill.learned.fast?_of_mem hmode (hknown call hcall) (hstill.closures _ (hknown call hcall))⟩

/-- A function with a site is entered. There are two closures of a second executable and one of a
third. -/
def entersCaller : List Request :=
  [.order (.allocateExecutable { name := "f", entry := ⟨0⟩, sites := [⟨.call, 0⟩] }),
   .order (.createClosure ⟨0, 0⟩ {} []),
   .order (.allocateExecutable { name := "g", entry := ⟨1⟩, sites := [] }),
   .order (.createClosure ⟨2, 0⟩ {} []),
   .order (.createClosure ⟨2, 0⟩ {} []),
   .order (.allocateExecutable { name := "h", entry := ⟨2⟩, sites := [] }),
   .order (.createClosure ⟨5, 0⟩ {} []),
   .hostCall (.cell ⟨1, 0⟩) .undefined [] .call]

def threeCallees : List Call :=
  [⟨⟨3, 0⟩, .undefined, [], .call⟩, ⟨⟨6, 0⟩, .undefined, [], .call⟩,
   ⟨⟨4, 0⟩, .undefined, [], .call⟩, ⟨⟨3, 0⟩, .undefined, [], .call⟩]

/-- More cases than any configuration allows. The third call shares an executable with the first, so
the stub gets two wide cases. -/
theorem site_mode_of_three_callees :
    ∃ (machine : Machine) (pointers : List CodePointer) (after : Machine) (link : Link),
      machine.code.Numbered ∧ machine.config.polymorphicCapacity = 40 ∧
      machine.code.link? ⟨⟨1⟩, 0⟩ = some (Link.fresh ⟨.call, 0⟩ ⟨0, 24, 24⟩ 255) ∧
      (threeCallees.mapM (selectAtSite ⟨⟨1⟩, 0⟩)).exec machine
        = (.ok (pointers.map .code), after) ∧
      threeCallees.map after.targetOf? = pointers.map some ∧
      after.code.link? ⟨⟨1⟩, 0⟩ = some link ∧ link.mode = .polymorphic ∧
      ∀ stub, link.state = .polymorphic stub →
        stub.cases.map (fun case => case.variant.executable) = [⟨2, 0⟩, ⟨5, 0⟩] ∧
        ∀ case ∈ stub.cases, case.variant.isClosure = true := by
  have hreachable : Execution.Reachable {} ((Execution.mk
      { config := {}, heap := { settings := ({} : Config).heapSettings } } []).run entersCaller) :=
    ⟨_, entersCaller, rfl, rfl⟩
  obtain ⟨machine, hmachine⟩ : ∃ machine : Machine, machine = { ((Execution.mk
      { config := {}, heap := { settings := ({} : Config).heapSettings } } []).run
        entersCaller).machine with config := { polymorphicCapacity := 40 } } := ⟨_, rfl⟩
  have hnumbered : machine.code.Numbered := by
    rw [hmachine]
    exact hreachable.kept.numbered
  have hcapacity : machine.config.polymorphicCapacity = 40 := by rw [hmachine]
  have hblock : (machine.code.get? ⟨1⟩).any
      (fun block => block.cachesCalls && block.realm == {}) = true := by
    rw [hmachine]
    decide +kernel
  have hfresh : machine.code.link? ⟨⟨1⟩, 0⟩ = some (Link.fresh ⟨.call, 0⟩ ⟨0, 24, 24⟩ 255) := by
    rw [hmachine]
    decide +kernel
  have hclosures : [⟨3, 0⟩, ⟨4, 0⟩, ⟨6, 0⟩].map machine.heap.closure?
      = [some ⟨⟨2, 0⟩, {}, []⟩, some ⟨⟨2, 0⟩, {}, []⟩, some ⟨⟨5, 0⟩, {}, []⟩] := by
    rw [hmachine]
    decide +kernel
  have hexecutables : [⟨2, 0⟩, ⟨5, 0⟩].map machine.heap.executable?
      = [some { name := "g", entry := ⟨1⟩ }, some { name := "h", entry := ⟨2⟩ }] := by
    rw [hmachine]
    decide +kernel
  have hlist : (threeCallees.filterMap fun call =>
      machine.heap.executableOf? call.callee).eraseDups = [⟨2, 0⟩, ⟨5, 0⟩] := by
    rw [hmachine]
    decide +kernel
  rw [Option.any_eq_true] at hblock
  obtain ⟨block, hblock, hcaller⟩ := hblock
  rw [Bool.and_eq_true, beq_iff_eq] at hcaller
  simp only [List.map_cons, List.map_nil, List.cons.injEq] at hclosures hexecutables
  obtain ⟨hfirst, hthird, hsecond, _⟩ := hclosures
  obtain ⟨hg, hh, _⟩ := hexecutables
  have hcalls : ∀ call ∈ threeCallees, call.kind = .call ∧
      machine.Callable call.kind block.realm call.callee := by
    rw [hcaller.2]
    intro call hcall
    simp only [threeCallees, List.mem_cons, List.not_mem_nil, or_false] at hcall
    rcases hcall with rfl | rfl | rfl | rfl
    · exact ⟨rfl, _, _, hfirst, rfl, hg, by rintro ⟨⟩, .inr ⟨[], rfl⟩⟩
    · exact ⟨rfl, _, _, hsecond, rfl, hh, by rintro ⟨⟩, .inr ⟨[], rfl⟩⟩
    · exact ⟨rfl, _, _, hthird, rfl, hg, by rintro ⟨⟩, .inr ⟨[], rfl⟩⟩
    · exact ⟨rfl, _, _, hfirst, rfl, hg, by rintro ⟨⟩, .inr ⟨[], rfl⟩⟩
  obtain ⟨pointers, after, link, hrun, hfound, htargets, _, hmode, hstub, _⟩ :=
    calls_set_site_mode hnumbered (by rw [hcapacity]; decide) hblock hcaller.1 hfresh rfl hcalls
  rw [hlist] at hmode hstub
  rw [hcapacity] at hmode
  refine ⟨machine, pointers, after, link, hnumbered, hcapacity, hfresh, hrun, htargets, hfound,
    hmode, fun stub hstate => ?_⟩
  obtain ⟨hcases, _, hwide⟩ := hstub stub hstate
  exact ⟨hcases, hwide (by decide)⟩

end Machine

end InlineCache
