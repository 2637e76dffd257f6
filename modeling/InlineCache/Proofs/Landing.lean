import InlineCache.Proofs.Incoming

/-!
# Where calls land

In a machine whose lists of incoming sites are complete, a call that finds a destination finds one
that is there, and the check of the links finds no dangling pointer. So no request fails with a
dangling pointer, unless it only passes on the failure of an entry.
-/

namespace InlineCache

open CodeTable

/-- Where a slot sends a call, one of its pointers goes. -/
theorem Target.mem_pointers_of_fast? {target : Target} {heap : Heap Entity} {callee : Cell}
    {pointer : CodePointer} (h : target.fast? heap callee = some pointer) :
    pointer ∈ target.pointers := by
  rcases target with _ | ⟨expected, target⟩ | stub | _ | target
  · cases h
  · obtain ⟨_, hpointer⟩ := Option.ite_none_right_eq_some.mp h
    rw [← Option.some.inj hpointer]
    exact List.mem_singleton_self _
  · obtain ⟨executable, _, hdispatch⟩ := Option.bind_eq_some_iff.mp h
    obtain ⟨variant, hroute, _⟩ := Stub.route_of_dispatch? hdispatch
    obtain ⟨case, hcase, heq⟩ := Stub.mem_routes.mp hroute
    exact List.mem_map.mpr ⟨case, hcase, congrArg Prod.snd heq⟩
  · cases h
  · rw [← Option.some.inj h]
    exact List.mem_singleton_self _

namespace Machine

variable {machine : Machine}

theorem contains_of_pointer {site : SiteRef} {link : Link} {pointer : CodePointer}
    (h : machine.code.Linked) (hlink : machine.code.link? site = some link)
    (hpointer : pointer ∈ link.site.target.pointers) :
    machine.code.contains pointer.block = true := by
  rw [(h.agrees hlink).pointers_target] at hpointer
  obtain ⟨route, hroute, rfl⟩ := List.mem_map.mp hpointer
  obtain ⟨block, hblock, _⟩ := h.incoming hlink route hroute
  exact contains_iff.mpr ⟨block, hblock⟩

theorem linkFault?_ne_dangling {site : SiteRef} {link : Link} (h : machine.code.Linked)
    (hlink : machine.code.link? site = some link) (code : CodeId) :
    machine.linkFault? link ≠ some (.danglingPointer code) := by
  intro hfault
  rw [linkFault?] at hfault
  rcases hdead : link.dependents.find? fun cell => !machine.heap.contains cell with _ | cell <;>
    rw [hdead] at hfault <;> dsimp only at hfault
  · rcases hgone : link.site.target.pointers.find? fun pointer =>
      !machine.code.contains pointer.block with _ | pointer <;>
      rw [hgone] at hfault <;> dsimp only at hfault
    · cases hfault
    · have hcontains := contains_of_pointer h hlink (List.mem_of_find?_eq_some hgone)
      have hmissing := List.find?_some hgone
      rw [hcontains] at hmissing
      cases hmissing
  · cases hfault

/-- What the check of the links finds is wrong with the record of some site. -/
theorem exists_of_fault? (hnumbered : machine.code.Numbered) {error : MachineError}
    (hfault : machine.fault? = some error) :
    ∃ site link, machine.code.link? site = some link ∧ machine.linkFault? link = some error := by
  rw [fault?] at hfault
  obtain ⟨link, hmem, hlink⟩ := List.exists_of_findSome?_eq_some hfault
  obtain ⟨block, hblock, hlinks⟩ := List.mem_flatMap.mp hmem
  obtain ⟨index, hindex⟩ := List.getElem?_of_mem hlinks
  exact ⟨⟨block.id, index⟩, link,
    link?_eq_some_iff.mpr ⟨block, hnumbered.get?_of_mem hblock, hindex⟩, hlink⟩

/-- The check of the links finds no dangling pointer. -/
theorem fault?_ne_dangling (hnumbered : machine.code.Numbered) (h : machine.code.Linked)
    (code : CodeId) : machine.fault? ≠ some (.danglingPointer code) := by
  intro hfault
  obtain ⟨site, link, hlink, herror⟩ := exists_of_fault? hnumbered hfault
  exact linkFault?_ne_dangling h hlink code herror

end Machine

namespace MachineM

open Machine

variable {before after : Machine} {site : SiteRef} {destination : Destination}

theorem runLinker_contains (link : Link)
    (linking : Linker → Except LinkError LinkOutcome × Linker) (id : CodeId) :
    ((runLinker site link linking).exec before).2.code.contains id = before.code.contains id := by
  rw [exec_runLinker]
  exact contains_update fun _ => rfl

theorem contains_noteIncoming (table : CodeTable) (codes : List CodeId) (id : CodeId) :
    (table.noteIncoming codes site).contains id = table.contains id := by
  induction codes generalizing table with
  | nil => rfl
  | cons code codes ih =>
      rw [noteIncoming_cons, ih, contains_update fun _ => Block.addIncoming_id _ _]

theorem linkFunction_contains (resolved : Resolved) (realm : Realm) (id : CodeId) :
    ((linkFunction site resolved realm).exec before).2.code.contains id
      = before.code.contains id := by
  simp only [linkFunction, exec_bind, MachineM.block, MachineM.link, exec_look, exec_get]
  rcases before.block site.caller with _ | block <;> dsimp only
  rcases before.link site with _ | link <;> dsimp only
  generalize hrun : (runLinker site link _).exec before = outcome
  have hlinked : outcome.2.code.contains id = before.code.contains id := by
    rw [← hrun]
    exact runLinker_contains _ _ _
  rcases outcome with ⟨_ | _ | _ | _, linked⟩
  · exact hlinked
  · simp only [exec_modify, foldl_addIncoming]
    rw [contains_noteIncoming]
    exact hlinked
  · exact hlinked
  · exact hlinked

/-- What a callee resolves to is the current code of its executable. -/
theorem Resolving.currentCode? {may : Work → Prop} {callee : Cell} {kind : Specialization}
    {resolved : Resolved} {realm : Realm}
    (h : Resolving may before callee kind (.ok (.function resolved realm), after)) :
    ∃ executable, after.heap.executableOf? callee = some executable ∧
      after.currentCode? executable kind = some resolved.target.block := by
  cases h with
  | function hchanges hkept hcallee hresolves =>
      obtain ⟨executable, block, hexecutable, hcode, _, htarget, _⟩ := hresolves.code
      refine ⟨_, hcallee ▸ hresolves.closure, ?_⟩
      rw [Machine.currentCode?, hexecutable, ← htarget]
      exact hcode

theorem Resolving.isLive {may : Work → Prop} {callee : Cell} {kind : Specialization}
    {resolution : Resolution}
    (h : Resolving may before callee kind (.ok resolution, after)) :
    isLive after resolution.destination = true := by
  cases h with
  | handler entry => rfl
  | function hchanges hkept hcallee hresolves =>
      obtain ⟨block, hblock⟩ := hresolves.target_live
      exact contains_iff.mpr ⟨block, hblock⟩

theorem exec_selectGeneric_ok {call : Call}
    (h : (selectGeneric call).exec before = (.ok destination, after)) :
    ∃ resolution, (resolve call.callee call.kind).exec before = (.ok resolution, after) ∧
      resolution.destination = destination := by
  rw [selectGeneric_eq, exec_map] at h
  rcases hrun : (resolve call.callee call.kind).exec before with ⟨error | resolution, found⟩ <;>
    rw [hrun] at h
  · cases h
  · obtain ⟨hdestination, rfl⟩ := Prod.mk.inj h
    exact ⟨resolution, rfl, Except.ok.inj hdestination⟩

theorem selectGeneric_lands {call : Call} (hnumbered : before.code.Numbered)
    (h : (selectGeneric call).exec before = (.ok destination, after)) :
    isLive after destination = true := by
  obtain ⟨resolution, hrun, rfl⟩ := exec_selectGeneric_ok h
  have hcases : Resolving anyWork before _ _ _ := resolve_cases hnumbered call.callee call.kind
  rw [hrun] at hcases
  exact hcases.isLive

/-- What the slow path does to the site once the callee is resolved. -/
inductive Linking (site : SiteRef) (before after : Machine) : Resolution → Prop where
  | function {resolved : Resolved} {realm : Realm}
      (h : (linkFunction site resolved realm).exec before = (.ok ⟨⟩, after)) :
      Linking site before after (.function resolved realm)
  | handler {entry : Entry} {link : Link} (hlink : before.code.link? site = some link)
      (h : (runLinker site link fun linker =>
        (.ok .virtualized, linker.goVirtual .callableObject)).exec before
          = (.ok .virtualized, after)) :
      Linking site before after (.handler entry)

/-- The slow path of a call that finds a destination notes the call, resolves the callee and links
the site. -/
theorem exec_selectSlow_ok {call : Call} (may : Work → Prop)
    (h : (selectSlow site call).exec before = (.ok destination, after)) :
    ∃ link profiled resolution found, before.code.link? site = some link ∧
      Changes may before profiled ∧ profiled.heap = before.heap ∧
      (resolve call.callee call.kind).exec profiled = (.ok resolution, found) ∧
      resolution.destination = destination ∧ Linking site found after resolution := by
  rw [selectSlow_eq] at h
  obtain ⟨_, counted, hcounted, h⟩ := exec_bind_ok h
  obtain ⟨link, hfound, h⟩ := exec_bind_look_ok h
  obtain ⟨_, profiled, hprofiled, h⟩ := exec_bind_ok h
  obtain ⟨resolution, found, hresolved, h⟩ := exec_bind_ok h
  have hlink := link_eq_ok_iff.mp hfound
  have hcount : Changes may before counted ∧ counted.code = before.code ∧
      counted.heap = before.heap := by
    cases hcounted
    exact ⟨.bookkeeping rfl, rfl, rfl⟩
  have hprofile : Changes may counted profiled ∧ profiled.heap = counted.heap := by
    cases hprofiled
    exact ⟨.editLink (.profile hlink (.slowPath call.callee)), rfl⟩
  rw [hcount.2.1] at hlink
  refine ⟨link, profiled, resolution, found, hlink, hcount.1.trans hprofile.1,
    hprofile.2.trans hcount.2.2, hresolved, ?_⟩
  rcases resolution with ⟨resolved, realm⟩ | entry
  · obtain ⟨_, linked, hlinked, h⟩ := exec_bind_ok h
    cases h
    exact ⟨rfl, .function hlinked⟩
  · obtain ⟨_, gone, hgone, h⟩ := exec_bind_ok h
    obtain ⟨current, hcurrent, hgone⟩ := exec_bind_look_ok hgone
    cases h
    rw [exec_discard, exec_runLinker] at hgone
    refine ⟨rfl, .handler (link_eq_ok_iff.mp hcurrent) ?_⟩
    rw [exec_runLinker, ← (Prod.mk.inj hgone).2]
    rfl

theorem selectSlow_lands {call : Call} (hnumbered : before.code.Numbered)
    (h : (selectSlow site call).exec before = (.ok destination, after)) :
    isLive after destination = true := by
  obtain ⟨_, profiled, resolution, found, _, hprofile, _, hresolved, rfl, hlinking⟩ :=
    exec_selectSlow_ok anyWork h
  have hstill := (hprofile.evolves hnumbered).numbered hnumbered
  have hcases : Resolving anyWork profiled _ _ _ := resolve_cases hstill call.callee call.kind
  rw [hresolved] at hcases
  have hlive := hcases.isLive
  cases hlinking with
  | @function resolved realm hlinked =>
      have hkept : ((linkFunction site resolved realm).exec found).2.code.contains
          resolved.target.block = found.code.contains resolved.target.block :=
        linkFunction_contains _ _ _
      rw [hlinked] at hkept
      exact hkept.trans hlive
  | handler => rfl

theorem selectFast_lands {target : CodePointer} (hlive : before.code.contains target.block = true)
    (h : (selectFast target).exec before = (.ok destination, after)) :
    isLive after destination = true := by
  obtain ⟨_, counted, hcounted, h⟩ := exec_bind_ok h
  cases hcounted
  cases h
  exact hlive

/-- A call at a site lands, whichever way it takes. -/
theorem selectAtSite_lands {call : Call} (hnumbered : before.code.Numbered)
    (hlinked : before.code.Linked)
    (h : (selectAtSite site call).exec before = (.ok destination, after)) :
    isLive after destination = true := by
  cases selectAtSite_cases site call before with
  | missing hlink houtcome =>
      rw [houtcome] at h
      cases h
  | slow hlink hmissed houtcome => exact selectSlow_lands hnumbered (houtcome ▸ h)
  | resolved hlink htarget houtcome =>
      have hcounted : before.countVirtual.code.Numbered := hnumbered
      exact selectGeneric_lands hcounted (houtcome ▸ h)
  | served hlink hfast houtcome =>
      have hlive := contains_of_pointer hlinked hlink (Target.mem_pointers_of_fast? hfast)
      exact selectFast_lands hlive (houtcome ▸ h)
  | servedByStub executable hlink hfast houtcome =>
      have hlive := contains_of_pointer hlinked hlink (Target.mem_pointers_of_fast? hfast)
      refine selectFast_lands ?_ (houtcome ▸ h)
      rw [← hlive]
      exact contains_update fun _ => rfl

/-- A call that finds a destination has found it with its cells on the stack. -/
theorem exec_selecting_ok {call : Call} {select : MachineM Destination} {transfer : Transfer}
    (h : (CallPath.selecting call select).exec before = (.ok transfer, after)) :
    transfer.call = call ∧
      select.exec (before.pushRoots call.cells) = (.ok transfer.destination, after) := by
  rw [exec_selecting] at h
  rcases hrun : select.exec (before.pushRoots call.cells) with ⟨error | destination, found⟩ <;>
    rw [hrun] at h
  · cases h
  · cases h
    exact ⟨rfl, rfl⟩

theorem exec_startHostCall_ok {callee receiver : Value} {arguments : List Value}
    {kind : Specialization} {transfer : Transfer}
    (h : (startHostCall callee receiver arguments kind).exec before = (.ok transfer, after)) :
    (selectGeneric transfer.call).exec (before.pushRoots transfer.call.cells)
      = (.ok transfer.destination, after) := by
  unfold startHostCall at h
  split at h
  · obtain ⟨hcall, hselect⟩ := exec_selecting_ok h
    rwa [← hcall] at hselect
  · cases h

/-- A call at a site that finds a destination has come to its safepoint, and has read the slot after
it. -/
theorem exec_startSiteCall_ok {request : SiteCall} {transfer : Transfer}
    (h : (startSiteCall request).exec before = (.ok transfer, after)) :
    ∃ link prepared safe, before.code.link? request.site = some link ∧
      link.callType.specialization = transfer.call.kind ∧
      before.arrive? request = some prepared ∧ safepoint.exec prepared = (.ok ⟨⟩, safe) ∧
      (selectAtSite request.site transfer.call).exec safe
        = (.ok transfer.destination, after) := by
  obtain ⟨link, hfound, hrest⟩ := exec_bind_look_ok h
  have hlink := link_eq_ok_iff.mp hfound
  by_cases htail : link.callType.isTail = request.tail
  · rw [exec_startSiteCall hlink htail] at h
    rcases hcallee : request.callee with _ | _ | cell <;> rw [hcallee] at h <;> dsimp only at h
    · cases h
    · cases h
    · obtain ⟨hcall, hselect⟩ := exec_selecting_ok h
      obtain ⟨_, safe, hsafe, hselect⟩ := exec_bind_ok hselect
      rw [← hcall] at hselect
      refine ⟨link, _, safe, hlink, ?_, ?_, hsafe, hselect⟩
      · rw [hcall]
        rfl
      · exact arrive?_eq_some_iff.mpr ⟨link, cell, hlink, hcallee, htail, rfl⟩
  · dsimp only at hrest
    rw [if_pos htail, exec_bind, exec_throw] at hrest
    cases hrest

theorem startHostCall_lands {callee receiver : Value} {arguments : List Value}
    {kind : Specialization} {transfer : Transfer} (hnumbered : before.code.Numbered)
    (h : (startHostCall callee receiver arguments kind).exec before = (.ok transfer, after)) :
    isLive after transfer.destination = true :=
  selectGeneric_lands (by exact hnumbered) (exec_startHostCall_ok h)

/-- The safepoint of a call may discard code. The slot is read after it. -/
theorem startSiteCall_lands {request : SiteCall} {transfer : Transfer}
    (hnumbered : before.code.Numbered) (hlinked : before.code.Linked)
    (h : (startSiteCall request).exec before = (.ok transfer, after)) :
    isLive after transfer.destination = true := by
  obtain ⟨_, prepared, safe, _, _, harrive, hsafe, hselect⟩ := exec_startSiteCall_ok h
  have hdelivers : Delivers anyWork prepared (safepoint.exec prepared) :=
    safepoint_delivers fun _ => trivial
  rw [hsafe] at hdelivers
  have hboth := ((arrive?_changes harrive).trans hdelivers.changes).linked hnumbered hlinked
  exact selectAtSite_lands hboth.1 hboth.2 hselect

/-! ### No dangling pointers -/

theorem Delivers.ne_dangling {α : Type} {may : Work → Prop}
    {outcome : Except MachineError α × Machine} (h : Delivers may before outcome)
    (hnumbered : before.code.Numbered) (hlinked : before.code.Linked) (code : CodeId) :
    outcome.1 ≠ .error (.danglingPointer code) := by
  intro herror
  have hafter := h.changes.linked hnumbered hlinked
  exact fault?_ne_dangling hafter.1 hafter.2 code (h.dangling code herror)

theorem enter_ne_dangling {transfer : Transfer}
    (hlive : isLive before transfer.destination = true) (code : CodeId) :
    ((enter transfer).exec before).1 ≠ .error (.danglingPointer code) := by
  have hcases : Entering anyWork before transfer _ := enter_cases transfer
  generalize (enter transfer).exec before = outcome at hcases ⊢
  cases hcases with
  | entered => simp
  | dangling hdestination hgone =>
      rw [hdestination, isLive, hgone] at hlive
      cases hlive

theorem createClosure_ne_dangling (executable : Cell) (realm : Realm) (captures : List Value)
    (code : CodeId) :
    ((createClosure executable realm captures).exec before).1
      ≠ .error (.danglingPointer code) := by
  simp only [createClosure, exec_bind, exec_discard, MachineM.executable, exec_look,
    Machine.executable]
  rcases before.heap.executable? executable with _ | found
  · simp [Except.map]
  · rintro ⟨⟩

theorem orderRun_ne_dangling (order : Order) (hnumbered : before.code.Numbered)
    (hlinked : before.code.Linked) (code : CodeId) :
    (order.run.exec before).1 ≠ .error (.danglingPointer code) := by
  by_cases hclosure : ∃ executable realm captures, order = .createClosure executable realm captures
  · obtain ⟨executable, realm, captures, rfl⟩ := hclosure
    have hne : ((createClosure executable realm captures).exec before).1
        ≠ .error (.danglingPointer code) := createClosure_ne_dangling _ _ _ _
    rw [Order.run, exec_map]
    rcases hrun : ((createClosure executable realm captures).exec before).1 with error | cell <;>
      rw [hrun] at hne
    · exact fun h => hne (congrArg Except.error (Except.error.inj h))
    · rintro ⟨⟩
  · have hdelivers : Delivers anyWork before (order.run.exec before) :=
      order.run_delivers (fun executable realm captures heq =>
        hclosure ⟨executable, realm, captures, heq⟩) fun _ _ => trivial
    exact hdelivers.ne_dangling hnumbered hlinked code

theorem call_ne_dangling {start : MachineM Transfer} (hnumbered : before.code.Numbered)
    (hlinked : before.code.Linked) (hdelivers : Delivers anyWork before (start.exec before))
    (hlands : ∀ {transfer after}, start.exec before = (.ok transfer, after) →
      isLive after transfer.destination = true) (code : CodeId) :
    ((start >>= enter).exec before).1 ≠ .error (.danglingPointer code) := by
  have hne := hdelivers.ne_dangling hnumbered hlinked code
  rw [exec_bind]
  rcases hrun : start.exec before with ⟨error | transfer, found⟩ <;> rw [hrun] at hne
  · exact fun h => hne (congrArg Except.error (Except.error.inj h))
  · exact enter_ne_dangling (hlands hrun) code

end MachineM

namespace Execution

open MachineM

/-- A request fails with a dangling pointer only if it passes on the failure of an entry. -/
theorem step_ne_dangling (execution : Execution) (request : Request)
    (hnumbered : execution.machine.code.Numbered) (hlinked : execution.machine.code.Linked)
    (code : CodeId) :
    (execution.step request).1 ≠ .answered (.error (.danglingPointer code)) ∧
      ((execution.step request).1 = .returned (.error (.danglingPointer code)) →
        request = .finish (.error (.danglingPointer code))) := by
  have hcall : ∀ {start : MachineM Transfer},
      ((start >>= enter).exec execution.machine).1 ≠ .error (.danglingPointer code) →
      (execution.call start).1 ≠ .answered (.error (.danglingPointer code)) ∧
        (execution.call start).1 ≠ .returned (.error (.danglingPointer code)) := by
    intro start hne
    rw [call]
    rcases hrun : (start >>= enter).exec execution.machine with ⟨error | activation, machine⟩ <;>
      rw [hrun] at hne
    · refine ⟨by simp, fun h => hne ?_⟩
      rw [Except.error.inj (Reply.returned.inj h)]
    · exact ⟨by simp, by simp⟩
  cases request with
  | order order =>
      refine ⟨fun h => ?_, by rintro ⟨⟩⟩
      exact orderRun_ne_dangling order hnumbered hlinked code (Reply.answered.inj h)
  | hostCall callee receiver arguments kind =>
      have hne := hcall (call_ne_dangling hnumbered hlinked
        (startHostCall_delivers hnumbered callee receiver arguments kind)
        (startHostCall_lands hnumbered) code)
      exact ⟨hne.1, fun h => absurd h hne.2⟩
  | siteCall request =>
      have hne := hcall (call_ne_dangling hnumbered hlinked
        (startSiteCall_delivers hnumbered request fun _ _ => trivial)
        (startSiteCall_lands hnumbered hlinked) code)
      exact ⟨hne.1, fun h => absurd h hne.2⟩
  | finish result =>
      rw [step]
      rcases execution.active with _ | ⟨activation, outer⟩
      · exact ⟨by simp, by simp⟩
      · refine ⟨by simp, fun h => ?_⟩
        rw [leave_error (Reply.returned.inj h)]

end Execution

end InlineCache
