import InlineCache.Proofs.Machine.Operations

/-!
# Calls as chains of changes

A call at a site links the site on its slow path. What it installs there goes to the code of a
callee that has just been resolved, for the specialization that the call type of the site asks for.
-/

namespace InlineCache

namespace Machine

variable {may : Work → Prop} {before after : Machine} {site : SiteRef}

/-- The call type of a site stays the same for as long as the site is there. -/
theorem Changes.callType_eq {link found : Link} (h : Changes may before after)
    (hnumbered : before.code.Numbered) (hbefore : before.code.link? site = some link)
    (hafter : after.code.link? site = some found) : found.callType = link.callType :=
  ((h.evolves hnumbered).becomes hnumbered hbefore hafter).callType_eq

theorem foldl_addIncoming (machine : Machine) (codes : List CodeId) (site : SiteRef) :
    codes.foldl (fun machine id => machine.addIncoming id site) machine
      = { machine with code := machine.code.noteIncoming codes site } := by
  induction codes generalizing machine with
  | nil => rfl
  | cons id codes ih => exact ih (machine.addIncoming id site)

/-- Linking with the effects of the new record is a chain of changes. -/
theorem Changes.install {link installed : Link} {owner : Cell} {resolved : Resolved}
    {codes : List CodeId} (effects : List Effect) (hlink : before.code.link? site = some link)
    (hresolves : before.Resolves link.callType.specialization resolved)
    (hinstalls : link.Installs before.heap owner before.config.polymorphicCapacity resolved
      installed codes)
    (hrealm : before.SameRealm site resolved.callee)
    (hstore : after.store = ⟨before.config, before.heap.issueBarriers effects,
      (before.code.setLink site installed).noteIncoming codes site⟩) :
    Changes may before after :=
  .trans (.trans (.single (.install hlink hresolves hinstalls hrealm)) (.issueBarriers _ effects))
    (.bookkeeping hstore)

end Machine

/-- Where a slot sends a call without resolving the callee. -/
def Target.fast? (target : Target) (heap : Heap Entity) (callee : Cell) : Option CodePointer :=
  match target with
  | .guarded expected pointer => if expected = callee then some pointer else none
  | .stub routine =>
    (heap.executableOf? callee).bind fun executable => routine.dispatch? callee executable
  | .direct pointer => some pointer
  | .slowPath => none
  | .virtual => none

/-- The call that a call at a site makes. -/
def SiteCall.call (request : SiteCall) (callee : Cell) (kind : Specialization) : Call :=
  { callee, receiver := request.receiver, arguments := request.arguments, kind }

namespace Machine

variable {may : Work → Prop} {before after : Machine} {request : SiteCall} {link : Link}

/-- A site with a variable number of arguments notes how many there are. -/
def noted (machine : Machine) (request : SiteCall) (link : Link) : Machine :=
  if link.callType.isVarargs then
    machine.editLink request.site
      { link := link.noteVarargs (min (request.arguments.length + 1) word32Max) }
  else machine

/-- One more call at a virtual site. -/
def countVirtual (machine : Machine) : Machine :=
  { machine with stats :=
    { machine.stats with virtualCalls := tick64 machine.stats.virtualCalls } }

/-- The machine that a call at a site comes to its safepoint with, if it gets so far. -/
def arrive? (machine : Machine) (request : SiteCall) : Option Machine :=
  match machine.code.link? request.site, request.callee with
  | some link, .cell callee =>
    if link.callType.isTail = request.tail then
      some ((machine.noted request link).pushRoots
        (request.call callee link.callType.specialization).cells)
    else none
  | _, _ => none

theorem arrive?_eq_some_iff : before.arrive? request = some after ↔
    ∃ link callee, before.code.link? request.site = some link ∧ request.callee = .cell callee ∧
      link.callType.isTail = request.tail ∧
      (before.noted request link).pushRoots
        (request.call callee link.callType.specialization).cells = after := by
  rw [arrive?]
  rcases before.code.link? request.site with _ | link <;>
    rcases request.callee with _ | _ | callee <;> simp

theorem noted_changes (hlink : before.code.link? request.site = some link) :
    Changes may before (before.noted request link) := by
  rw [noted]
  split
  · exact .editLink (.profile hlink (.varargs _))
  · exact .refl _

theorem link?_noted (hlink : before.code.link? request.site = some link) :
    ∃ found, (before.noted request link).code.link? request.site = some found ∧
      found.callType = link.callType := by
  rw [noted]
  split
  · exact ⟨_, CodeTable.link?_setLink_self _ hlink, rfl⟩
  · exact ⟨link, hlink, rfl⟩

theorem arrive?_changes (h : before.arrive? request = some after) :
    Changes may before after := by
  obtain ⟨link, callee, hlink, _, _, rfl⟩ := arrive?_eq_some_iff.mp h
  exact .trans (noted_changes hlink) (.bookkeeping rfl)

theorem arrive?_heap (h : before.arrive? request = some after) : after.heap = before.heap := by
  obtain ⟨link, callee, _, _, _, rfl⟩ := arrive?_eq_some_iff.mp h
  rw [noted]
  split <;> rfl

theorem arrive?_stackRoots (h : before.arrive? request = some after) :
    before.stackRoots ⊆ after.stackRoots := by
  obtain ⟨link, callee, _, _, _, rfl⟩ := arrive?_eq_some_iff.mp h
  rw [noted]
  split <;> exact List.subset_append_left _ _

end Machine

namespace MachineM

open Machine

variable {may : Work → Prop} {before : Machine} {site : SiteRef}

theorem exec_runLinker (link : Link) (linking : Linker → Except LinkError LinkOutcome × Linker)
    (machine : Machine) :
    (runLinker site link linking).exec machine =
      ((linking { link, stats := machine.stats, lastStub := machine.lastStub }).1.mapError .link,
        { machine with
          stats := (linking { link, stats := machine.stats, lastStub := machine.lastStub }).2.stats
          lastStub :=
            (linking { link, stats := machine.stats, lastStub := machine.lastStub }).2.lastStub
        }.editLink site
          { link := (linking { link, stats := machine.stats, lastStub := machine.lastStub }).2.link
            effects :=
              (linking { link, stats := machine.stats, lastStub := machine.lastStub }).2.effects })
      := by
  simp only [runLinker, exec_bind, exec_get, exec_set]
  rcases linking { link, stats := machine.stats, lastStub := machine.lastStub } with
    ⟨error | outcome, linker⟩ <;> rfl

theorem goVirtual_delivers {link : Link} (hlink : before.code.link? site = some link)
    (reason : VirtualReason) :
    Delivers may before ((runLinker site link fun linker =>
      (.ok .virtualized, linker.goVirtual reason)).exec before) := by
  rw [exec_runLinker]
  refine .ok (.trans (.single (.giveUp hlink (.inl rfl))) ?_)
  rw [Machine.editLink, Linker.goVirtual_link]
  exact .trans (.issueBarriers _ _) (.bookkeeping rfl)

theorem realm_of_cachable {block : Block} {realm : Realm} (h : uncachable? block realm = none) :
    realm = block.realm := by
  rw [uncachable?] at h
  split at h
  · cases h
  · split at h
    · cases h
    · rename_i hsame
      exact (not_not.mp hsame).symm

theorem linkFunction_delivers {resolved : Resolved} {realm : Realm}
    (hresolves : ∀ link, before.code.link? site = some link →
      before.Resolves link.callType.specialization resolved)
    (hclosure : ∃ closure, before.heap.closure? resolved.callee = some closure ∧
      closure.realm = realm) :
    Delivers may before ((linkFunction site resolved realm).exec before) := by
  refine .bind_look (block_ne_dangling before site.caller) fun block hblock => ?_
  refine .bind_look (link_ne_dangling before site) fun link hlink => .bind_get ?_
  rw [link_eq_ok_iff] at hlink
  rw [block_eq_ok_iff] at hblock
  rcases hcachable : uncachable? block realm with _ | reason <;> dsimp only
  · obtain ⟨closure, hcallee, hrealm⟩ := hclosure
    have hsame : before.SameRealm site resolved.callee :=
      ⟨block, closure, hblock, hcallee, hrealm.trans (realm_of_cachable hcachable)⟩
    rw [exec_bind, exec_runLinker]
    have hlinks := Linker.linkCall_installs
      { link, stats := before.stats, lastStub := before.lastStub } before.heap block.owner
      before.config.polymorphicCapacity resolved
    generalize Linker.linkCall _ before.heap block.owner before.config.polymorphicCapacity resolved
      = run at hlinks ⊢
    obtain ⟨_, linker⟩ := run
    obtain ⟨outcome, rfl, hinstalls⟩ := hlinks
    have hresolved := hresolves link hlink
    rcases outcome with targets | _ | _
    · refine .ok (.install linker.effects hlink hresolved hinstalls hsame ?_)
      dsimp only
      rw [foldl_addIncoming]
      rfl
    · exact .ok (.install linker.effects hlink hresolved hinstalls hsame rfl)
    · exact .ok (.install linker.effects hlink hresolved hinstalls hsame rfl)
  · refine .bind (goVirtual_delivers hlink reason) fun outcome after hrun => ?_
    rw [exec_runLinker, Prod.mk.injEq] at hrun
    rw [← Except.ok.inj hrun.1]
    exact .ok (.refl _)

theorem selectGeneric_delivers (hnumbered : before.code.Numbered) (call : Call) :
    Delivers may before ((selectGeneric call).exec before) := by
  rw [selectGeneric_eq]
  exact .map _ (resolve_cases hnumbered call.callee call.kind).delivers

theorem selectFast_delivers (target : CodePointer) :
    Delivers may before ((selectFast target).exec before) :=
  .bind_modify (.bookkeeping rfl) (.ok (.refl _))

/-- The slow path, at a site that asks for the specialization of the call. -/
theorem selectSlow_delivers (hnumbered : before.code.Numbered) {call : Call}
    (hkind : ∀ link, before.code.link? site = some link →
      link.callType.specialization = call.kind) :
    Delivers may before ((selectSlow site call).exec before) := by
  rw [selectSlow_eq]
  refine .bind_modify (.bookkeeping rfl) ?_
  generalize hstats : Machine.mk _ _ _ _ _ _ _ _ _ = counted
  have hcode : counted.code = before.code := by rw [← hstats]
  rw [← hcode] at hnumbered hkind
  refine .bind_look (link_ne_dangling counted site) fun link hfound => ?_
  have hlink := link_eq_ok_iff.mp hfound
  have hprofile : Changes may counted
      (counted.editLink site { link := link.recordSlowPath call.callee }) :=
    .editLink (.profile hlink (.slowPath call.callee))
  refine .bind_modify hprofile ?_
  have hstill := (hprofile.evolves hnumbered).numbered hnumbered
  generalize Machine.editLink _ site _ = profiled at hprofile hstill ⊢
  have hcases : Resolving may profiled _ _ _ :=
    resolve_cases hstill call.callee call.kind
  refine .bind hcases.delivers fun resolution after hrun => ?_
  rw [hrun] at hcases
  cases hcases with
  | handler entry =>
      refine .bind (.bind_look (link_ne_dangling _ site) fun found hfound => ?_)
        fun _ _ _ => .ok (.refl _)
      exact .discard (goVirtual_delivers (link_eq_ok_iff.mp hfound) _)
  | @function resolved realm _ hchanges hkept hcallee hresolves hsame hrealm =>
      refine .bind (linkFunction_delivers (fun found hfound => ?_) ?_) fun _ _ _ => .ok (.refl _)
      · rw [(hprofile.trans hchanges).callType_eq hnumbered hlink hfound, hkind link hlink]
        exact hresolves
      · rwa [hcallee, hsame]

/-- What a call at a site does with the slot that it reads: it goes where the slot sends it, it
resolves its callee, or it takes the slow path. -/
inductive Dispatching (site : SiteRef) (call : Call) (before : Machine)
    (outcome : Except MachineError Destination × Machine) : Prop where
  | missing {error : MachineError} (hlink : before.link site = .error error)
      (houtcome : outcome = (.error error, before))
  | slow {link : Link} (hlink : before.code.link? site = some link)
      (hmissed : link.site.target.fast? before.heap call.callee = none)
      (houtcome : outcome = (selectSlow site call).exec before)
  | resolved {link : Link} (hlink : before.code.link? site = some link)
      (htarget : link.site.target = .virtual)
      (houtcome : outcome = (selectGeneric call).exec before.countVirtual)
  | served {link : Link} {pointer : CodePointer} (hlink : before.code.link? site = some link)
      (hfast : link.site.target.fast? before.heap call.callee = some pointer)
      (houtcome : outcome = (selectFast pointer).exec before)
  /-- The stub counts the calls that it serves. -/
  | servedByStub {link : Link} {pointer : CodePointer} (executable : Cell)
      (hlink : before.code.link? site = some link)
      (hfast : link.site.target.fast? before.heap call.callee = some pointer)
      (houtcome : outcome = (selectFast pointer).exec
        (before.editLink site { link := link.hitStub call.callee executable }))

theorem selectAtSite_cases (site : SiteRef) (call : Call) (before : Machine) :
    Dispatching site call before ((selectAtSite site call).exec before) := by
  rw [selectAtSite, CallPath.atSite, lift_eq, exec_bind, MachineM.link, exec_look]
  rcases hfound : before.link site with error | link <;> dsimp only
  · exact .missing hfound rfl
  · have hlink := link_eq_ok_iff.mp hfound
    rcases htarget : link.site.target with _ | ⟨expected, target⟩ | stub | _ | target <;> dsimp only
    · exact .slow hlink (by rw [htarget]; rfl) rfl
    · split
      · rename_i hexpected
        exact .served hlink (by rw [htarget]; exact if_pos hexpected) rfl
      · rename_i hother
        exact .slow hlink (by rw [htarget]; exact if_neg hother) rfl
    · rw [lift_eq, exec_bind, current, exec_get]
      dsimp only
      rcases hexecutable : before.heap.executableOf? call.callee with _ | executable <;> dsimp only
      · exact .slow hlink (by rw [htarget, Target.fast?, hexecutable]; rfl) rfl
      · have hfast : (Target.stub stub).fast? before.heap call.callee
            = stub.dispatch? call.callee executable := by
          rw [Target.fast?, hexecutable]
          rfl
        rw [← htarget] at hfast
        rcases hdispatch : stub.dispatch? call.callee executable with _ | target <;> dsimp only
        · exact .slow hlink (hfast.trans hdispatch) rfl
        · exact .servedByStub executable hlink (hfast.trans hdispatch) rfl
    · exact .resolved hlink htarget rfl
    · exact .served hlink (by rw [htarget]; rfl) rfl

/-- A call that the slot serves goes where the slot sends it. The stub may count it. -/
theorem selectAtSite_served {link : Link} {call : Call} {pointer : CodePointer}
    (hlink : before.code.link? site = some link)
    (hfast : link.site.target.fast? before.heap call.callee = some pointer) :
    ∃ counted, (selectAtSite site call).exec before = (selectFast pointer).exec counted ∧
      (counted = before ∨ ∃ executable,
        counted = before.editLink site { link := link.hitStub call.callee executable }) := by
  have hsame : ∀ {found}, before.code.link? site = some found → found = link := fun hfound =>
    Option.some.inj (hfound.symm.trans hlink)
  cases selectAtSite_cases site call before with
  | missing hmissing _ =>
      rw [link_eq_ok_iff.mpr hlink] at hmissing
      cases hmissing
  | slow hfound hmissed _ =>
      rw [hsame hfound, hfast] at hmissed
      cases hmissed
  | resolved hfound htarget _ =>
      rw [hsame hfound] at htarget
      rw [htarget] at hfast
      cases hfast
  | served hfound hserved houtcome =>
      rw [hsame hfound, hfast] at hserved
      obtain rfl := Option.some.inj hserved
      exact ⟨before, houtcome, .inl rfl⟩
  | servedByStub executable hfound hserved houtcome =>
      obtain rfl := hsame hfound
      obtain rfl := Option.some.inj (hfast.symm.trans hserved)
      exact ⟨_, houtcome, .inr ⟨executable, rfl⟩⟩

theorem selectAtSite_delivers (hnumbered : before.code.Numbered) {call : Call}
    (hkind : ∀ link, before.code.link? site = some link →
      link.callType.specialization = call.kind) :
    Delivers may before ((selectAtSite site call).exec before) := by
  cases selectAtSite_cases site call before with
  | missing hlink houtcome =>
      rw [houtcome]
      refine .error (.refl _) fun code heq => link_ne_dangling before site code ?_
      rw [hlink, heq]
  | slow hlink hmissed houtcome =>
      rw [houtcome]
      exact selectSlow_delivers hnumbered hkind
  | resolved hlink htarget houtcome =>
      have hcounted : Changes may before before.countVirtual := .bookkeeping rfl
      rw [houtcome]
      exact .after_changes hcounted
        (selectGeneric_delivers ((hcounted.evolves hnumbered).numbered hnumbered) call)
  | served hlink hfast houtcome =>
      rw [houtcome]
      exact selectFast_delivers _
  | servedByStub executable hlink hfast houtcome =>
      rw [houtcome]
      exact .after_changes (.editLink (.profile hlink (.hit call.callee executable)))
        (selectFast_delivers _)

theorem exec_selecting (call : Call) (select : MachineM Destination) (machine : Machine) :
    (CallPath.selecting call select).exec machine =
      match select.exec (machine.pushRoots call.cells) with
      | (.ok destination, after) =>
        (.ok { call, destination, base := machine.stackRoots.length }, after)
      | (.error error, after) => (.error error, after.unwindTo machine.stackRoots.length) := by
  rw [CallPath.selecting, lift_eq, exec_bind, current, exec_get]
  dsimp only
  rw [lift_eq, exec_bind, alter, exec_modify]
  dsimp only
  rw [exec_tryCatch, exec_bind]
  rcases select.exec (machine.pushRoots call.cells) with ⟨error | destination, after⟩ <;> rfl

theorem selecting_delivers {call : Call} {select : MachineM Destination} {origin : Machine}
    (h : Delivers may origin (select.exec (before.pushRoots call.cells))) :
    Delivers may origin ((CallPath.selecting call select).exec before) := by
  rw [exec_selecting]
  rcases hrun : select.exec (before.pushRoots call.cells) with ⟨error | destination, after⟩ <;>
    rw [hrun] at h <;> dsimp only
  · refine ⟨h.changes.trans (.bookkeeping rfl), fun code herror => ?_⟩
    have hfault := h.dangling code (by rw [Except.error.inj herror])
    rw [← hfault]
    exact fault?_of_store rfl
  · exact .ok h.changes

theorem startHostCall_delivers (hnumbered : before.code.Numbered) (callee receiver : Value)
    (arguments : List Value) (kind : Specialization) :
    Delivers may before ((startHostCall callee receiver arguments kind).exec before) := by
  unfold startHostCall
  split
  · apply selecting_delivers
    generalize hpushed : before.pushRoots _ = pushed
    have hcode : pushed.code = before.code := by rw [← hpushed]; rfl
    have hroots : Changes may before pushed := .bookkeeping (by rw [← hpushed]; rfl)
    exact .after_changes hroots (selectGeneric_delivers (hcode ▸ hnumbered) _)
  · exact notCallable_delivers _ _

/-! ### Calls at sites -/

/-- A call at a site is a safepoint. The slot is read after it, and the site still has the call type
that it had before, if it is still there. -/
theorem selectAfterSafepoint_delivers (hnumbered : before.code.Numbered) {link : Link}
    (hlink : before.code.link? site = some link) {call : Call}
    (hkind : link.callType.specialization = call.kind) :
    Delivers may (safepoint.exec before).2
      ((do safepoint; selectAtSite site call : MachineM Destination).exec before) := by
  have hsafe : Delivers anyWork before (safepoint.exec before) :=
    safepoint_delivers fun _ => trivial
  rw [exec_bind]
  rcases hrun : safepoint.exec before with ⟨error | _, after⟩ <;> rw [hrun] at hsafe <;> dsimp only
  · refine ⟨.refl _, fun code herror => hsafe.dangling code ?_⟩
    rw [Except.error.inj herror]
  · have hchain := hsafe.changes
    refine selectAtSite_delivers ((hchain.evolves hnumbered).numbered hnumbered) ?_
    intro found hfound
    rw [hchain.callType_eq hnumbered hlink hfound, hkind]

theorem exec_startSiteCall {request : SiteCall} {link : Link}
    (hlink : before.code.link? request.site = some link)
    (htail : link.callType.isTail = request.tail) :
    (startSiteCall request).exec before =
      match request.callee with
      | .cell cell =>
        (CallPath.selecting (request.call cell link.callType.specialization) (do
          safepoint
          selectAtSite request.site (request.call cell link.callType.specialization))).exec
            (before.noted request link)
      | value => (notCallable value link.callType.specialization).exec (before.noted request link)
      := by
  rw [startSiteCall, CallPath.start, lift_eq, exec_bind, MachineM.link, exec_look,
    link_eq_ok_iff.mpr hlink]
  dsimp only
  rw [if_neg (not_not_intro htail), noted]
  by_cases hvarargs : link.callType.isVarargs = true
  · rw [if_pos hvarargs, if_pos hvarargs]
    rcases request.callee with _ | _ | cell <;> rfl
  · rw [if_neg hvarargs, if_neg hvarargs]
    rcases request.callee with _ | _ | cell <;> rfl

theorem exec_startSiteCall_of_error {request : SiteCall} {error : MachineError}
    (hmissing : before.link request.site = .error error) :
    (startSiteCall request).exec before = (.error error, before) := by
  rw [startSiteCall, CallPath.start, lift_eq, exec_bind, MachineM.link, exec_look, hmissing]

theorem exec_startSiteCall_of_missing {request : SiteCall}
    (hlink : before.code.link? request.site = none) :
    ∃ error, before.link request.site = .error error ∧
      (startSiteCall request).exec before = (.error error, before) := by
  rcases hfound : before.link request.site with error | link
  · exact ⟨error, rfl, exec_startSiteCall_of_error hfound⟩
  · rw [link_eq_ok_iff, hlink] at hfound
    cases hfound

theorem exec_startSiteCall_of_mismatch {request : SiteCall} {link : Link}
    (hlink : before.code.link? request.site = some link)
    (htail : link.callType.isTail ≠ request.tail) :
    (startSiteCall request).exec before =
      (.error (.modeMismatch request.site.caller request.site.index request.tail), before) := by
  rw [startSiteCall, CallPath.start, lift_eq, exec_bind, MachineM.link, exec_look,
    link_eq_ok_iff.mpr hlink]
  dsimp only
  rw [if_pos htail, exec_bind, exec_throw]

/-- A call that comes to its safepoint. -/
theorem startSiteCall_arrived (hnumbered : before.code.Numbered) {request : SiteCall}
    {prepared : Machine} (h : before.arrive? request = some prepared) :
    Delivers may (safepoint.exec prepared).2 ((startSiteCall request).exec before) := by
  obtain ⟨link, cell, hlink, hcallee, htail, rfl⟩ := arrive?_eq_some_iff.mp h
  have hnoted : Changes may before (before.noted request link) := noted_changes hlink
  obtain ⟨found, hfound, htype⟩ := link?_noted hlink
  rw [exec_startSiteCall hlink htail, hcallee]
  refine selecting_delivers (selectAfterSafepoint_delivers ?_ (by exact hfound) ?_)
  · exact (hnoted.evolves hnumbered).numbered hnumbered
  · rw [htype]
    rfl

/-- A call that does not get so far does not involve the collector. -/
theorem startSiteCall_stopped {request : SiteCall} (h : before.arrive? request = none) :
    Delivers may before ((startSiteCall request).exec before) := by
  rcases hfound : before.code.link? request.site with _ | link
  · obtain ⟨error, hmissing, hrun⟩ := exec_startSiteCall_of_missing hfound
    rw [hrun]
    exact .error (.refl _) fun code heq =>
      link_ne_dangling before request.site code (hmissing.trans (congrArg Except.error heq))
  · by_cases htail : link.callType.isTail = request.tail
    · rw [exec_startSiteCall hfound htail]
      have hnoted : Changes may before (before.noted request link) :=
        noted_changes hfound
      rcases hcallee : request.callee with _ | _ | cell
      · exact .after_changes hnoted (notCallable_delivers _ _)
      · exact .after_changes hnoted (notCallable_delivers _ _)
      · rw [arrive?_eq_some_iff.mpr ⟨link, cell, hfound, hcallee, htail, rfl⟩] at h
        cases h
    · rw [exec_startSiteCall_of_mismatch hfound htail]
      exact .error (.refl _) fun _ => by simp

theorem startSiteCall_delivers (hnumbered : before.code.Numbered) (request : SiteCall)
    (hmay : (before.arrive? request).isSome = true →
      before.heap.isMarking = true ∨ before.heap.shouldCollect = true → may .collecting) :
    Delivers may before ((startSiteCall request).exec before) := by
  rcases harrive : before.arrive? request with _ | prepared
  · exact startSiteCall_stopped harrive
  · have hheap := arrive?_heap harrive
    refine .after_changes (arrive?_changes harrive) (.after_changes ?_
      (startSiteCall_arrived hnumbered harrive))
    refine (safepoint_delivers ?_).changes
    rw [hheap]
    exact hmay (by rw [harrive]; rfl)

/-! ### Entering and leaving -/

theorem receiverOf_delivers (call : Call) :
    Delivers may before ((receiverOf call).exec before) := by
  unfold receiverOf
  split
  · exact .map _ (.ok (.single (.object none)))
  · exact .ok (.refl _)

/-- A destination is live if its code is there. The handlers of objects are always there. -/
def isLive (machine : Machine) : Destination → Bool
  | .code pointer => machine.code.contains pointer.block
  | .handler _ => true

/-- Entering a live destination succeeds. Entering code that is gone fails with a dangling
pointer. -/
inductive Entering (may : Work → Prop) (before : Machine) (transfer : Transfer) :
    Except MachineError Activation × Machine → Prop where
  | entered {activation : Activation} {after : Machine}
      (hlive : isLive before transfer.destination = true)
      (hchanges : Changes may before after) (hbase : activation.base = transfer.base) :
      Entering may before transfer (.ok activation, after)
  | dangling {pointer : CodePointer} (hdestination : transfer.destination = .code pointer)
      (hgone : before.code.contains pointer.block = false) :
      Entering may before transfer
        (.error (.danglingPointer pointer.block), before.unwindTo transfer.base)

theorem enter_cases (transfer : Transfer) :
    Entering may before transfer ((enter transfer).exec before) := by
  have hreceiver : Delivers may before ((receiverOf transfer.call).exec before) :=
    receiverOf_delivers transfer.call
  have hanswers : ∃ value, ((receiverOf transfer.call).exec before).1 = .ok value := by
    unfold receiverOf
    rcases transfer.call.kind with _ | _
    · exact ⟨_, rfl⟩
    · exact ⟨_, rfl⟩
  obtain ⟨receiver, hanswer⟩ := hanswers
  rcases hrun : (receiverOf transfer.call).exec before with ⟨result, made⟩
  rw [hrun] at hreceiver hanswer
  obtain rfl : result = .ok receiver := hanswer
  have hmade := hreceiver.changes
  simp only [enter]
  rcases hdestination : transfer.destination with pointer | entry
  · simp only [exec_bind, exec_get]
    rcases hlive : before.code.contains pointer.block with _ | _
    · exact .dangling hdestination hlive
    · simp only [if_true, exec_bind, exec_pure, hrun, exec_modify]
      refine .entered (by rw [hdestination]; exact hlive) (hmade.trans (.bookkeeping ?_)) rfl
      split <;> rfl
  · simp only [exec_bind, exec_pure, hrun, exec_modify]
    refine .entered (by rw [hdestination]; rfl) (hmade.trans (.bookkeeping ?_)) rfl
    split <;> rfl

theorem enter_changes (transfer : Transfer) :
    Changes may before ((enter transfer).exec before).2 := by
  have hcases : Entering may before transfer _ := enter_cases transfer
  generalize (enter transfer).exec before = outcome at hcases ⊢
  cases hcases with
  | entered hlive hchanges hbase => exact hchanges
  | dangling hdestination hgone => exact .bookkeeping rfl

theorem leave_changes (activation : Activation) (result : Except MachineError Value) :
    Changes may before ((leave activation result).exec before).2 := by
  refine .bookkeeping ?_
  simp only [leave, exec_bind, exec_modify]
  rcases result with error | value
  · rfl
  · dsimp only
    split <;> rfl

/-- Leaving fails only if the entry failed, and then in the same way. -/
theorem leave_error {activation : Activation} {result : Except MachineError Value}
    {error : MachineError} (h : ((leave activation result).exec before).1 = .error error) :
    result = .error error := by
  simp only [leave, exec_bind, exec_modify] at h
  rcases result with failure | value
  · exact h
  · dsimp only at h
    split at h <;> cases h

end MachineM

end InlineCache
