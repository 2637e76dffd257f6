import InlineCache.Proofs.Machine.Calls
import InlineCache.Proofs.Ownership

/-!
# Calls that find code

A callee can be called if it is a closure whose executable is there, can be called in this way and
has code, or can be compiled. A call of such a callee resolves it. Nothing that such a call does,
here or at a site, changes what other callees are or where they go: it only adds code.
-/

namespace InlineCache

namespace Machine

variable {before middle after machine : Machine} {site : SiteRef} {callee executable : Cell}
  {kind : Specialization} {realm : Realm} {pointer : CodePointer}

/-- Where calls to the closures of an executable go: to the start of its current code. -/
def target? (machine : Machine) (executable : Cell) (kind : Specialization) :
    Option CodePointer :=
  (machine.currentCode? executable kind).bind fun id => (machine.code.get? id).map Block.pointer

/-- Where a call goes if its callee is resolved to code that is there. -/
def targetOf? (machine : Machine) (call : Call) : Option CodePointer :=
  (machine.heap.executableOf? call.callee).bind fun executable =>
    machine.target? executable call.kind

theorem Resolves.target?_eq {resolved : Resolved} (h : machine.Resolves kind resolved) :
    machine.target? resolved.executable kind = some resolved.target := by
  obtain ⟨executable, block, hexecutable, hcode, hblock, hpointer, _⟩ := h.code
  rw [target?, currentCode?, hexecutable]
  show (executable.code kind).bind _ = _
  rw [hcode]
  show (machine.code.get? block.id).map Block.pointer = _
  rw [hblock, Option.map_some, hpointer]

/-- Calls to the callee find code: it is a closure of the realm, its executable is there and may be
called in this way, and there is code for it or there are labels to compile it. -/
def Callable (machine : Machine) (kind : Specialization) (realm : Realm) (callee : Cell) : Prop :=
  ∃ closure executable, machine.heap.closure? callee = some closure ∧ closure.realm = realm ∧
    machine.heap.executable? closure.executable = some executable ∧
    (kind = .construct → executable.constructible = true) ∧
    ((∃ pointer, machine.target? closure.executable kind = some pointer) ∨
      ∃ labels, Locations.forBlock executable.sites.length = .ok labels)

/-- Every cell is what it was, and all code is still there. -/
structure Retains (before after : Machine) : Prop where
  numbered : after.code.Numbered
  config : after.config = before.config
  closure : ∀ cell, after.heap.closure? cell = before.heap.closure? cell
  executable : ∀ {cell executable}, before.heap.executable? cell = some executable →
    ∃ kept, after.heap.executable? cell = some kept ∧
      kept.constructible = executable.constructible ∧ kept.sites = executable.sites
  block : ∀ {id block}, before.code.get? id = some block →
    ∃ kept, after.code.get? id = some kept ∧ kept.bare = block.bare
  target : ∀ {executable kind pointer}, before.target? executable kind = some pointer →
    after.target? executable kind = some pointer

namespace Retains

theorem trans (hleft : Retains before middle) (hright : Retains middle after) :
    Retains before after where
  numbered := hright.numbered
  config := hright.config.trans hleft.config
  closure cell := (hright.closure cell).trans (hleft.closure cell)
  executable hcell := by
    obtain ⟨between, hbetween, hconstruct, hsites⟩ := hleft.executable hcell
    obtain ⟨kept, hkept, hagain, hstill⟩ := hright.executable hbetween
    exact ⟨kept, hkept, hagain.trans hconstruct, hstill.trans hsites⟩
  block hblock := by
    obtain ⟨between, hbetween, hbare⟩ := hleft.block hblock
    obtain ⟨kept, hkept, hsame⟩ := hright.block hbetween
    exact ⟨kept, hkept, hsame.trans hbare⟩
  target htarget := hright.target (hleft.target htarget)

/-- Links, incoming sites and barriers do not matter. -/
theorem of_bare (hnumbered : after.code.Numbered) (hconfig : after.config = before.config)
    (hget : ∀ cell, after.heap.get? cell = before.heap.get? cell)
    (hbare : ∀ id, (after.code.get? id).map Block.bare = (before.code.get? id).map Block.bare) :
    Retains before after where
  numbered := hnumbered
  config := hconfig
  closure cell := by rw [Heap.closure?, Heap.closure?, hget]
  executable {cell executable} hcell := by
    refine ⟨executable, ?_, rfl, rfl⟩
    rw [Heap.executable?, hget]
    exact hcell
  block {id block} hblock := by
    have hsame := hbare id
    rw [hblock] at hsame
    exact Option.map_eq_some_iff.mp hsame
  target {executable kind pointer} htarget := by
    obtain ⟨id, hcode, hpointer⟩ := Option.bind_eq_some_iff.mp htarget
    obtain ⟨block, hblock, rfl⟩ := Option.map_eq_some_iff.mp hpointer
    have hsame := hbare id
    rw [hblock] at hsame
    obtain ⟨kept, hkept, hbare⟩ := Option.map_eq_some_iff.mp hsame
    rw [target?, currentCode?_congr hget, hcode]
    show (after.code.get? id).map Block.pointer = _
    rw [hkept, Option.map_some, (Block.eq_of_bare hbare).2.2.2.2]

theorem refl (hnumbered : machine.code.Numbered) : Retains machine machine :=
  of_bare hnumbered rfl (fun _ => rfl) fun _ => rfl

theorem editLink (hnumbered : before.code.Numbered) (edit : Edit) :
    Retains before (before.editLink site edit) :=
  of_bare (hnumbered.setLink edit.link) rfl (perform_barriers _ edit.effects).get?
    fun _ => CodeTable.bare_setLink edit.link

theorem compiled (hnumbered : before.code.Numbered) {request : Compilation}
    (labels : List Locations)
    (hexecutable : before.heap.executable? request.owner = some request.executable)
    (hmissing : ∀ id, request.executable.code request.kind = some id →
      before.code.contains id = false) :
    Retains before (before.compiled request labels) where
  numbered := hnumbered.append rfl
  config := rfl
  closure _ := Heap.closure?_setCode
  executable {cell executable} hcell := by
    show ∃ kept, (before.heap.setCode _ _ _).executable? cell = some kept ∧ _
    rw [Heap.executable?_setCode]
    split
    · rename_i howner
      rw [← howner, hcell]
      exact ⟨_, rfl, Executable.setCode_constructible _ _ _, Executable.setCode_sites _ _ _⟩
    · exact ⟨executable, hcell, rfl, rfl⟩
  block hblock := ⟨_, CodeTable.get?_append_of_some hnumbered rfl hblock, rfl⟩
  target {executable kind pointer} htarget := by
    obtain ⟨id, hcode, hpointer⟩ := Option.bind_eq_some_iff.mp htarget
    obtain ⟨block, hblock, rfl⟩ := Option.map_eq_some_iff.mp hpointer
    have hother : ¬ (executable = request.owner ∧ kind = request.kind) := by
      rintro ⟨rfl, rfl⟩
      rw [currentCode?, hexecutable] at hcode
      have hgone := hmissing id hcode
      rw [CodeTable.contains_iff.mpr ⟨block, hblock⟩] at hgone
      cases hgone
    have hkept : (before.compiled request labels).code.get? id = some block :=
      CodeTable.get?_append_of_some hnumbered rfl hblock
    rw [target?, currentCode?_compiled, if_neg hother, hcode]
    show ((before.compiled request labels).code.get? id).map Block.pointer = _
    rw [hkept, Option.map_some]

theorem callable (h : Retains before after) (hcallable : before.Callable kind realm callee) :
    after.Callable kind realm callee := by
  obtain ⟨closure, executable, hclosure, hrealm, hexecutable, hconstruct, hcode⟩ := hcallable
  obtain ⟨kept, hkept, hsame, hsites⟩ := h.executable hexecutable
  refine ⟨closure, kept, (h.closure callee).trans hclosure, hrealm, hkept,
    fun hkind => hsame.trans (hconstruct hkind), ?_⟩
  rcases hcode with ⟨pointer, hpointer⟩ | ⟨labels, hlabels⟩
  · exact .inl ⟨pointer, h.target hpointer⟩
  · exact .inr ⟨labels, hsites ▸ hlabels⟩

theorem executableOf? (h : Retains before after) (cell : Cell) :
    after.heap.executableOf? cell = before.heap.executableOf? cell := by
  rw [Heap.executableOf?, Heap.executableOf?, h.closure]

theorem names (h : Retains before after) {guard : Guard}
    (hnames : guard.Names before.heap executable) : guard.Names after.heap executable :=
  hnames.congr fun cell _ hcell => (h.executableOf? cell).trans hcell

theorem targetOf? (h : Retains before after) {call : Call}
    (htarget : before.targetOf? call = some pointer) : after.targetOf? call = some pointer := by
  obtain ⟨executable, hcallee, hpointer⟩ := Option.bind_eq_some_iff.mp htarget
  exact Option.bind_eq_some_iff.mpr
    ⟨executable, (h.executableOf? _).trans hcallee, h.target hpointer⟩

end Retains

end Machine

namespace MachineM

open Machine CodeTable

variable {before after machine : Machine} {site : SiteRef} {callee owner : Cell}
  {kind : Specialization} {realm : Realm}

/-! ### Resolving -/

theorem EnsuresCode.retains {id : CodeId} (hnumbered : before.code.Numbered)
    (h : EnsuresCode before owner realm kind (.ok id, after)) : before.Retains after := by
  cases h with
  | current => exact .refl hnumbered
  | @compiled executable labels hexecutable hmissing =>
      have hcompiled : before.Retains
          (before.compiled (executable.baseline owner realm kind) labels) :=
        .compiled hnumbered labels hexecutable hmissing
      exact hcompiled.trans (.of_bare hcompiled.numbered rfl (fun _ => rfl) fun _ => rfl)

/-- The code of an executable is there, or can be compiled. -/
theorem ensureCode_ok {executable : Executable}
    (hexecutable : machine.heap.executable? owner = some executable)
    (hcode : (∃ pointer, machine.target? owner kind = some pointer) ∨
      ∃ labels, Locations.forBlock executable.sites.length = .ok labels) (realm : Realm) :
    ∃ id after, (ensureCode owner realm kind).exec machine = (.ok id, after) := by
  have hcases := ensureCode_cases machine owner realm kind
  rcases hrun : (ensureCode owner realm kind).exec machine with ⟨error | id, after⟩
  · rw [hrun] at hcases
    cases hcases with
    | failed _ hmissing =>
        obtain ⟨hgone, hfull⟩ := hmissing executable hexecutable
        rcases hcode with ⟨pointer, htarget⟩ | ⟨labels, hlabels⟩
        · obtain ⟨id, hcurrent, hpointer⟩ := Option.bind_eq_some_iff.mp htarget
          obtain ⟨block, hblock, _⟩ := Option.map_eq_some_iff.mp hpointer
          rw [currentCode?, hexecutable] at hcurrent
          have hdead := hgone id hcurrent
          rw [contains_iff.mpr ⟨block, hblock⟩] at hdead
          cases hdead
        · exact absurd hlabels (hfull labels)
  · exact ⟨id, after, rfl⟩

/-- A callee that can be called is resolved to the current code of its executable. -/
theorem resolve_of_callable (hnumbered : before.code.Numbered)
    (h : before.Callable kind realm callee) :
    ∃ resolved after, (resolve callee kind).exec before = (.ok (.function resolved realm), after) ∧
      resolved.callee = callee ∧ before.Retains after ∧ after.Resolves kind resolved ∧
      ∀ {site link}, before.code.link? site = some link → after.code.link? site = some link := by
  obtain ⟨closure, executable, hclosure, hrealm, hexecutable, hconstruct, hcode⟩ := h
  obtain ⟨id, after, hensured⟩ := ensureCode_ok hexecutable hcode closure.realm
  have hcode := ensureCode_cases before closure.executable closure.realm kind
  rw [hensured] at hcode
  obtain ⟨_, block, _, _, hblock, _⟩ := hcode.current_code hnumbered
  have hresolved := exec_resolve hclosure hexecutable hconstruct hensured hblock
  rw [hrealm] at hresolved
  have hcases : Resolving anyWork before _ _ _ := resolve_cases hnumbered callee kind
  rw [hresolved] at hcases
  cases hcases with
  | function _ hkept _ hresolves =>
      refine ⟨_, after, hresolved, rfl, hcode.retains hnumbered, hresolves, fun hlink => ?_⟩
      obtain ⟨caller, hcaller, hindex⟩ := link?_eq_some_iff.mp hlink
      exact link?_eq_some_iff.mpr ⟨caller, hkept hcaller, hindex⟩

/-! ### Linking -/

/-- Linking a function to a site of its realm that caches calls. -/
theorem linkFunction_of_caches (hnumbered : before.code.Numbered) {block : Block} {link : Link}
    (hblock : before.code.get? site.caller = some block) (hcaches : block.cachesCalls = true)
    (hlink : before.code.link? site = some link) (resolved : Resolved) :
    let linker : Linker := { link, stats := before.stats, lastStub := before.lastStub }
    ∃ after, (linkFunction site resolved block.realm).exec before = (.ok ⟨⟩, after) ∧
      before.Retains after ∧ after.code.link? site = some (linker.linkCall before.heap block.owner
        before.config.polymorphicCapacity resolved).2.link := by
  intro linker
  have hcachable : uncachable? block block.realm = none := by
    rw [uncachable?, hcaches]
    simp
  obtain ⟨outcome, houtcome, _⟩ := Linker.linkCall_installs linker before.heap block.owner
    before.config.polymorphicCapacity resolved
  simp only [linkFunction, exec_bind, MachineM.block, MachineM.link, exec_look, exec_get,
    block_eq_ok_iff.mpr hblock, link_eq_ok_iff.mpr hlink, exec_runLinker, hcachable]
  change (linker.linkCall before.heap block.owner before.config.polymorphicCapacity resolved).1 = _
    at houtcome
  generalize Linker.linkCall _ before.heap block.owner before.config.polymorphicCapacity resolved
    = run at houtcome ⊢
  obtain ⟨_, linked⟩ := run
  obtain rfl := houtcome
  dsimp only
  generalize hedited : Machine.editLink _ site _ = edited
  have hretains : before.Retains edited := by
    rw [← hedited]
    exact .of_bare (hnumbered.setLink _) rfl (perform_barriers _ _).get? fun _ => bare_setLink _
  have hsite : edited.code.link? site = some linked.link := by
    rw [← hedited]
    exact link?_setLink_self _ hlink
  rcases outcome with codes | _ | _
  · refine ⟨{ edited with code := edited.code.noteIncoming codes site }, ?_, hretains.trans ?_, ?_⟩
    · rw [← foldl_addIncoming]
      rfl
    · exact .of_bare ((Evolves.noteIncoming _ _ _).numbered hretains.numbered) rfl (fun _ => rfl)
        fun _ => bare_noteIncoming codes
    · exact (link?_noteIncoming codes site).trans hsite
  · exact ⟨edited, rfl, hretains, hsite⟩
  · exact ⟨edited, rfl, hretains, hsite⟩

/-- The slow path of a call that finds code, at a site that caches calls of its realm. -/
theorem selectSlow_of_callable (hnumbered : before.code.Numbered) {block : Block} {link : Link}
    {call : Call} (hblock : before.code.get? site.caller = some block)
    (hcaches : block.cachesCalls = true) (hlink : before.code.link? site = some link)
    (hcallable : before.Callable call.kind block.realm call.callee) :
    ∃ (resolved : Resolved) (linker : Linker) (ready after : Machine),
      (selectSlow site call).exec before = (.ok (.code resolved.target), after) ∧
      resolved.callee = call.callee ∧ linker.link = link.recordSlowPath call.callee ∧
      before.Retains ready ∧ ready.Resolves call.kind resolved ∧ ready.Retains after ∧
      after.code.link? site = some (linker.linkCall ready.heap block.owner
        before.config.polymorphicCapacity resolved).2.link := by
  let profiled := { before with stats :=
    { before.stats with slowPathCalls := tick64 before.stats.slowPathCalls } }.editLink site
      { link := link.recordSlowPath call.callee }
  have hprofiled : before.Retains profiled :=
    .of_bare (hnumbered.setLink _) rfl (fun _ => rfl) fun _ => bare_setLink _
  have hsite : profiled.code.link? site = some (link.recordSlowPath call.callee) :=
    link?_setLink_self _ hlink
  obtain ⟨resolved, ready, hresolved, hcallee, hready, hresolves, hlinks⟩ :=
    resolve_of_callable hprofiled.numbered (hprofiled.callable hcallable)
  obtain ⟨kept, hkept, hbare⟩ := (hprofiled.trans hready).block hblock
  have hstill : kept.cachesCalls = true := (congrArg Block.cachesCalls hbare).trans hcaches
  obtain ⟨after, hlinked, hafter, hlast⟩ :=
    linkFunction_of_caches hready.numbered hkept hstill (hlinks hsite) resolved
  obtain ⟨_, howner, hrealm, _⟩ := Block.eq_of_bare hbare
  rw [howner, (hprofiled.trans hready).config] at hlast
  refine ⟨resolved, _, ready, after, ?_, hcallee, rfl, hprofiled.trans hready, hresolves, hafter,
    hlast⟩
  rw [selectSlow_eq, exec_bind, exec_modify]
  dsimp only
  rw [exec_bind, MachineM.link, exec_look, link_eq_ok_iff.mpr (by exact hlink)]
  dsimp only
  rw [exec_bind, exec_modify]
  dsimp only
  rw [exec_bind, hresolved]
  dsimp only
  rw [exec_bind, ← hrealm, hlinked]
  rfl

end MachineM

end InlineCache
