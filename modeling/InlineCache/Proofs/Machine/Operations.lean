import InlineCache.Proofs.Machine.Change

/-!
# Operations as chains of changes

Each operation of the machine, whether it answers or fails, leaves a machine that a chain of changes
leads to. The one operation that reports a dangling pointer on its own account is the check of the
links after a collection, so elsewhere such an error says what that check finds.
-/

namespace InlineCache

/-- What is compiled when an executable is first called. -/
def Executable.baseline (executable : Executable) (owner : Cell) (realm : Realm)
    (kind : Specialization) : Compilation where
  owner
  executable
  realm
  kind
  tier := .baseline
  entry := executable.entry

namespace Machine

/-- The machine after one marking step. -/
def marked (machine : Machine) : Machine :=
  { machine with heap := (machine.heap.markStep machine.config.markBudget).2 }

variable {before after : Machine}

theorem fault?_of_store (h : after.store = before.store) : after.fault? = before.fault? := by
  have hheap : after.heap = before.heap := congrArg Store.heap h
  have hcode : after.code = before.code := congrArg Store.code h
  have hlink : after.linkFault? = before.linkFault? := by
    funext link
    rw [linkFault?, linkFault?, hheap, hcode]
  rw [fault?, fault?, hlink, hcode]

theorem block_eq_ok_iff {machine : Machine} {id : CodeId} {block : Block} :
    machine.block id = .ok block ↔ machine.code.get? id = some block := by
  rw [Machine.block]
  rcases machine.code.get? id with _ | found <;> simp

theorem link_eq_ok_iff {machine : Machine} {site : SiteRef} {link : Link} :
    machine.link site = .ok link ↔ machine.code.link? site = some link := by
  rw [Machine.link, Machine.block, CodeTable.link?]
  rcases machine.code.get? site.caller with _ | caller
  · simp [bind, Except.bind]
  · rcases hlink : caller.links[site.index]? with _ | found <;> simp [bind, Except.bind, hlink]

theorem executable_eq_ok_iff {machine : Machine} {cell : Cell} {executable : Executable} :
    machine.executable cell = .ok executable ↔
      machine.heap.executable? cell = some executable := by
  rw [Machine.executable]
  rcases machine.heap.executable? cell with _ | found <;> simp

theorem block_ne_dangling (machine : Machine) (id code : CodeId) :
    machine.block id ≠ .error (.danglingPointer code) := by
  rw [Machine.block]
  rcases machine.code.get? id with _ | found <;> simp

theorem link_ne_dangling (machine : Machine) (site : SiteRef) (code : CodeId) :
    machine.link site ≠ .error (.danglingPointer code) := by
  rw [Machine.link, Machine.block]
  rcases machine.code.get? site.caller with _ | caller
  · simp [bind, Except.bind]
  · rcases hlink : caller.links[site.index]? with _ | found <;> simp [bind, Except.bind, hlink]

theorem executable_ne_dangling (machine : Machine) (cell : Cell) (code : CodeId) :
    machine.executable cell ≠ .error (.danglingPointer code) := by
  rw [Machine.executable]
  rcases machine.heap.executable? cell with _ | found <;> simp

end Machine

namespace MachineM

open Machine

variable {α β : Type} {may : Work → Prop} {before middle after : Machine}

/-- An operation makes a chain of changes, and fails with a dangling pointer only if the check of
the links fails with it too. -/
structure Delivers (may : Work → Prop) (before : Machine)
    (outcome : Except MachineError α × Machine) : Prop where
  changes : Changes may before outcome.2
  dangling : ∀ code, outcome.1 = .error (.danglingPointer code) →
    outcome.2.fault? = some (.danglingPointer code)

namespace Delivers

theorem ok {value : α} (h : Changes may before after) :
    Delivers may before (.ok value, after) :=
  ⟨h, fun _ herror => nomatch herror⟩

theorem error {error : MachineError} (h : Changes may before after)
    (hne : ∀ code, error ≠ .danglingPointer code) :
    Delivers (α := α) may before (.error error, after) :=
  ⟨h, fun code herror => absurd (Except.error.inj herror) (hne code)⟩

theorem look {view : Except MachineError α} (machine : Machine)
    (hne : ∀ code, view ≠ .error (.danglingPointer code)) :
    Delivers may machine (view, machine) :=
  ⟨.refl machine, fun code herror => absurd herror (hne code)⟩

theorem after_changes {outcome : Except MachineError α × Machine}
    (hchanges : Changes may before middle) (h : Delivers may middle outcome) :
    Delivers may before outcome :=
  ⟨hchanges.trans h.changes, h.dangling⟩

theorem bind {operation : MachineM α} {next : α → MachineM β}
    (hfirst : Delivers may before (operation.exec before))
    (hnext : ∀ value after, operation.exec before = (.ok value, after) →
      Delivers may after ((next value).exec after)) :
    Delivers may before ((operation >>= next).exec before) := by
  rw [exec_bind]
  rcases hrun : operation.exec before with ⟨error | value, after⟩ <;> rw [hrun] at hfirst <;>
    dsimp only
  · refine ⟨hfirst.changes, fun code herror => hfirst.dangling code ?_⟩
    rw [Except.error.inj herror]
  · exact after_changes hfirst.changes (hnext value after hrun)

theorem map {operation : MachineM α} {origin : Machine} (change : α → β)
    (h : Delivers may origin (operation.exec before)) :
    Delivers may origin ((change <$> operation).exec before) := by
  rw [exec_map]
  refine ⟨h.changes, fun code herror => h.dangling code ?_⟩
  rcases hrun : (operation.exec before).1 with error | value <;> rw [hrun] at herror
  · rw [Except.error.inj herror]
  · cases herror

theorem discard {operation : MachineM α} {origin : Machine}
    (h : Delivers may origin (operation.exec before)) :
    Delivers may origin ((Functor.discard operation).exec before) :=
  map _ h

end Delivers

/-- Looking something up and going on with what was found. -/
theorem Delivers.bind_look {view : Machine → Except MachineError α} {next : α → MachineM β}
    (hne : ∀ code, view before ≠ .error (.danglingPointer code))
    (hnext : ∀ value, view before = .ok value →
      Delivers may before ((next value).exec before)) :
    Delivers may before ((MachineM.look view >>= next).exec before) := by
  refine Delivers.bind (Delivers.look before hne) fun value after hrun => ?_
  rw [exec_look, Prod.mk.injEq] at hrun
  rw [← hrun.2]
  exact hnext value hrun.1

/-- Changing the machine and going on from there. -/
theorem Delivers.bind_modify {change : Machine → Machine} {next : PUnit → MachineM β}
    (hchange : Changes may before (change before))
    (hnext : Delivers may (change before) ((next ⟨⟩).exec (change before))) :
    Delivers may before ((modify change >>= next).exec before) := by
  rw [exec_bind, exec_modify]
  exact Delivers.after_changes hchange hnext

theorem Delivers.bind_get {next : Machine → MachineM β}
    (hnext : Delivers may before ((next before).exec before)) :
    Delivers may before ((get >>= next).exec before) := by
  rw [exec_bind, exec_get]
  exact hnext

/-! ### Code -/

theorem exec_compile (request : Compilation) (machine : Machine) :
    (compile request).exec machine =
      match Locations.forBlock request.executable.sites.length with
      | .ok labels => (.ok machine.nextCode, machine.compiled request labels)
      | .error overflow => (.error (.overflow overflow), machine) := by
  simp only [compile, exec_bind, exec_get, CodeTable.compile_eq]
  rcases Locations.forBlock request.executable.sites.length with overflow | labels <;> rfl

/-- What making sure of code does: the current code is there, or it is compiled, or this fails and
changes nothing. -/
inductive EnsuresCode (machine : Machine) (owner : Cell) (realm : Realm) (kind : Specialization) :
    Except MachineError CodeId × Machine → Prop where
  | failed {error : MachineError} (hne : ∀ code, error ≠ .danglingPointer code)
      (hmissing : ∀ executable, machine.heap.executable? owner = some executable →
        (∀ id, executable.code kind = some id → machine.code.contains id = false) ∧
          ∀ labels, Locations.forBlock executable.sites.length ≠ .ok labels) :
      EnsuresCode machine owner realm kind (.error error, machine)
  | current {executable : Executable} {id : CodeId}
      (hexecutable : machine.heap.executable? owner = some executable)
      (hcode : executable.code kind = some id) (hlive : machine.code.contains id = true) :
      EnsuresCode machine owner realm kind (.ok id, machine)
  | compiled {executable : Executable} (labels : List Locations)
      (hexecutable : machine.heap.executable? owner = some executable)
      (hmissing : ∀ id, executable.code kind = some id → machine.code.contains id = false) :
      EnsuresCode machine owner realm kind
        (.ok machine.nextCode,
          (machine.compiled (executable.baseline owner realm kind) labels).report
            (.compiled machine.nextCode kind))

theorem ensureCode_cases (machine : Machine) (owner : Cell) (realm : Realm)
    (kind : Specialization) :
    EnsuresCode machine owner realm kind ((ensureCode owner realm kind).exec machine) := by
  have hbaseline : ∀ executable, machine.heap.executable? owner = some executable →
      (∀ id, executable.code kind = some id → machine.code.contains id = false) →
      EnsuresCode machine owner realm kind
        ((ensureCode.compileBaseline owner realm kind executable).exec machine) := by
    intro executable hexecutable hmissing
    simp only [ensureCode.compileBaseline, exec_bind, exec_compile]
    rcases hlabels : Locations.forBlock executable.sites.length with overflow | labels
    · refine .failed (fun _ => by simp) fun found hfound => ?_
      obtain rfl := Option.some.inj (hexecutable.symm.trans hfound)
      exact ⟨hmissing, fun labels => by simp [hlabels]⟩
    · exact .compiled labels hexecutable hmissing
  simp only [ensureCode, MachineM.executable, exec_bind, exec_look, Machine.executable]
  rcases hexecutable : machine.heap.executable? owner with _ | executable <;> dsimp only
  · exact .failed (fun _ => by simp) fun found hfound => by rw [hexecutable] at hfound; cases hfound
  · rcases hcode : executable.code kind with _ | id <;> dsimp only
    · exact hbaseline executable hexecutable fun id hid => by rw [hcode] at hid; cases hid
    · rw [exec_bind, exec_get]
      dsimp only
      rcases hlive : machine.code.contains id with _ | _
      · refine hbaseline executable hexecutable fun other hother => ?_
        rw [hcode] at hother
        rw [← Option.some.inj hother, hlive]
      · exact .current hexecutable hcode hlive

theorem EnsuresCode.delivers {owner : Cell} {realm : Realm} {kind : Specialization}
    {outcome : Except MachineError CodeId × Machine}
    (h : EnsuresCode before owner realm kind outcome) : Delivers may before outcome := by
  cases h with
  | failed hne => exact .error (.refl _) hne
  | current => exact .ok (.refl _)
  | compiled labels hexecutable hmissing =>
      exact .ok (.trans (.single (.compile labels hexecutable hmissing)) (.bookkeeping rfl))

theorem compileFunction_delivers (function : Cell) (kind : Specialization) :
    Delivers may before ((compileFunction function kind).exec before) := by
  simp only [compileFunction, exec_bind, exec_get]
  rcases before.heap.closure? function with _ | closure <;> dsimp only
  · exact .error (.refl _) fun _ => by simp
  · exact (ensureCode_cases before closure.executable closure.realm kind).delivers

/-- What replacing a block does: the block, its executable and the labels for its sites are there
and it is replaced, or something is missing and nothing changes. -/
inductive Replacing (machine : Machine) (old : CodeId) (entry : Entry) (tier : Tier) :
    Except MachineError CodeId × Machine → Prop where
  | failed {error : MachineError} (hne : ∀ code, error ≠ .danglingPointer code)
      (hmissing : ∀ block executable labels, machine.code.get? old = some block →
        machine.heap.executable? block.owner = some executable →
        Locations.forBlock executable.sites.length ≠ .ok labels) :
      Replacing machine old entry tier (.error error, machine)
  | replaced {block : Block} {executable : Executable} {labels : List Locations} (event : Event)
      (hblock : machine.code.get? old = some block)
      (hexecutable : machine.heap.executable? block.owner = some executable)
      (hlabels : Locations.forBlock executable.sites.length = .ok labels) :
      Replacing machine old entry tier
        (.ok machine.nextCode, (machine.replaced block executable entry tier labels).report event)

theorem replaceCode_cases (machine : Machine) (old : CodeId) (entry : Entry) (tier : Tier) :
    Replacing machine old entry tier ((replaceCode old entry tier).exec machine) := by
  simp only [replaceCode, MachineM.block, MachineM.executable, exec_bind, exec_look, Machine.block]
  rcases hblock : machine.code.get? old with _ | block <;> dsimp only
  · exact .failed (fun _ => by simp) fun _ _ _ hfound => by rw [hblock] at hfound; cases hfound
  · rw [Machine.executable]
    rcases hexecutable : machine.heap.executable? block.owner with _ | executable <;> dsimp only
    · refine .failed (fun _ => by simp) fun found _ _ hfound hlive => ?_
      rw [hblock] at hfound
      rw [← Option.some.inj hfound, hexecutable] at hlive
      cases hlive
    · rw [exec_compile]
      rcases hlabels : Locations.forBlock executable.sites.length with overflow | labels <;>
        dsimp only
      · refine .failed (fun _ => by simp) fun found other _ hfound hlive => ?_
        rw [hblock] at hfound
        rw [← Option.some.inj hfound, hexecutable] at hlive
        rw [← Option.some.inj hlive, hlabels]
        simp
      · obtain rfl := CodeTable.id_of_get? hblock
        exact .replaced _ hblock hexecutable hlabels

theorem replaceCode_delivers {old : CodeId} (entry : Entry) (tier : Tier)
    (hmay : ∀ block, before.code.get? old = some block →
      may (.replacing (before.isCurrent block) (before.isShared block))) :
    Delivers may before ((replaceCode old entry tier).exec before) := by
  have hcases := replaceCode_cases before old entry tier
  generalize (replaceCode old entry tier).exec before = outcome at hcases
  cases hcases with
  | failed hne => exact .error (.refl _) hne
  | @replaced block executable labels event hblock hexecutable =>
      obtain rfl := CodeTable.id_of_get? hblock
      exact .ok (.trans (.single (.replace entry tier labels hblock hexecutable
        (hmay block hblock))) (.bookkeeping rfl))

theorem jettisonCode_delivers (id : CodeId) :
    Delivers may before ((jettisonCode id).exec before) := by
  refine .bind_look (block_ne_dangling before id) fun block hblock => ?_
  rw [block_eq_ok_iff] at hblock
  obtain rfl := CodeTable.id_of_get? hblock
  exact .ok (.single (.jettison hblock))

theorem disallowStubs_delivers (site : SiteRef) :
    Delivers may before ((disallowStubs site).exec before) := by
  refine .bind_look (link_ne_dangling before site) fun link hlink => ?_
  rw [link_eq_ok_iff] at hlink
  have hgiveUp : Changes may before (before.editLink site link.disallowStubs) :=
    .editLink (.giveUp hlink (.inr rfl))
  refine .bind_modify hgiveUp ?_
  split
  · exact .ok (.bookkeeping rfl)
  · exact .ok (.refl _)

/-! ### Collecting -/

theorem forM_jettisonCode_delivers (codes : List CodeId) (machine : Machine) :
    Delivers may machine ((codes.forM jettisonCode).exec machine) := by
  induction codes generalizing machine with
  | nil => exact .ok (.refl _)
  | cons id rest ih => exact .bind (jettisonCode_delivers id) fun _ after _ => ih after

theorem verifyLinks_eq_error_iff {machine : Machine} {error : MachineError} :
    machine.verifyLinks = .error error ↔ machine.fault? = some error := by
  rw [verifyLinks]
  rcases machine.fault? with _ | found <;> simp

/-- After the sweep a collection discards code and checks the links. -/
theorem collect_after_sweep :
    Delivers may before.sweepHeap.2 (collect.exec before) := by
  rw [collect, exec_bind, exec_get]
  dsimp only
  rw [exec_bind, exec_modifyGet]
  refine .bind_get (.bind (forM_jettisonCode_delivers _ _) fun _ jettisoned _ => ?_)
  refine .bind_modify (.trans (.single .prune) (.bookkeeping rfl)) ?_
  refine .bind ⟨.refl _, fun code herror => ?_⟩ fun _ _ _ => .ok (.refl _)
  exact verifyLinks_eq_error_iff.mp herror

theorem collect_delivers (hmay : may .collecting) :
    Delivers may before (collect.exec before) :=
  .after_changes (.single (.sweep hmay)) collect_after_sweep

theorem exec_safepoint (machine : Machine) :
    safepoint.exec machine =
      if machine.heap.isMarking then
        if (machine.heap.markStep machine.config.markBudget).1 then
          (discard collect).exec machine.marked
        else (.ok (), machine.marked)
      else if machine.heap.shouldCollect then (.ok (), machine.startMarking)
      else (.ok (), machine) := by
  simp only [safepoint, exec_bind, exec_get]
  by_cases hmarking : machine.heap.isMarking = true
  · simp only [hmarking, if_true, exec_bind, exec_set]
    by_cases hdone : (machine.heap.markStep machine.config.markBudget).1 = true
    · simp only [hdone, if_true]
      rfl
    · simp only [hdone]
      rfl
  · simp only [hmarking]
    by_cases hdue : machine.heap.shouldCollect = true
    · simp only [hdue, if_true]
      rfl
    · simp only [hdue]
      rfl

theorem safepoint_delivers
    (hmay : before.heap.isMarking = true ∨ before.heap.shouldCollect = true → may .collecting) :
    Delivers may before (safepoint.exec before) := by
  rw [exec_safepoint]
  split
  · rename_i hmarking
    have hallowed := hmay (.inl hmarking)
    have hstep : Changes may before before.marked := .single (.markStep hallowed _)
    split
    · exact .after_changes hstep (.discard (collect_delivers hallowed))
    · exact .ok hstep
  · split
    · rename_i hdue
      exact .ok (.single (.startMarking (hmay (.inr hdue))))
    · exact .ok (.refl _)

/-! ### Finding the callee -/

theorem notCallable_delivers (value : Value) (kind : Specialization) :
    Delivers (α := α) may before ((notCallable value kind).exec before) := by
  refine .bind_modify (.bookkeeping rfl) (.bind_get ?_)
  exact .error (.refl _) fun _ => by simp

/-- The current code of an executable after making sure of it. -/
theorem EnsuresCode.current_code {owner : Cell} {realm : Realm} {kind : Specialization}
    {id : CodeId} (hnumbered : before.code.Numbered)
    (h : EnsuresCode before owner realm kind (.ok id, after)) :
    ∃ executable block, after.heap.executable? owner = some executable ∧
      executable.code kind = some block.id ∧ after.code.get? id = some block ∧ block.id = id := by
  cases h with
  | current hexecutable hcode hlive =>
      obtain ⟨block, hblock⟩ := CodeTable.contains_iff.mp hlive
      have hid := CodeTable.id_of_get? hblock
      exact ⟨_, block, hexecutable, by rw [hcode, hid], hblock, hid⟩
  | @compiled executable labels hexecutable hmissing =>
      have hset : (before.heap.setCode owner kind (some before.nextCode)).executable? owner
          = some (executable.setCode kind (some before.nextCode)) := by
        rw [Heap.executable?_setCode, if_pos rfl, hexecutable, Option.map_some]
      exact ⟨_, _, hset, Executable.code_setCode_self _ _ _, hnumbered.get?_append_self rfl, rfl⟩

/-- Making sure of code keeps every block as it is. -/
theorem EnsuresCode.get?_of_some {owner : Cell} {realm : Realm} {kind : Specialization}
    {outcome : Except MachineError CodeId × Machine} (hnumbered : before.code.Numbered)
    (h : EnsuresCode before owner realm kind outcome) {id : CodeId} {block : Block}
    (hblock : before.code.get? id = some block) : outcome.2.code.get? id = some block := by
  cases h with
  | failed => exact hblock
  | current => exact hblock
  | compiled => exact CodeTable.get?_append_of_some hnumbered rfl hblock

/-- Making sure of code leaves closures alone, and what an executable is apart from its code. -/
theorem EnsuresCode.frame {owner : Cell} {realm : Realm} {kind : Specialization}
    {outcome : Except MachineError CodeId × Machine}
    (h : EnsuresCode before owner realm kind outcome) (cell : Cell) :
    outcome.2.heap.closure? cell = before.heap.closure? cell ∧
      (outcome.2.heap.executable? cell).map Executable.constructible
        = (before.heap.executable? cell).map Executable.constructible := by
  cases h with
  | failed => exact ⟨rfl, rfl⟩
  | current => exact ⟨rfl, rfl⟩
  | compiled labels hexecutable hmissing =>
      refine ⟨Heap.closure?_setCode, ?_⟩
      show ((before.heap.setCode owner kind _).executable? cell).map _ = _
      rw [Heap.executable?_setCode]
      split
      · rename_i heq
        rw [heq, hexecutable, Option.map_some, Option.map_some, Option.map_some,
          Executable.setCode_constructible]
      · rfl

/-- A closure whose code is there, once this has been made sure of, is resolved to it. -/
theorem exec_resolve {callee : Cell} {kind : Specialization} {closure : Closure}
    {executable : Executable} {id : CodeId} {block : Block}
    (hclosure : before.heap.closure? callee = some closure)
    (hexecutable : before.heap.executable? closure.executable = some executable)
    (hconstruct : kind = .construct → executable.constructible = true)
    (hensured : (ensureCode closure.executable closure.realm kind).exec before = (.ok id, after))
    (hblock : after.code.get? id = some block) :
    (resolve callee kind).exec before = (.ok (.function
      { callee
        executable := closure.executable
        target := block.pointer
        parameters := executable.parameters } closure.realm), after) := by
  have hallowed : ¬ (kind = .construct ∧ (!executable.constructible) = true) := by
    rintro ⟨hkind, hforbidden⟩
    rw [hconstruct hkind] at hforbidden
    cases hforbidden
  rw [resolve, exec_bind, exec_get]
  dsimp only
  rw [Heap.closure?_eq_some_iff.mp hclosure]
  dsimp only
  rw [exec_bind, MachineM.executable, exec_look, executable_eq_ok_iff.mpr hexecutable]
  dsimp only
  rw [if_neg hallowed, exec_bind, hensured]
  dsimp only
  rw [exec_bind, MachineM.block, exec_look, block_eq_ok_iff.mpr hblock]
  rfl

/-- What resolving a callee gives. -/
inductive Resolving (may : Work → Prop) (before : Machine) (callee : Cell) (kind : Specialization) :
    Except MachineError Resolution × Machine → Prop where
  | failed {error : MachineError} {after : Machine} (hchanges : Changes may before after)
      (hne : ∀ code, error ≠ .danglingPointer code) :
      Resolving may before callee kind (.error error, after)
  | handler (entry : Entry) :
      Resolving may before callee kind (.ok (.handler entry), before)
  | function {resolved : Resolved} {realm : Realm} {after : Machine}
      (hchanges : Changes may before after)
      (hkept : ∀ {id block}, before.code.get? id = some block → after.code.get? id = some block)
      (hcallee : resolved.callee = callee) (hresolves : after.Resolves kind resolved)
      (hsame : after.heap.closure? callee = before.heap.closure? callee)
      (hrealm : ∃ closure, before.heap.closure? callee = some closure ∧ closure.realm = realm) :
      Resolving may before callee kind (.ok (.function resolved realm), after)

theorem resolve_cases (hnumbered : before.code.Numbered) (callee : Cell) (kind : Specialization) :
    Resolving may before callee kind ((resolve callee kind).exec before) := by
  have hrefused : Resolving may before callee kind
      ((notCallable (.cell callee) kind).exec before) :=
    .failed (.bookkeeping rfl) fun _ => by simp
  unfold resolve
  rw [exec_bind, exec_get]
  dsimp only
  rcases hcontent : before.heap.get? callee with _ | (closure | _ | (_ | handler)) <;> dsimp only
  · exact .failed (.refl _) fun _ => by simp
  · rw [exec_bind, MachineM.executable, exec_look]
    rcases hexecutable : before.executable closure.executable with error | executable <;> dsimp only
    · refine .failed (.refl _) fun code heq => ?_
      exact executable_ne_dangling before _ code (heq ▸ hexecutable)
    · split
      · exact hrefused
      · rename_i hallowed
        have hcases := ensureCode_cases before closure.executable closure.realm kind
        have hdelivers : Delivers may before _ := hcases.delivers
        have hframe := hcases.frame
        rw [exec_bind]
        rcases hrun : (ensureCode closure.executable closure.realm kind).exec before
          with ⟨error | id, after⟩ <;> rw [hrun] at hcases hdelivers hframe <;> dsimp only
        · cases hcases with
          | failed hne => exact .failed (.refl _) hne
        · obtain ⟨current, block, hcurrent, hcode, hblock, hid⟩ := hcases.current_code hnumbered
          rw [exec_bind, MachineM.block, exec_look, block_eq_ok_iff.mpr hblock]
          have hclosure := Heap.closure?_eq_some_iff.mpr hcontent
          refine .function hdelivers.changes (hcases.get?_of_some hnumbered) rfl
            ⟨?_, current, block, hcurrent, hcode, ?_, rfl, ?_⟩ (hframe callee).1
            ⟨closure, hclosure, rfl⟩
          · rw [Heap.executableOf?, (hframe callee).1, hclosure]
            rfl
          · rw [hid, hblock]
          · intro hconstruct
            have hsame := (hframe closure.executable).2
            rw [hcurrent, executable_eq_ok_iff.mp hexecutable, Option.map_some,
              Option.map_some] at hsame
            rw [Option.some.inj hsame]
            simpa [hconstruct] using hallowed
  · exact hrefused
  · exact hrefused
  · exact .handler handler

/-- Resolving a callee keeps every block as it is. -/
theorem resolve_get?_of_some (hnumbered : before.code.Numbered) (callee : Cell)
    (kind : Specialization) {id : CodeId} {block : Block}
    (hblock : before.code.get? id = some block) :
    ((resolve callee kind).exec before).2.code.get? id = some block := by
  unfold resolve
  rw [exec_bind, exec_get]
  dsimp only
  rcases before.heap.get? callee with _ | (closure | _ | (_ | handler)) <;> dsimp only
  · exact hblock
  · rw [exec_bind, MachineM.executable, exec_look]
    rcases before.executable closure.executable with error | executable <;> dsimp only
    · exact hblock
    · split
      · exact hblock
      · have hkept := (ensureCode_cases before closure.executable closure.realm kind).get?_of_some
          hnumbered hblock
        rw [exec_bind]
        rcases hrun : (ensureCode closure.executable closure.realm kind).exec before
          with ⟨error | id, after⟩ <;> rw [hrun] at hkept <;> dsimp only
        · exact hkept
        · rw [exec_bind, MachineM.block, exec_look]
          rcases after.block id with error | found <;> exact hkept
  · exact hblock
  · exact hblock
  · exact hblock

theorem Resolving.delivers {callee : Cell} {kind : Specialization}
    {outcome : Except MachineError Resolution × Machine}
    (h : Resolving may before callee kind outcome) : Delivers may before outcome := by
  cases h with
  | failed hchanges hne => exact .error hchanges hne
  | handler entry => exact .ok (.refl _)
  | function hchanges => exact .ok hchanges

end MachineM

end InlineCache
