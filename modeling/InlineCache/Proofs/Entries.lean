import InlineCache.Proofs.Frames
import InlineCache.Proofs.Landing
import InlineCache.Proofs.Soundness

/-!
# Whose code a frame runs

A callee that is resolved leads to the code of its own executable, and so does a slot, unless it is
the slot of a direct site. The callee of a frame is on the stack of roots for as long as the frame
is active. So every frame that was not entered at a direct site runs code that was compiled for the
executable of its callee, whatever happens in the meantime, unless that executable brought its code
along.
-/

namespace InlineCache

namespace Machine

open CodeTable Heap

variable {may : Work → Prop} {stack born adopters : List Cell} {machine before after : Machine}
  {callee : Cell} {id : CodeId}

/-- The callee is a closure, and if there is a block with this number, it was compiled for the
executable of the callee, unless the executable brought code along. -/
structure CodeOf (machine : Machine) (adopters : List Cell) (callee : Cell) (id : CodeId) :
    Prop where
  given : id.number ≤ machine.code.lastNumber
  own : machine.heap.Addressable → id ≠ CodeId.host → ∃ executable,
    machine.heap.executableOf? callee = some executable ∧ (executable ∉ adopters → ∀ block,
      machine.code.get? id = some block → block.owner = executable)

theorem CodeOf.host : machine.CodeOf adopters callee CodeId.host :=
  ⟨Nat.zero_le _, fun _ hhost => absurd rfl hhost⟩

/-! ### While frames are active -/

theorem CodeOf.keep (h : before.CodeOf adopters callee id)
    (hevolves : before.code.Evolves after.code)
    (haddressable : after.heap.Addressable → before.heap.Addressable)
    (hclosure : ∀ closure, before.heap.Addressable →
      before.heap.closure? callee = some closure → after.heap.closure? callee = some closure) :
    after.CodeOf adopters callee id where
  given := Nat.le_trans h.given hevolves.lastNumber_le
  own := by
    intro hafter hhost
    have hbefore := haddressable hafter
    obtain ⟨executable, hcallee, hown⟩ := h.own hbefore hhost
    obtain ⟨closure, hfound, rfl⟩ := Option.map_eq_some_iff.mp hcallee
    refine ⟨_, Option.map_eq_some_iff.mpr ⟨closure, hclosure closure hbefore hfound, rfl⟩,
      fun hplain block hblock => ?_⟩
    obtain ⟨origin, horigin, hbare⟩ := hevolves.block hblock h.given
    rw [(Block.eq_of_bare hbare).2.1]
    exact hown hplain origin horigin

theorem Changes.codeOf (h : Changes withoutCollecting before after) (horderly : before.Orderly)
    (hcode : before.CodeOf adopters callee id) : after.CodeOf adopters callee id := by
  refine (h.preserves (fun machine => machine.Orderly ∧ machine.CodeOf adopters callee id) ?_
    ⟨horderly, hcode⟩).2
  rintro before after hchange ⟨horderly, hcode⟩
  refine ⟨hchange.orderly horderly, ?_⟩
  exact hcode.keep (hchange.evolves horderly.numbered) hchange.addressable fun _ haddressable =>
    hchange.closure? horderly.numbered (horderly.tidy haddressable)

theorem Stages.codeOf (h : Stages withoutCollecting stack before after)
    (horderly : before.Orderly) (hrule : before.heap.Tricolor born) (hcallee : callee ∈ stack)
    (hcode : before.CodeOf adopters callee id) : after.CodeOf adopters callee id := by
  refine (h.preserves
    (fun machine => machine.heap.Tricolor born ∧ machine.CodeOf adopters callee id) ?_
    horderly ⟨hrule, hcode⟩).2.2
  rintro before after horderly hstage ⟨hrule, hcode⟩
  refine ⟨hstage.changes.tricolor hrule, ?_⟩
  exact hcode.keep (hstage.changes.evolves horderly.numbered) hstage.changes.addressable
    fun _ haddressable => hstage.closure? horderly hrule haddressable hcallee

theorem CodeOf.withClosure (h : machine.CodeOf adopters callee id) (horderly : machine.Orderly)
    (closure : Closure) : (machine.withCell (.function closure)).CodeOf adopters callee id :=
  h.keep (.refl _) (Nat.le_trans (length_slots_allocate _)) fun _ haddressable =>
    (horderly.tidy haddressable).closure?_allocate _

/-! ### When a call finds its destination -/

theorem Faithful.codeOf_of_fast? {site : SiteRef} {link : Link} {pointer : CodePointer}
    (h : machine.Faithful adopters) (hlink : machine.code.link? site = some link)
    (hdirect : link.isDirect = false)
    (hfast : link.site.target.fast? machine.heap callee = some pointer) :
    machine.CodeOf adopters callee pointer.block := by
  obtain ⟨guard, hroute, hcallee⟩ := (h.linked.agrees hlink).route_of_fast? hdirect hfast
  obtain ⟨block, hblock, _, hfits⟩ := h.placed.block hlink _ hroute
  constructor
  · rw [← id_of_get? hblock]
    exact h.numbered.bounded block (mem_of_get? hblock)
  · intro haddressable _
    obtain ⟨executable, hnames, hown⟩ := hfits haddressable
    refine ⟨executable, hcallee _ hnames, fun hplain found hfound => ?_⟩
    rw [hblock] at hfound
    rw [← Option.some.inj hfound]
    exact (hown hplain).1

end Machine

namespace MachineM

open Machine

variable {before after : Machine} {site : SiteRef} {call : Call} {destination : Destination}
  {adopters : List Cell}

theorem Resolving.codeOf {callee : Cell} {kind : Specialization} {resolution : Resolution}
    (h : Resolving noWork before callee kind (.ok resolution, after))
    (hfaithful : before.Faithful adopters) :
    after.CodeOf adopters callee resolution.destination.block := by
  have hafter := h.delivers.changes.faithful (fun _ => False.elim) hfaithful
  rcases resolution with ⟨resolved, realm⟩ | entry
  · obtain ⟨executable, hcallee, hcode⟩ := h.currentCode?
    obtain ⟨block, hblock⟩ := CodeTable.contains_iff.mp h.isLive
    have hid : block.id = resolved.target.block := CodeTable.id_of_get? hblock
    constructor
    · have hgiven := hafter.numbered.bounded block (CodeTable.mem_of_get? hblock)
      rwa [hid] at hgiven
    · intro _ _
      refine ⟨executable, hcallee, fun hplain found hfound => ?_⟩
      obtain rfl := Option.some.inj (hblock.symm.trans hfound)
      rw [← hid] at hcode
      exact (hafter.owned.own hplain hcode (by rwa [hid])).1
  · exact .host

theorem selectGeneric_codeOf (hfaithful : before.Faithful adopters)
    (h : (selectGeneric call).exec before = (.ok destination, after)) :
    after.CodeOf adopters call.callee destination.block := by
  obtain ⟨resolution, hrun, rfl⟩ := exec_selectGeneric_ok h
  have hcases : Resolving noWork before _ _ _ :=
    resolve_cases hfaithful.numbered call.callee call.kind
  rw [hrun] at hcases
  exact hcases.codeOf hfaithful

/-- Linking the site does not change what the callee is. -/
theorem selectSlow_codeOf (hfaithful : before.Faithful adopters)
    (hkind : ∀ link, before.code.link? site = some link →
      link.callType.specialization = call.kind)
    (h : (selectSlow site call).exec before = (.ok destination, after)) :
    after.CodeOf adopters call.callee destination.block := by
  obtain ⟨link, profiled, resolution, found, hlink, hprofile, _, hresolved, rfl, hlinking⟩ :=
    exec_selectSlow_ok noWork h
  have hstill := hprofile.faithful (fun _ => False.elim) hfaithful
  have hcases : Resolving noWork profiled _ _ _ :=
    resolve_cases hstill.numbered call.callee call.kind
  rw [hresolved] at hcases
  have hresolve := hcases.delivers.changes
  have hsound := hresolve.faithful (fun _ => False.elim) hstill
  have hcode := hcases.codeOf hstill
  cases hlinking with
  | handler => exact .host
  | @function resolved realm hlinked =>
      cases hcases with
      | function _ _ hcallee hresolves hsame hrealm =>
          have hdelivers : Delivers withoutCollecting found
              ((linkFunction site resolved realm).exec found) := by
            refine linkFunction_delivers (fun other hother => ?_) ?_
            · rw [(hprofile.trans hresolve).callType_eq hfaithful.numbered hlink hother,
                hkind link hlink]
              exact hresolves
            · rwa [hcallee, hsame]
          rw [hlinked] at hdelivers
          exact hdelivers.changes.codeOf hsound.toOrderly hcode

theorem selectFast_codeOf {target : CodePointer} (horderly : before.Orderly)
    (hcode : before.CodeOf adopters call.callee target.block)
    (h : (selectFast target).exec before = (.ok destination, after)) :
    after.CodeOf adopters call.callee destination.block := by
  obtain ⟨_, counted, hcounted, h⟩ := exec_bind_ok h
  have hcount : Changes withoutCollecting before counted := by
    cases hcounted
    exact .bookkeeping rfl
  cases h
  exact hcount.codeOf horderly hcode

/-- Whichever way a call at a site takes, it finds code of its callee, unless the site is direct. -/
theorem selectAtSite_codeOf {link : Link} (hfaithful : before.Faithful adopters)
    (hlink : before.code.link? site = some link)
    (hkind : link.callType.specialization = call.kind) (hdirect : link.isDirect = false)
    (h : (selectAtSite site call).exec before = (.ok destination, after)) :
    after.CodeOf adopters call.callee destination.block := by
  have hsame : ∀ {found}, before.code.link? site = some found → found = link := fun hfound =>
    Option.some.inj (hfound.symm.trans hlink)
  cases selectAtSite_cases site call before with
  | missing _ houtcome =>
      rw [houtcome] at h
      cases h
  | slow _ hmissed houtcome =>
      refine selectSlow_codeOf hfaithful (fun found hfound => ?_) (houtcome ▸ h)
      rw [hsame hfound, hkind]
  | resolved _ htarget houtcome =>
      have hcount : Changes noWork before before.countVirtual := .bookkeeping rfl
      exact selectGeneric_codeOf (hcount.faithful (fun _ => False.elim) hfaithful) (houtcome ▸ h)
  | served hfound hfast houtcome =>
      obtain rfl := hsame hfound
      have hcode := hfaithful.codeOf_of_fast? hlink hdirect hfast
      exact selectFast_codeOf hfaithful.toOrderly hcode (houtcome ▸ h)
  | servedByStub executable hfound hfast houtcome =>
      obtain rfl := hsame hfound
      have hcode := hfaithful.codeOf_of_fast? hlink hdirect hfast
      have hprofile : Changes withoutCollecting before
          (before.editLink site { link := Link.hitStub _ call.callee executable }) :=
        .editLink (.profile hlink (.hit call.callee executable))
      exact selectFast_codeOf (hprofile.orderly hfaithful.toOrderly)
        (hprofile.codeOf hfaithful.toOrderly hcode) (houtcome ▸ h)

theorem startHostCall_codeOf {callee receiver : Value} {arguments : List Value}
    {kind : Specialization} {transfer : Transfer} (hfaithful : before.Faithful adopters)
    (h : (startHostCall callee receiver arguments kind).exec before = (.ok transfer, after)) :
    after.CodeOf adopters transfer.call.callee transfer.destination.block := by
  have hpush : Changes noWork before (before.pushRoots transfer.call.cells) := .bookkeeping rfl
  exact selectGeneric_codeOf (hpush.faithful (fun _ => False.elim) hfaithful)
    (exec_startHostCall_ok h)

theorem startSiteCall_codeOf {request : SiteCall} {transfer : Transfer}
    (hfaithful : before.Faithful adopters)
    (hdirect : (before.code.link? request.site).any Link.isDirect = false)
    (h : (startSiteCall request).exec before = (.ok transfer, after)) :
    after.CodeOf adopters transfer.call.callee transfer.destination.block := by
  obtain ⟨link, prepared, safe, hlink, hkind, harrive, hsafe, hselect⟩ := exec_startSiteCall_ok h
  have hdelivers : Delivers (adoptingIn adopters) prepared (safepoint.exec prepared) :=
    safepoint_delivers fun _ => nofun
  rw [hsafe] at hdelivers
  have hchain := (arrive?_changes harrive).trans hdelivers.changes
  have hstill := hchain.faithful (fun _ hmay => hmay _ rfl) hfaithful
  rw [hlink, Option.any_some] at hdirect
  rcases hfound : safe.code.link? request.site with _ | found
  · -- the caller is gone
    obtain ⟨read, hread, _⟩ := exec_bind_look_ok hselect
    rw [link_eq_ok_iff.mp hread] at hfound
    cases hfound
  · have htype := hchain.callType_eq hfaithful.numbered hlink hfound
    refine selectAtSite_codeOf hstill hfound ?_ ?_ hselect
    · rw [htype, hkind]
    · rw [Link.isDirect, htype]
      exact hdirect

end MachineM

/-! ### Frames and how they were entered -/

/-- Is the request a call at a direct site? -/
def Request.isDirect (machine : Machine) : Request → Bool
  | .siteCall call => (machine.code.link? call.site).any Link.isDirect
  | _ => false

/-- A call that has entered is noted as direct or not. -/
def Reply.noting (isDirect : Bool) (direct : List Bool) : Reply → List Bool
  | .entered _ => isDirect :: direct
  | _ => direct

/-- What a request does to the list that says of each active frame, the innermost first, whether it
was entered at a direct site. -/
def Request.directEntries (execution : Execution) (request : Request) (direct : List Bool) :
    List Bool :=
  match request with
  | .finish _ => direct.tail
  | _ => (execution.step request).1.noting (request.isDirect execution.machine) direct

namespace Execution

open Machine MachineM

variable {execution : Execution} {direct : List Bool} {born adopters : List Cell}

/-- Which of the active frames were entered at direct sites, after a list of requests. -/
def directEntries (execution : Execution) : List Request → List Bool → List Bool
  | [], direct => direct
  | request :: rest, direct =>
    directEntries (execution.step request).2 rest (request.directEntries execution direct)

/-- A frame that was not entered at a direct site runs code of its callee. -/
structure Seated (execution : Execution) (adopters : List Cell) (direct : List Bool) : Prop where
  length : direct.length = execution.active.length
  codeOf : ∀ {activation}, (activation, false) ∈ execution.active.zip direct →
    execution.machine.CodeOf adopters activation.frame.callee activation.frame.block

/-- A call enters code of its callee if it has found such code. -/
theorem enter_codeOf {start : MachineM Transfer} {before after : Machine} {activation : Activation}
    (horderly : before.Orderly) (hdelivers : Delivers anyWork before (start.exec before))
    (hfinds : ∀ {transfer found}, start.exec before = (.ok transfer, found) →
      found.CodeOf adopters transfer.call.callee transfer.destination.block)
    (h : (start >>= enter).exec before = (.ok activation, after)) :
    after.CodeOf adopters activation.frame.callee activation.frame.block := by
  obtain ⟨transfer, found, hstart, henter⟩ := exec_bind_ok h
  rw [hstart] at hdelivers
  have hchanges : Changes withoutCollecting found _ := enter_changes transfer
  have henters := enter_enters transfer found
  rw [henter] at hchanges henters
  obtain ⟨_, hcallee, hblock, _⟩ := henters
  rw [hcallee, hblock]
  exact hchanges.codeOf (hdelivers.changes.orderly horderly) (hfinds hstart)

/-- What holds of the frames that were active before holds of them after a request. -/
theorem Seated.kept (h : execution.Seated adopters direct)
    (horderly : execution.machine.Orderly) (hframed : execution.Framed)
    (hrule : execution.machine.heap.Tricolor born) (request : Request) :
    ∀ {activation}, (activation, false) ∈ execution.active.zip direct →
      (execution.step request).2.machine.CodeOf adopters activation.frame.callee
        activation.frame.block := by
  intro activation hmem
  have hcode := h.codeOf hmem
  rcases execution.step_stages request horderly.numbered fun _ _ hother => hother with
    ⟨closure, _, _, hstep⟩ | hstages
  · rw [hstep]
    exact hcode.withClosure horderly closure
  · have hstacked : activation.frame.callee ∈ execution.machine.stackRoots :=
      hframed.stacked.mem (List.of_mem_zip hmem).1 List.mem_cons_self
    exact hstages.codeOf horderly hrule hstacked hcode

theorem Seated.call {start : MachineM Transfer} {isDirect : Bool}
    (h : execution.Seated adopters direct)
    (hkept : ∀ {activation}, (activation, false) ∈ execution.active.zip direct →
      (execution.call start).2.machine.CodeOf adopters activation.frame.callee
        activation.frame.block)
    (hentered : ∀ {activation after}, isDirect = false →
      (start >>= enter).exec execution.machine = (.ok activation, after) →
      after.CodeOf adopters activation.frame.callee activation.frame.block) :
    (execution.call start).2.Seated adopters ((execution.call start).1.noting isDirect direct) := by
  rw [Execution.call] at hkept ⊢
  rcases hrun : (start >>= enter).exec execution.machine with ⟨error | activation, after⟩ <;>
    rw [hrun] at hkept <;> dsimp only at hkept ⊢
  · exact ⟨h.length, hkept⟩
  · refine ⟨congrArg (· + 1) h.length, fun hmem => ?_⟩
    rcases List.mem_cons.mp hmem with heq | houter
    · obtain ⟨rfl, hflag⟩ := Prod.mk.inj heq
      exact hentered hflag.symm hrun
    · exact hkept houter

theorem Seated.step (h : execution.Seated adopters direct)
    (hfaithful : execution.machine.Faithful adopters) (hframed : execution.Framed)
    (hrule : execution.machine.heap.Tricolor born) (request : Request) :
    (execution.step request).2.Seated adopters (request.directEntries execution direct) := by
  have hkept : ∀ {activation}, (activation, false) ∈ execution.active.zip direct →
      (execution.step request).2.machine.CodeOf adopters activation.frame.callee
        activation.frame.block :=
    h.kept hfaithful.toOrderly hframed hrule request
  have hnumbered := hfaithful.numbered
  cases request with
  | order order => exact ⟨h.length, hkept⟩
  | hostCall callee receiver arguments kind =>
      exact h.call hkept fun _ => enter_codeOf hfaithful.toOrderly
        (startHostCall_delivers hnumbered _ _ _ _) (startHostCall_codeOf hfaithful)
  | siteCall request =>
      exact h.call hkept fun hdirect => enter_codeOf hfaithful.toOrderly
        (startSiteCall_delivers hnumbered request fun _ _ => trivial)
        (startSiteCall_codeOf hfaithful hdirect)
  | finish result =>
      have hlength := h.length
      rw [Execution.step] at hkept ⊢
      rcases hactive : execution.active with _ | ⟨activation, outer⟩ <;>
        rw [hactive] at hkept hlength
      · obtain rfl := List.length_eq_zero_iff.mp hlength
        exact h
      · obtain ⟨isDirect, rest, rfl⟩ := List.exists_cons_of_length_eq_add_one hlength
        exact ⟨Nat.succ.inj hlength, fun hmem => hkept (List.mem_cons_of_mem _ hmem)⟩

theorem Seated.run {tracked : Tracked} (h : tracked.execution.Seated adopters direct)
    (hrule : tracked.Rule) (hfaithful : tracked.execution.machine.Faithful adopters)
    (hframed : tracked.execution.Framed) (requests : List Request)
    (hadopts : tracked.execution.adopters requests ⊆ adopters) :
    (tracked.run requests).execution.Seated adopters
      (tracked.execution.directEntries requests direct) := by
  induction requests generalizing tracked direct with
  | nil => exact h
  | cons request rest ih =>
      obtain ⟨hfirst, hrest⟩ := List.append_subset.mp hadopts
      have hseated := h.step hfaithful hframed hrule.tricolor request
      exact ih hseated (hrule.step request) (step_faithful hfaithful hfirst)
        (hframed.step request) hrest

end Execution

end InlineCache
