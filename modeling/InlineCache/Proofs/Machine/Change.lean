import InlineCache.Proofs.Code.Evolution
import InlineCache.Proofs.Heap.View
import InlineCache.Proofs.Link.Linking
import InlineCache.Proofs.Machine.Exec
import Mathlib.Logic.Relation

/-!
# What can happen to a machine

Every operation of the machine is a chain of a few kinds of changes to its configuration, heap and
code. This module names the kinds, with what is known when each of them happens. An invariant of the
machine is proved once for each kind.

Making a closure is not among them: it is the only operation that adds a reference between cells.
-/

namespace InlineCache

/-- A cell with this content refers to no other cell. -/
def Entity.IsPlain : Entity → Prop
  | .function _ => False
  | _ => True

/-- Does the executable have code already? -/
def Executable.isCompiled (executable : Executable) : Bool :=
  executable.callCode.isSome || executable.constructCode.isSome

/-- A cell with this content brings code along that was compiled before. -/
def Entity.bringsCode : Entity → Bool
  | .executable template => template.isCompiled
  | _ => false

/-- What is compiled to replace a block. -/
def Block.replacement (block : Block) (executable : Executable) (entry : Entry) (tier : Tier) :
    Compilation :=
  { owner := block.owner, executable, realm := block.realm, kind := block.kind, tier, entry }

/-- Work that some runs of a machine do without. -/
inductive Work where
  | collecting
  /-- Replacing code that is the current code of its executable, or that is not, and that is the
  current code of something else as well, or is not. -/
  | replacing (current shared : Bool)
  /-- Allocating an executable, in this cell, that brings code along. -/
  | adopting (cell : Cell)

abbrev anyWork : Work → Prop := fun _ => True

abbrev noWork : Work → Prop := fun _ => False

abbrev withoutCollecting : Work → Prop := fun work => work ≠ .collecting

/-- Executables bring code along only in these cells. -/
abbrev adoptingIn (adopters : List Cell) : Work → Prop :=
  fun work => ∀ cell, work = .adopting cell → cell ∈ adopters

/-- The part of a machine that links depend on. -/
structure Store where
  config : Config
  heap : Heap Entity
  code : CodeTable

namespace Machine

def store (machine : Machine) : Store := ⟨machine.config, machine.heap, machine.code⟩

/-- The machine after an allocation. -/
def withCell (machine : Machine) (entity : Entity) : Machine :=
  { machine with heap := (machine.heap.allocate entity).2 }

/-- The number that the next block takes. -/
def nextCode (machine : Machine) : CodeId := ⟨machine.code.lastNumber + 1⟩

/-- The block that a compilation makes next. -/
def assembled (machine : Machine) (request : Compilation) (labels : List Locations) : Block :=
  request.assemble machine.nextCode labels machine.config.varargsCeiling machine.config.callCaching

/-- The machine after a compilation: the new block is the current code of its executable. -/
def compiled (machine : Machine) (request : Compilation) (labels : List Locations) : Machine :=
  { machine with code := machine.code.append (machine.assembled request labels) }.setCode
    request.owner request.kind (some machine.nextCode)

/-- The machine after a block has been replaced by other code for its executable. -/
def replaced (machine : Machine) (block : Block) (executable : Executable) (entry : Entry)
    (tier : Tier) (labels : List Locations) : Machine :=
  (((machine.compiled (block.replacement executable entry tier) labels).clearIncoming
    block.id).upgradeSites block.id ⟨machine.nextCode, entry⟩ block.incoming).2

/-- A callee is resolved: it is a closure, and calls to it go to the start of the current code of
its executable. -/
structure Resolves (machine : Machine) (kind : Specialization) (resolved : Resolved) : Prop where
  closure : machine.heap.executableOf? resolved.callee = some resolved.executable
  code : ∃ executable block, machine.heap.executable? resolved.executable = some executable ∧
    executable.code kind = some block.id ∧ machine.code.get? block.id = some block ∧
    block.pointer = resolved.target ∧ (kind = .construct → executable.constructible = true)

/-- The callee is a closure of the realm that the code of the site was compiled for. -/
def SameRealm (machine : Machine) (site : SiteRef) (callee : Cell) : Prop :=
  ∃ block closure, machine.code.get? site.caller = some block ∧
    machine.heap.closure? callee = some closure ∧ closure.realm = block.realm

/-- Is the block the current code of its executable? -/
def isCurrent (machine : Machine) (block : Block) : Bool :=
  machine.currentCode? block.owner block.kind == some block.id

/-- Is the block the current code of another executable than its own, or for other calls than it was
compiled for? -/
def isShared (machine : Machine) (block : Block) : Bool :=
  machine.heap.occupied.any fun (cell, _) => [Specialization.call, .construct].any fun kind =>
    machine.currentCode? cell kind == some block.id && !(cell == block.owner && kind == block.kind)

/-- One change of a machine, where only some work may be done. -/
inductive Change (may : Work → Prop) (before : Machine) : Machine → Prop where
  /-- Statistics, events, roots and frames may change at any time. -/
  | bookkeeping {after : Machine} (hstore : after.store = before.store) :
      Change may before after
  | allocation (entity : Entity) (hplain : entity.IsPlain)
      (hmay : entity.bringsCode = true → may (.adopting (before.heap.allocate entity).1)) :
      Change may before (before.withCell entity)
  | barrier (owner target : Cell) :
      Change may before { before with heap := before.heap.writeBarrier owner target }
  | startMarking (hmay : may .collecting) : Change may before before.startMarking
  | markStep (hmay : may .collecting) (budget : Nat) :
      Change may before { before with heap := (before.heap.markStep budget).2 }
  | sweep (hmay : may .collecting) : Change may before before.sweepHeap.2
  | profile {site : SiteRef} {link after : Link} (hlink : before.code.link? site = some link)
      (hprofiled : link.Profiled after) :
      Change may before { before with code := before.code.setLink site after }
  /-- Calls at a site stop being cached, or must not use a stub any more. -/
  | giveUp {site : SiteRef} {link after : Link} (hlink : before.code.link? site = some link)
      (hafter : after = link.setVirtual.link ∨ after = link.disallowStubs.link) :
      Change may before { before with code := before.code.setLink site after }
  | install {site : SiteRef} {link after : Link} {owner : Cell} {resolved : Resolved}
      {codes : List CodeId} (hlink : before.code.link? site = some link)
      (hresolves : before.Resolves link.callType.specialization resolved)
      (hinstalls : link.Installs before.heap owner before.config.polymorphicCapacity resolved
        after codes)
      (hrealm : before.SameRealm site resolved.callee) :
      Change may before
        { before with code := (before.code.setLink site after).noteIncoming codes site }
  /-- Code is compiled for an executable that has no current code, or whose current code is gone. -/
  | compile {request : Compilation} (labels : List Locations)
      (hexecutable : before.heap.executable? request.owner = some request.executable)
      (hmissing : ∀ id, request.executable.code request.kind = some id →
        before.code.contains id = false) :
      Change may before (before.compiled request labels)
  | replace {block : Block} {executable : Executable} (entry : Entry) (tier : Tier)
      (labels : List Locations) (hblock : before.code.get? block.id = some block)
      (hexecutable : before.heap.executable? block.owner = some executable)
      (hmay : may (.replacing (before.isCurrent block) (before.isShared block))) :
      Change may before (before.replaced block executable entry tier labels)
  | jettison {block : Block} (hblock : before.code.get? block.id = some block) :
      Change may before (before.jettison block)
  | prune : Change may before { before with code := before.code.pruneIncoming.2 }

theorem Change.object {may : Work → Prop} {before : Machine} (handler : Option Entry) :
    Change may before (before.withCell (.object handler)) :=
  .allocation _ trivial fun hcode => absurd hcode Bool.false_ne_true

theorem Change.mono {may more : Work → Prop} {before after : Machine}
    (hmore : ∀ work, may work → more work) (h : Change may before after) :
    Change more before after := by
  cases h with
  | bookkeeping hstore => exact .bookkeeping hstore
  | allocation entity hplain hmay =>
      exact .allocation entity hplain fun hcode => hmore _ (hmay hcode)
  | barrier owner target => exact .barrier owner target
  | startMarking hmay => exact .startMarking (hmore _ hmay)
  | markStep hmay budget => exact .markStep (hmore _ hmay) budget
  | sweep hmay => exact .sweep (hmore _ hmay)
  | profile hlink hprofiled => exact .profile hlink hprofiled
  | giveUp hlink hafter => exact .giveUp hlink hafter
  | install hlink hresolves hinstalls hrealm =>
      exact .install hlink hresolves hinstalls hrealm
  | compile labels hexecutable hmissing => exact .compile labels hexecutable hmissing
  | replace entry tier labels hblock hexecutable hmay =>
      exact .replace entry tier labels hblock hexecutable (hmore _ hmay)
  | jettison hblock => exact .jettison hblock
  | prune => exact .prune

/-- A chain of changes. -/
def Changes (may : Work → Prop) : Machine → Machine → Prop :=
  Relation.ReflTransGen (Change may)

namespace Changes

variable {may : Work → Prop} {before middle after : Machine}

theorem refl (machine : Machine) : Changes may machine machine :=
  Relation.ReflTransGen.refl

theorem single (h : Change may before after) : Changes may before after :=
  Relation.ReflTransGen.single h

theorem trans (hleft : Changes may before middle) (hright : Changes may middle after) :
    Changes may before after :=
  Relation.ReflTransGen.trans hleft hright

theorem bookkeeping (hstore : after.store = before.store) : Changes may before after :=
  single (.bookkeeping hstore)

/-- What every change preserves holds after a chain of changes. -/
theorem preserves (invariant : Machine → Prop)
    (hstep : ∀ {before after}, Change may before after → invariant before → invariant after)
    (h : Changes may before after) (hbefore : invariant before) : invariant after := by
  induction h with
  | refl => exact hbefore
  | tail _ hlast ih => exact hstep hlast ih

/-- The barriers that a change of a link asks for. -/
theorem issueBarriers (machine : Machine) (effects : List Effect) :
    Changes may machine { machine with heap := machine.heap.issueBarriers effects } := by
  unfold Heap.issueBarriers
  induction effects.filterMap Effect.barrier? generalizing machine with
  | nil => exact refl machine
  | cons pair rest ih =>
      exact trans (single (.barrier pair.1 pair.2))
        (ih { machine with heap := machine.heap.writeBarrier pair.1 pair.2 })

theorem perform (machine : Machine) (effects : List Effect) :
    Changes may machine (machine.perform effects) :=
  trans (issueBarriers machine effects) (bookkeeping rfl)

/-- Replacing a record with the effects of the replacement is a chain of changes if the replacement
alone is one. -/
theorem editLink {site : SiteRef} {edit : Edit}
    (h : Change may before { before with code := before.code.setLink site edit.link }) :
    Changes may before (before.editLink site edit) :=
  trans (single h) (perform _ _)

end Changes

/-! ### Code along changes -/

section Evolution

open CodeTable

variable (machine : Machine) (old : CodeId) (site : SiteRef)

theorem retargetSite_evolves (new : Option CodePointer) :
    machine.code.Evolves (machine.retargetSite old new site).2.code := by
  rw [retargetSite]
  rcases hlink : machine.code.link? site with _ | link
  · exact .refl _
  · exact Evolves.setLink hlink (.single (.retarget old new) rfl)

/-- Send one site from replaced code to its replacement. -/
def upgradeSite (new : CodePointer) : Machine :=
  match machine.retargetSite old (some new) site with
  | (.upgraded, moved) =>
    { moved with stats :=
        { moved.stats with upgrades := tick64 moved.stats.upgrades } }.addIncoming new.block site
  | (_, moved) => moved

theorem upgradeSites_eq_foldl (new : CodePointer) (sites : List SiteRef) :
    (machine.upgradeSites old new sites).2
      = sites.foldl (fun machine site => machine.upgradeSite old site new) machine := by
  induction sites generalizing machine with
  | nil => rfl
  | cons site rest ih =>
      rw [upgradeSites, List.foldl_cons, upgradeSite]
      rcases machine.retargetSite old (some new) site with ⟨_ | _ | _ | _, moved⟩ <;> dsimp only <;>
        rw [← ih]

theorem upgradeSite_evolves (new : CodePointer) :
    machine.code.Evolves (machine.upgradeSite old site new).code := by
  have hmoved := retargetSite_evolves machine old site (some new)
  rw [upgradeSite]
  rcases hstep : machine.retargetSite old (some new) site with ⟨_ | _ | _ | _, moved⟩ <;>
    rw [hstep] at hmoved
  · exact hmoved
  · exact hmoved.trans (Evolves.addIncoming moved.code new.block site)
  · exact hmoved
  · exact hmoved

theorem dropSite_code :
    (machine.dropSite old site).code = (machine.retargetSite old none site).2.code := by
  rw [dropSite]
  rcases machine.retargetSite old none site with ⟨_ | _ | _ | _, moved⟩ <;> rfl

theorem dropSite_evolves : machine.code.Evolves (machine.dropSite old site).code := by
  rw [dropSite_code]
  exact retargetSite_evolves machine old site none

theorem foldl_evolves {step : Machine → SiteRef → Machine}
    (hstep : ∀ (machine : Machine) (site : SiteRef),
      machine.code.Evolves (step machine site).code)
    (sites : List SiteRef) : machine.code.Evolves (sites.foldl step machine).code := by
  induction sites generalizing machine with
  | nil => exact .refl _
  | cons site rest ih => exact (hstep machine site).trans (ih _)

theorem clearIncoming_evolves : machine.code.Evolves (machine.clearIncoming old).code :=
  Evolves.update (fun _ => rfl) fun _ => .of_links rfl

theorem releaseCode_code (block : Block) : (machine.releaseCode block).code = machine.code := by
  rw [releaseCode]
  rcases machine.heap.executable? block.owner with _ | executable
  · rfl
  · dsimp only
    split <;> rfl

theorem revertLinks_code (hnumbered : machine.code.Numbered) :
    (machine.revertLinks old).code = machine.code.update old fun block =>
      { block with links := block.links.map fun link => link.revert.link } := by
  rw [revertLinks]
  rcases hblock : machine.code.get? old with _ | block <;> dsimp only [perform]
  · rw [update, List.map_congr_left (g := id)]
    · simp
    · intro block hmem
      have hne : block.id ≠ old := by
        rintro rfl
        rw [hnumbered.get?_of_mem hmem] at hblock
        cases hblock
      simp [hne]
  · rw [update, update]
    congr 1
    refine List.map_congr_left fun found hmem => ?_
    split
    · rename_i hid
      have hfound := hnumbered.get?_of_mem hmem
      rw [hid, hblock] at hfound
      rw [← Option.some.inj hfound, List.map_map]
      rfl
    · rfl

theorem revertLinks_evolves (hnumbered : machine.code.Numbered) :
    machine.code.Evolves (machine.revertLinks old).code := by
  rw [revertLinks_code machine old hnumbered]
  exact Evolves.update (fun _ => rfl) fun block => .map rfl fun link => .single .revert rfl

theorem compiled_evolves (request : Compilation) (labels : List Locations) :
    machine.code.Evolves (machine.compiled request labels).code :=
  Evolves.append rfl

/-- Once the new code is compiled, what replacing a block does is to move sites. -/
theorem replaced_evolves_compiled (block : Block) (executable : Executable) (entry : Entry)
    (tier : Tier) (labels : List Locations) :
    (machine.compiled (block.replacement executable entry tier) labels).code.Evolves
      (machine.replaced block executable entry tier labels).code := by
  rw [replaced, upgradeSites_eq_foldl]
  refine (clearIncoming_evolves _ block.id).trans ?_
  exact foldl_evolves _ (fun machine site => upgradeSite_evolves machine _ site _) _

theorem replaced_evolves (block : Block) (executable : Executable) (entry : Entry) (tier : Tier)
    (labels : List Locations) :
    machine.code.Evolves (machine.replaced block executable entry tier labels).code :=
  (compiled_evolves machine (block.replacement executable entry tier) labels).trans
    (replaced_evolves_compiled machine block executable entry tier labels)

theorem jettison_evolves (block : Block) (hnumbered : machine.code.Numbered) :
    machine.code.Evolves (machine.jettison block).code := by
  have hdropped := (clearIncoming_evolves machine block.id).trans
    (foldl_evolves _ (fun machine site => dropSite_evolves machine block.id site) block.incoming)
  have hreverted := hdropped.trans
    (revertLinks_evolves _ block.id (hdropped.numbered hnumbered))
  rw [jettison, report]
  dsimp only
  rw [releaseCode_code]
  exact hreverted.trans (Evolves.remove _ _)

theorem sweepHeap_code : machine.sweepHeap.2.code = (machine.code.visitWeak
    (Heap.completeMarking (if machine.heap.isMarking then machine else machine.startMarking).heap
      machine.rootSet).isMarked machine.stats).1 := by
  rw [sweepHeap]
  by_cases hmarking : machine.heap.isMarking = true
  · simp only [hmarking, if_true]
    rfl
  · simp only [hmarking]
    rfl

theorem Change.evolves {may : Work → Prop} {before after : Machine}
    (h : Change may before after) (hnumbered : before.code.Numbered) :
    before.code.Evolves after.code := by
  cases h with
  | bookkeeping hstore =>
      rw [show after.code = before.code from congrArg Store.code hstore]
      exact .refl _
  | allocation => exact .refl _
  | barrier => exact .refl _
  | startMarking => exact .refl _
  | markStep => exact .refl _
  | sweep =>
      rw [sweepHeap_code]
      exact Evolves.visitWeak _ _ _
  | profile hlink hprofiled => exact Evolves.setLink hlink hprofiled.becomes
  | giveUp hlink hafter =>
      refine Evolves.setLink hlink ?_
      rcases hafter with rfl | rfl
      · exact .single .setVirtual rfl
      · exact .single .disallowStubs rfl
  | install hlink hresolves hinstalls =>
      exact (Evolves.setLink hlink hinstalls.becomes).trans (Evolves.noteIncoming _ _ _)
  | compile labels => exact compiled_evolves before _ labels
  | replace entry tier labels => exact replaced_evolves before _ _ entry tier labels
  | jettison => exact jettison_evolves before _ hnumbered
  | prune => exact Evolves.pruneIncoming _

/-- Numbers, what blocks were compiled as and the records of sites along a chain of changes. -/
theorem Changes.evolves {may : Work → Prop} {before after : Machine}
    (h : Changes may before after) (hnumbered : before.code.Numbered) :
    before.code.Evolves after.code := by
  induction h with
  | refl => exact .refl _
  | tail _ hlast ih => exact ih.trans (hlast.evolves (ih.numbered hnumbered))

end Evolution

/-! ### What changes of code leave alone -/

/-- The configuration, what keeps cells alive, the frames, and how many calls the slots of sites
have served. -/
structure Setting where
  config : Config
  roots : List Cell
  stackRoots : List Cell
  running : RunningFrames
  served : Nat

def setting (machine : Machine) : Setting :=
  ⟨machine.config, machine.roots, machine.stackRoots, machine.running, machine.stats.fastPathHits⟩

theorem retargetSite_setting (machine : Machine) (old : CodeId) (new : Option CodePointer)
    (site : SiteRef) : (machine.retargetSite old new site).2.setting = machine.setting := by
  rw [retargetSite]
  rcases machine.code.link? site with _ | link <;> rfl

theorem upgradeSite_setting (machine : Machine) (old : CodeId) (site : SiteRef)
    (new : CodePointer) : (machine.upgradeSite old site new).setting = machine.setting := by
  rw [← retargetSite_setting machine old (some new) site, upgradeSite]
  rcases machine.retargetSite old (some new) site with ⟨_ | _ | _ | _, moved⟩ <;> rfl

theorem dropSite_setting (machine : Machine) (old : CodeId) (site : SiteRef) :
    (machine.dropSite old site).setting = machine.setting := by
  rw [← retargetSite_setting machine old none site, dropSite]
  rcases machine.retargetSite old none site with ⟨_ | _ | _ | _, moved⟩ <;> rfl

theorem foldl_view {γ : Type} {view : Machine → γ} {step : Machine → SiteRef → Machine}
    (hstep : ∀ machine site, view (step machine site) = view machine)
    (machine : Machine) (sites : List SiteRef) :
    view (sites.foldl step machine) = view machine := by
  induction sites generalizing machine with
  | nil => rfl
  | cons site rest ih => rw [List.foldl_cons, ih, hstep]

theorem replaced_setting (machine : Machine) (block : Block) (executable : Executable)
    (entry : Entry) (tier : Tier) (labels : List Locations) :
    (machine.replaced block executable entry tier labels).setting = machine.setting := by
  rw [replaced, upgradeSites_eq_foldl]
  exact foldl_view (fun machine site => upgradeSite_setting machine block.id site _) _ _

theorem revertLinks_setting (machine : Machine) (id : CodeId) :
    (machine.revertLinks id).setting = machine.setting := by
  rw [revertLinks]
  rcases machine.code.get? id with _ | found <;> rfl

theorem releaseCode_setting (machine : Machine) (block : Block) :
    (machine.releaseCode block).setting = machine.setting := by
  rw [releaseCode]
  rcases machine.heap.executable? block.owner with _ | executable
  · rfl
  · dsimp only
    split <;> rfl

theorem jettison_setting (machine : Machine) (block : Block) :
    (machine.jettison block).setting = machine.setting := by
  show ((Machine.revertLinks _ block.id).releaseCode block).setting = machine.setting
  rw [releaseCode_setting, revertLinks_setting]
  exact foldl_view (fun machine site => dropSite_setting machine block.id site) _ _

theorem Change.config_eq {may : Work → Prop} {before after : Machine}
    (h : Change may before after) : after.config = before.config := by
  cases h with
  | bookkeeping hstore => exact congrArg Store.config hstore
  | sweep =>
      rw [sweepHeap]
      by_cases hmarking : before.heap.isMarking = true
      · simp only [hmarking, if_true]
        rfl
      · simp only [hmarking]
        rfl
  | replace entry tier labels =>
      exact congrArg Setting.config (replaced_setting before _ _ entry tier labels)
  | jettison => exact congrArg Setting.config (jettison_setting before _)
  | allocation => rfl
  | barrier => rfl
  | startMarking => rfl
  | markStep => rfl
  | profile => rfl
  | giveUp => rfl
  | install => rfl
  | compile => rfl
  | prune => rfl

end Machine

end InlineCache
