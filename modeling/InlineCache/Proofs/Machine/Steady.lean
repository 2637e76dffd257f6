import InlineCache.Proofs.Machine.Calls
import InlineCache.Proofs.Machine.Follows

/-!
# What operations leave of the calls in progress

The frames that run and the stack of roots belong to the calls in progress. A call pushes and
enters, and takes back what it pushed when it fails or returns. All other operations leave both as
they are. Only a call that the slot of its site serves is counted as such.
-/

namespace InlineCache

/-- The block that a frame at a destination belongs to. -/
def Destination.block : Destination → CodeId
  | .code pointer => pointer.block
  | .handler _ => CodeId.host

namespace Machine

/-- What the calls in progress hold: the frames that run, and the stack of roots. -/
def frames (machine : Machine) : RunningFrames × List Cell :=
  (machine.running, machine.stackRoots)

/-- What the calls in progress hold, and how many calls the slots of sites have served. -/
def tally (machine : Machine) : (RunningFrames × List Cell) × Nat :=
  (machine.frames, machine.stats.fastPathHits)

theorem tally_of_setting {left right : Machine} (h : left.setting = right.setting) :
    left.tally = right.tally :=
  Prod.ext (Prod.ext (congrArg Setting.running h) (congrArg Setting.stackRoots h))
    (congrArg Setting.served h)

theorem sweepHeap_setting (machine : Machine) :
    machine.sweepHeap.2.setting = machine.setting := by
  have hserved := fun isLive => machine.code.visitWeak_fastPathHits isLive machine.stats
  rw [sweepHeap]
  by_cases hmarking : machine.heap.isMarking = true
  · simp only [hmarking, if_true]
    exact congrArg (Setting.mk _ _ _ _) (hserved _)
  · simp only [hmarking]
    exact congrArg (Setting.mk _ _ _ _) (hserved _)

end Machine

namespace MachineM

open Machine

variable {α β : Type}

/-- The operation leaves what is viewed as it is. -/
def Keeps {γ : Type} (view : Machine → γ) (operation : MachineM α) : Prop :=
  ∀ machine, view (operation.exec machine).2 = view machine

theorem keepsChains {γ : Type} (view : Machine → γ) :
    Chains fun before after => view after = view before where
  refl := fun _ => rfl
  trans := fun hfirst hsecond => hsecond.trans hfirst

/-- The operation leaves the frames and the stack of roots as they are, and no slot serves a
call. -/
abbrev Steady (operation : MachineM α) : Prop := Keeps tally operation

namespace Keeps

variable {γ : Type} {view : Machine → γ}

theorem of_pure (value : α) : Keeps view (pure value : MachineM α) := fun _ => rfl

theorem of_throw (error : MachineError) : Keeps view (throw error : MachineM α) := fun _ => rfl

theorem of_look (look : Machine → Except MachineError α) : Keeps view (MachineM.look look) :=
  fun _ => rfl

theorem of_modify {change : Machine → Machine}
    (h : ∀ machine, view (change machine) = view machine) :
    Keeps view (modify change : MachineM PUnit) := h

theorem of_modifyGet {change : Machine → α × Machine}
    (h : ∀ machine, view (change machine).2 = view machine) :
    Keeps view (modifyGet change : MachineM α) := h

theorem bind {operation : MachineM α} {next : α → MachineM β} (h : Keeps view operation)
    (hnext : ∀ value, Keeps view (next value)) : Keeps view (operation >>= next) :=
  (keepsChains view).bind h hnext

theorem bind_get {next : Machine → MachineM β} (hnext : ∀ machine, Keeps view (next machine)) :
    Keeps view (get >>= next) :=
  bind (fun _ => rfl) hnext

theorem map {operation : MachineM α} (change : α → β) (h : Keeps view operation) :
    Keeps view (change <$> operation) := by
  intro machine
  rw [exec_map]
  exact h machine

theorem frames {operation : MachineM α} (h : Steady operation) : Keeps Machine.frames operation :=
  fun machine => congrArg Prod.fst (h machine)

theorem fastPathHits {operation : MachineM α} (h : Steady operation) :
    Keeps (fun machine => machine.stats.fastPathHits) operation :=
  fun machine => congrArg Prod.snd (h machine)

end Keeps

/-! ### Code -/

theorem compile_steady (request : Compilation) : Steady (compile request) := by
  intro machine
  rw [exec_compile]
  rcases Locations.forBlock request.executable.sites.length with overflow | labels <;> rfl

theorem ensureCode_steady (owner : Cell) (realm : Realm) (kind : Specialization) :
    Steady (ensureCode owner realm kind) := by
  intro machine
  have hcases := ensureCode_cases machine owner realm kind
  generalize (ensureCode owner realm kind).exec machine = outcome at hcases
  cases hcases <;> rfl

theorem compileFunction_steady (function : Cell) (kind : Specialization) :
    Steady (compileFunction function kind) :=
  (keepsChains tally).compileFunction ensureCode_steady function kind

theorem replaceCode_steady (old : CodeId) (entry : Entry) (tier : Tier) :
    Steady (replaceCode old entry tier) := by
  refine .bind (.of_look _) fun block => .bind (.of_look _) fun executable =>
    .bind (compile_steady _) fun id => .of_modifyGet fun machine => ?_
  show ((machine.clearIncoming old).upgradeSites old ⟨id, entry⟩ block.incoming).2.tally = _
  rw [upgradeSites_eq_foldl]
  exact tally_of_setting
    (foldl_view (fun machine site => upgradeSite_setting machine old site _) _ _)

theorem jettisonCode_steady (id : CodeId) : Steady (jettisonCode id) :=
  .bind (.of_look _) fun block => .of_modify fun machine =>
    tally_of_setting (jettison_setting machine block)

theorem disallowStubs_steady (site : SiteRef) : Steady (disallowStubs site) := by
  refine .bind (.of_look _) fun link => .bind (.of_modify fun _ => rfl) fun _ => ?_
  split
  · exact .of_modify fun _ => rfl
  · exact .of_pure _

/-! ### Collecting -/

theorem collect_steady : Steady collect :=
  (keepsChains tally).collect
    (fun machine => tally_of_setting (sweepHeap_setting machine)) jettisonCode_steady
    fun _ _ => rfl

theorem safepoint_steady : Steady safepoint :=
  (keepsChains tally).safepoint collect_steady (fun _ => rfl) fun _ => rfl

/-! ### Finding the destination of a call -/

theorem resolve_steady (callee : Cell) (kind : Specialization) : Steady (resolve callee kind) :=
  (keepsChains tally).resolve (fun _ => rfl) ensureCode_steady callee kind

theorem selectGeneric_steady (call : Call) : Steady (selectGeneric call) := by
  rw [selectGeneric_eq]
  exact .map _ (resolve_steady call.callee call.kind)

theorem runLinker_steady (site : SiteRef) (link : Link)
    {linking : Linker → Except LinkError LinkOutcome × Linker}
    (h : ∀ linker, (linking linker).2.stats.fastPathHits = linker.stats.fastPathHits) :
    Steady (runLinker site link linking) := by
  intro machine
  rw [exec_runLinker]
  exact congrArg (Prod.mk _) (h _)

theorem goVirtual_fastPathHits (linker : Linker) (reason : VirtualReason) :
    (linker.goVirtual reason).stats.fastPathHits = linker.stats.fastPathHits := by
  rw [Linker.goVirtual]
  split <;> rfl

theorem linkPolymorphic_fastPathHits (linker : Linker) (heap : Heap Entity) (owner : Cell)
    (capacity : Nat) (callee : Resolved) :
    (linker.linkPolymorphic heap owner capacity callee).2.stats.fastPathHits
      = linker.stats.fastPathHits := by
  rw [Linker.linkPolymorphic]
  split
  · exact goVirtual_fastPathHits linker _
  · dsimp only
    split
    · exact goVirtual_fastPathHits _ _
    · split <;> dsimp only [Linker.apply, Linker.report] <;> split <;> rfl

/-- Linking serves no call. -/
theorem linkCall_fastPathHits (linker : Linker) (heap : Heap Entity) (owner : Cell)
    (capacity : Nat) (callee : Resolved) :
    (linker.linkCall heap owner capacity callee).2.stats.fastPathHits
      = linker.stats.fastPathHits := by
  rw [Linker.linkCall]
  split
  · rw [Linker.linkDirect]
    split
    · rfl
    · split <;> rfl
  · split
    · split <;> rfl
    · exact linkPolymorphic_fastPathHits linker heap owner capacity callee
    · exact linkPolymorphic_fastPathHits linker heap owner capacity callee
    · rfl
    · rfl

theorem linkFunction_steady (site : SiteRef) (resolved : Resolved) (realm : Realm) :
    Steady (linkFunction site resolved realm) := by
  refine .bind (.of_look _) fun block => .bind (.of_look _) fun link => .bind_get fun machine =>
    .bind (runLinker_steady site link fun linker => ?_) fun outcome => ?_
  · split
    · exact goVirtual_fastPathHits linker _
    · exact linkCall_fastPathHits linker _ _ _ _
  · rcases outcome with targets | _ | _
    · refine .of_modify fun machine => ?_
      rw [foldl_addIncoming]
      rfl
    · exact .of_pure _
    · exact .of_pure _

theorem selectSlow_steady (site : SiteRef) (call : Call) : Steady (selectSlow site call) := by
  rw [selectSlow_eq]
  refine .bind (.of_modify fun _ => rfl) fun _ => .bind (.of_look _) fun link =>
    .bind (.of_modify fun _ => rfl) fun _ => .bind (resolve_steady _ _) fun resolution => ?_
  rcases resolution with ⟨resolved, realm⟩ | entry
  · exact .bind (linkFunction_steady site resolved realm) fun _ => .of_pure _
  · refine .bind (.bind (.of_look _) fun found => ?_) fun _ => .of_pure _
    exact .map _ (runLinker_steady site found fun linker => goVirtual_fastPathHits linker _)

theorem selectFast_frames (target : CodePointer) : Keeps frames (selectFast target) :=
  .bind (.of_modify fun _ => rfl) fun _ => .of_pure _

theorem selectAtSite_frames (site : SiteRef) (call : Call) :
    Keeps frames (selectAtSite site call) := by
  intro machine
  cases selectAtSite_cases site call machine with
  | missing hlink houtcome => rw [houtcome]
  | slow hlink hmissed houtcome =>
      rw [houtcome]
      exact (selectSlow_steady site call).frames machine
  | resolved hlink htarget houtcome =>
      rw [houtcome]
      exact (selectGeneric_steady call).frames machine.countVirtual
  | served hlink hfast houtcome =>
      rw [houtcome]
      exact selectFast_frames _ machine
  | servedByStub executable hlink hfast houtcome =>
      rw [houtcome]
      exact selectFast_frames _ (machine.editLink site _)

/-! ### Starting, entering and leaving -/

/-- A call that finds its destination has pushed its cells; one that fails has taken them back. -/
def Starts (before : RunningFrames × List Cell) : Except MachineError Transfer × Machine → Prop
  | (.ok transfer, after) => transfer.base = before.2.length ∧
      after.frames = (before.1, before.2 ++ transfer.call.cells)
  | (.error _, after) => after.frames = before

theorem notCallable_starts (value : Value) (kind : Specialization) (machine : Machine) :
    Starts machine.frames ((notCallable value kind).exec machine) := rfl

theorem selecting_starts {select : MachineM Destination} (h : Keeps frames select) (call : Call)
    (machine : Machine) :
    Starts machine.frames ((CallPath.selecting call select).exec machine) := by
  rw [exec_selecting]
  have hselected := h (machine.pushRoots call.cells)
  rcases hrun : select.exec (machine.pushRoots call.cells) with ⟨error | destination, after⟩ <;>
    rw [hrun] at hselected
  · obtain ⟨hrunning, hstack⟩ := Prod.mk.inj hselected
    refine Prod.ext hrunning ?_
    show after.stackRoots.take machine.stackRoots.length = machine.stackRoots
    rw [hstack]
    exact List.take_left
  · exact ⟨rfl, hselected⟩

theorem startHostCall_starts (callee receiver : Value) (arguments : List Value)
    (kind : Specialization) (machine : Machine) :
    Starts machine.frames ((startHostCall callee receiver arguments kind).exec machine) := by
  rcases callee with _ | _ | cell
  · exact notCallable_starts _ kind machine
  · exact notCallable_starts _ kind machine
  · exact selecting_starts (selectGeneric_steady _).frames _ machine

theorem startSiteCall_starts (request : SiteCall) (machine : Machine) :
    Starts machine.frames ((startSiteCall request).exec machine) := by
  rcases hlink : machine.code.link? request.site with _ | link
  · obtain ⟨error, _, hrun⟩ := exec_startSiteCall_of_missing hlink
    rw [hrun]
    rfl
  · by_cases htail : link.callType.isTail = request.tail
    · have hnoted : (machine.noted request link).frames = machine.frames := by
        rw [noted]
        split <;> rfl
      rw [exec_startSiteCall hlink htail, ← hnoted]
      rcases request.callee with _ | _ | cell
      · exact notCallable_starts _ _ _
      · exact notCallable_starts _ _ _
      · exact selecting_starts (.bind safepoint_steady.frames fun _ => selectAtSite_frames _ _) _ _
    · rw [exec_startSiteCall_of_mismatch hlink htail]
      rfl

/-- Making the receiver of a call changes nothing but the heap. -/
theorem exec_receiverOf (call : Call) (machine : Machine) : ∃ receiver heap,
    (receiverOf call).exec machine = (.ok receiver, { machine with heap }) := by
  unfold receiverOf
  rcases call.kind with _ | _
  · exact ⟨_, _, rfl⟩
  · exact ⟨_, _, rfl⟩

/-- Entering changes neither code nor statistics. -/
theorem enter_keeps (transfer : Transfer) :
    Keeps (fun machine => (machine.code, machine.stats)) (enter transfer) := by
  intro machine
  obtain ⟨receiver, heap, hrun⟩ := exec_receiverOf transfer.call machine
  simp only [enter]
  rcases transfer.destination with pointer | entry
  · simp only [exec_bind, exec_get]
    rcases machine.code.contains pointer.block with _ | _
    · rfl
    · simp only [if_true, exec_bind, exec_pure, hrun, exec_modify]
      split <;> rfl
  · simp only [exec_bind, exec_pure, hrun, exec_modify]
    rfl

/-- A call that enters has pushed the cells of its frame and runs the block of its destination,
unless that is the host; one that finds its code gone has taken everything back. -/
def Enters (transfer : Transfer) (before : RunningFrames × List Cell) :
    Except MachineError Activation × Machine → Prop
  | (.ok activation, after) => activation.base = transfer.base ∧
      activation.frame.callee = transfer.call.callee ∧
      activation.frame.block = transfer.destination.block ∧
      after.frames =
        (if activation.frame.block = CodeId.host then before.1
          else before.1.enter activation.frame.block,
        before.2 ++ activation.frame.cells)
  | (.error _, after) => after.frames = (before.1, before.2.take transfer.base)

theorem enter_enters (transfer : Transfer) (machine : Machine) :
    Enters transfer machine.frames ((enter transfer).exec machine) := by
  obtain ⟨receiver, heap, hrun⟩ := exec_receiverOf transfer.call machine
  simp only [enter]
  rcases hdestination : transfer.destination with pointer | entry
  · simp only [exec_bind, exec_get]
    rcases machine.code.contains pointer.block with _ | _
    · rfl
    · simp only [if_true, exec_bind, exec_pure, hrun, exec_modify]
      refine ⟨rfl, rfl, (congrArg Destination.block hdestination).symm, ?_⟩
      dsimp only
      split <;> rfl
  · simp only [exec_bind, exec_pure, hrun, exec_modify]
    exact ⟨rfl, rfl, (congrArg Destination.block hdestination).symm, rfl⟩

theorem leave_frames (activation : Activation) (result : Except MachineError Value)
    (machine : Machine) : ((leave activation result).exec machine).2.frames =
      (machine.running.leave activation.frame.block,
        machine.stackRoots.take activation.base) := by
  simp only [leave, exec_bind, exec_modify]
  rcases result with error | value
  · rfl
  · dsimp only
    split <;> rfl

end MachineM

end InlineCache
