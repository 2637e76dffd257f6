import InlineCache.Proofs.Code.Outline
import InlineCache.Proofs.Machine.Heap

/-!
# The outline of a machine

The outline of a machine is what it is apart from what it caches, counts and reports. Linking a
site, sending it elsewhere and unlinking it leave the outline alone, as long as there is no marker
to be told about it.
-/

namespace InlineCache

@[ext]
structure MachineOutline where
  heap : Heap Entity
  code : List BlockOutline × Nat
  roots : List Cell
  stackRoots : List Cell
  running : RunningFrames

namespace MachineOutline

def nextCode (outline : MachineOutline) : CodeId := ⟨outline.code.2 + 1⟩

/-- What a compilation does. -/
def compiled (outline : MachineOutline) (request : Compilation) (labels : List Locations) :
    MachineOutline :=
  { outline with
    heap := outline.heap.setCode request.owner request.kind (some outline.nextCode)
    code := (outline.code.1 ++ [(request.assemble outline.nextCode labels 0 true).outline],
      outline.code.2 + 1) }

/-- What it does to discard a block. -/
def jettison (outline : MachineOutline) (block : Block) : MachineOutline :=
  { outline with
    heap :=
      if (outline.heap.executable? block.owner).bind (fun found => found.code block.kind)
          = some block.id then
        outline.heap.setCode block.owner block.kind none
      else outline.heap
    code := (outline.code.1.filter fun found => found.bare.id != block.id, outline.code.2) }

end MachineOutline

namespace Machine

open CodeTable Heap

def outline (machine : Machine) : MachineOutline where
  heap := machine.heap
  code := machine.code.outline
  roots := machine.roots
  stackRoots := machine.stackRoots
  running := machine.running

/-- No collection is in progress, and every block has a number of its own. -/
structure Settled (machine : Machine) : Prop where
  idle : machine.heap.phase = .idle
  numbered : machine.code.Numbered

variable {machine left right : Machine} {site : SiteRef} {link : Link} {old : CodeId}

theorem outline_eq (hheap : left.heap = right.heap)
    (hcode : left.code.outline = right.code.outline) (hsetting : left.setting = right.setting) :
    left.outline = right.outline :=
  MachineOutline.ext hheap hcode (congrArg Setting.roots hsetting)
    (congrArg Setting.stackRoots hsetting) (congrArg Setting.running hsetting)

namespace Settled

theorem of_outline (h : left.Settled) (houtline : left.outline = right.outline) :
    right.Settled := by
  have hheap : left.heap = right.heap := congrArg MachineOutline.heap houtline
  have hcode : left.code.outline = right.code.outline := congrArg MachineOutline.code houtline
  exact ⟨hheap ▸ h.idle, numbered_of_outline hcode h.numbered⟩

theorem perform_heap (h : machine.Settled) (effects : List Effect) :
    (machine.perform effects).heap = machine.heap :=
  (perform_barriers machine effects).eq_of_idle h.idle

theorem outline_editLink {edit : Edit} (h : machine.Settled)
    (hlink : machine.code.link? site = some link) (htype : edit.link.callType = link.callType) :
    (machine.editLink site edit).outline = machine.outline := by
  refine outline_eq ?_ (outline_setLink h.numbered hlink htype) rfl
  have hidle : Settled { machine with code := machine.code.setLink site edit.link } :=
    ⟨h.idle, h.numbered.setLink _⟩
  exact hidle.perform_heap edit.effects

/-! ### Moving and dropping links -/

theorem outline_retargetSite (h : machine.Settled) (old : CodeId) (new : Option CodePointer)
    (site : SiteRef) : (machine.retargetSite old new site).2.outline = machine.outline := by
  rw [retargetSite]
  rcases hlink : machine.code.link? site with _ | link
  · rfl
  · exact h.outline_editLink hlink (Link.retarget_link_callType link old new)

theorem outline_upgradeSite (h : machine.Settled) (old : CodeId) (site : SiteRef)
    (new : CodePointer) : (machine.upgradeSite old site new).outline = machine.outline := by
  rw [← h.outline_retargetSite old (some new) site, upgradeSite]
  rcases machine.retargetSite old (some new) site with ⟨_ | _ | _ | _, moved⟩
  · rfl
  · exact outline_eq rfl outline_addIncoming rfl
  · rfl
  · rfl

theorem outline_dropSite (h : machine.Settled) (old : CodeId) (site : SiteRef) :
    (machine.dropSite old site).outline = machine.outline := by
  rw [← h.outline_retargetSite old none site, dropSite]
  rcases machine.retargetSite old none site with ⟨_ | _ | _ | _, moved⟩ <;> rfl

theorem outline_foldl {step : Machine → SiteRef → Machine}
    (hstep : ∀ {machine : Machine} (site : SiteRef), machine.Settled →
      (step machine site).outline = machine.outline)
    (h : machine.Settled) (sites : List SiteRef) :
    (sites.foldl step machine).outline = machine.outline := by
  induction sites generalizing machine with
  | nil => rfl
  | cons site rest ih =>
      have hsame := hstep site h
      rw [List.foldl_cons, ih (h.of_outline hsame.symm), hsame]

end Settled

theorem outline_clearIncoming (machine : Machine) (id : CodeId) :
    (machine.clearIncoming id).outline = machine.outline :=
  outline_eq rfl (outline_update fun _ _ _ => rfl) rfl

namespace Settled

/-- Taking away the links of a block does not change what sites there are. -/
theorem outline_revertLinks (h : machine.Settled) (id : CodeId) :
    (machine.revertLinks id).outline = machine.outline := by
  refine outline_eq ((revertLinks_barriers machine id).eq_of_idle h.idle) ?_
    (revertLinks_setting machine id)
  rw [revertLinks_code machine id h.numbered]
  refine outline_update fun block _ _ => ?_
  have htypes : (block.links.map fun link => link.revert.link).map Link.callType
      = block.links.map Link.callType := by
    rw [List.map_map]
    exact List.map_congr_left fun link _ => Link.revert_link_callType link
  rw [Block.outline, Block.outline, htypes]
  rfl

/-! ### Compiling, replacing and discarding code -/

theorem compiled (h : machine.Settled) (request : Compilation) (labels : List Locations) :
    (machine.compiled request labels).Settled :=
  ⟨setCode_phase.trans h.idle, h.numbered.append rfl⟩

end Settled

theorem outline_compiled (machine : Machine) (request : Compilation) (labels : List Locations) :
    (machine.compiled request labels).outline = machine.outline.compiled request labels := by
  have hcode : (machine.code.append (machine.assembled request labels)).outline
      = (machine.outline.compiled request labels).code := by
    rw [outline_append, assembled, request.outline_assemble _ _ _ 0 _ true]
    rfl
  exact MachineOutline.ext rfl hcode rfl rfl rfl

namespace Settled

/-- Apart from what is cached, to replace code is to compile other code. -/
theorem outline_replaced (h : machine.Settled) (block : Block) (executable : Executable)
    (entry : Entry) (tier : Tier) (labels : List Locations) :
    (machine.replaced block executable entry tier labels).outline
      = (machine.compiled (block.replacement executable entry tier) labels).outline := by
  have hcleared := outline_clearIncoming
    (machine.compiled (block.replacement executable entry tier) labels) block.id
  have hsettled := (h.compiled (block.replacement executable entry tier) labels).of_outline
    hcleared.symm
  rw [replaced, upgradeSites_eq_foldl, ← hcleared]
  exact hsettled.outline_foldl
    (fun site hmoved => hmoved.outline_upgradeSite block.id site ⟨machine.nextCode, entry⟩) _

theorem jettison (h : machine.Settled) (block : Block) : (machine.jettison block).Settled := by
  refine ⟨?_, (jettison_evolves machine block h.numbered).numbered h.numbered⟩
  obtain ⟨heap, hbarriers, hheap⟩ := jettison_heap machine block
  rw [hheap]
  split
  · rw [setCode_phase, hbarriers.phase, h.idle]
  · rw [hbarriers.phase, h.idle]

theorem outline_jettison (h : machine.Settled) (block : Block) :
    (machine.jettison block).outline = machine.outline.jettison block := by
  have hcleared := outline_clearIncoming machine block.id
  have hdropped := (h.of_outline hcleared.symm).outline_foldl
    (fun site hmoved => hmoved.outline_dropSite block.id site) block.incoming
  rw [hcleared] at hdropped
  have hreverted := (h.of_outline hdropped.symm).outline_revertLinks block.id
  rw [hdropped] at hreverted
  rw [Machine.jettison, ← hreverted]
  generalize Machine.revertLinks _ block.id = reverted
  have hheap : (reverted.releaseCode block).heap = (reverted.outline.jettison block).heap :=
    releaseCode_heap reverted block
  have hcode : ((reverted.releaseCode block).code.remove block.id).outline
      = (reverted.outline.jettison block).code := by
    rw [outline_remove, releaseCode_code]
    rfl
  have hsetting := releaseCode_setting reverted block
  exact MachineOutline.ext hheap hcode (congrArg Setting.roots hsetting)
    (congrArg Setting.stackRoots hsetting) (congrArg Setting.running hsetting)

end Settled

end Machine

end InlineCache
