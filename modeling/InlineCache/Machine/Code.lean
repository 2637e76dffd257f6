import InlineCache.Link.Retarget
import InlineCache.Machine.Basic

/-!
# Compiling, replacing and discarding code

Code is compiled when it is first needed. It can be replaced by other code for the same executable:
the sites that went to the old block then go to the new one. It can be discarded: the sites that
went there lose the link.
-/

namespace InlineCache

namespace Machine

/-- Empty the list of incoming sites of a block. -/
def clearIncoming (machine : Machine) (id : CodeId) : Machine :=
  { machine with code := machine.code.update id fun block => { block with incoming := [] } }

def addIncoming (machine : Machine) (id : CodeId) (site : SiteRef) : Machine :=
  { machine with code := machine.code.update id fun block => block.addIncoming site }

/-- Set the current code of an executable. -/
def setCode (machine : Machine) (owner : Cell) (kind : Specialization) (code : Option CodeId) :
    Machine :=
  { machine with heap := machine.heap.setCode owner kind code }

/-- Send a site from the block `old` to the pointer `new`, or away from it if there is none. -/
def retargetSite (machine : Machine) (old : CodeId) (new : Option CodePointer) (site : SiteRef) :
    Retargeting × Machine :=
  match machine.code.link? site with
  | none => (.unaffected, machine)
  | some link =>
    let (outcome, edit) := link.retarget old new
    (outcome, machine.editLink site edit)

/-- Send the sites of a list from replaced code to its replacement, and count those that went. -/
def upgradeSites (machine : Machine) (old : CodeId) (new : CodePointer) :
    List SiteRef → Nat × Machine
  | [] => (0, machine)
  | site :: rest =>
    match machine.retargetSite old (some new) site with
    | (.upgraded, moved) =>
      let counted := { moved with stats :=
        { moved.stats with upgrades := tick64 moved.stats.upgrades } }
      let (count, upgraded) := (counted.addIncoming new.block site).upgradeSites old new rest
      (count + 1, upgraded)
    | (_, moved) => moved.upgradeSites old new rest

/-- Take a link into discarded code away from a site. -/
def dropSite (machine : Machine) (code : CodeId) (site : SiteRef) : Machine :=
  match machine.retargetSite code none site with
  | (.unaffected, moved) => moved
  | (_, moved) =>
    { moved with stats :=
        { moved.stats with jettisonUnlinks := tick64 moved.stats.jettisonUnlinks } }

/-- Take away the links of a block's own sites. -/
def revertLinks (machine : Machine) (id : CodeId) : Machine :=
  match machine.code.get? id with
  | none => machine
  | some block =>
    let edits := block.links.map Link.revert
    { machine with code := machine.code.update id fun block =>
        { block with links := edits.map Edit.link } }.perform (edits.flatMap Edit.effects)

/-- The executable of a discarded block has no current code, if the block was its current code. -/
def releaseCode (machine : Machine) (block : Block) : Machine :=
  match machine.heap.executable? block.owner with
  | some executable =>
    if executable.code block.kind = some block.id then machine.setCode block.owner block.kind none
    else machine
  | none => machine

/-- Discard a block. -/
def jettison (machine : Machine) (block : Block) : Machine :=
  let dropped := block.incoming.foldl (fun machine site => machine.dropSite block.id site)
    (machine.clearIncoming block.id)
  let released := (dropped.revertLinks block.id).releaseCode block
  { released with code := released.code.remove block.id }.report (.jettisoned block.id)

end Machine

namespace MachineM

def compile (request : Compilation) : MachineM CodeId := do
  let machine ← get
  match machine.code.compile request machine.config.varargsCeiling machine.config.callCaching with
  | .ok (id, code) =>
    set { machine with code }
    modify fun machine => machine.setCode request.owner request.kind (some id)
    pure id
  | .error overflow => throw (.overflow overflow)

/-- The current code of an executable. It is compiled if there is none. -/
def ensureCode (owner : Cell) (realm : Realm) (kind : Specialization) : MachineM CodeId := do
  let executable ← MachineM.executable owner
  match executable.code kind with
  | some id => if (← get).code.contains id then pure id else compileBaseline executable
  | none => compileBaseline executable
where
  compileBaseline (executable : Executable) : MachineM CodeId := do
    let id ← compile
      { owner, executable, realm, kind, tier := .baseline, entry := executable.entry }
    modify fun machine => machine.report (.compiled id kind)
    pure id

/-- Make sure that a function has code. -/
def compileFunction (function : Cell) (kind : Specialization) : MachineM CodeId := do
  match (← get).heap.closure? function with
  | some closure => ensureCode closure.executable closure.realm kind
  | none => throw (.deadCell function)

/-- Replace the code of a block. -/
def replaceCode (old : CodeId) (entry : Entry) (tier : Tier) : MachineM CodeId := do
  let block ← MachineM.block old
  let executable ← MachineM.executable block.owner
  let id ← compile
    { owner := block.owner, executable, realm := block.realm, kind := block.kind, tier, entry }
  modifyGet fun machine =>
    let (upgraded, machine) :=
      (machine.clearIncoming old).upgradeSites old ⟨id, entry⟩ block.incoming
    (id, machine.report (.replaced old id tier upgraded))

/-- Discard a block. -/
def jettisonCode (id : CodeId) : MachineM Unit := do
  let block ← MachineM.block id
  modify fun machine => machine.jettison block

/-- Forbid stubs at a site. -/
def disallowStubs (site : SiteRef) : MachineM Unit := do
  let link ← MachineM.link site
  let edit := link.disallowStubs
  modify fun machine => machine.editLink site edit
  if link.mode ≠ .virtual ∧ edit.link.mode = .virtual then
    modify fun machine => { machine with stats :=
      { machine.stats with virtualTransitions := tick64 machine.stats.virtualTransitions } }

end MachineM

end InlineCache
