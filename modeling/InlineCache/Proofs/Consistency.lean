import InlineCache.Proofs.Blocks
import InlineCache.Proofs.Collecting
import InlineCache.Proofs.Frames

/-!
# A machine after a collection

Every collection finishes, whatever led up to it. The check of the links passes, the blocks that are
left are those whose executable is left and that are current or have an active frame, and each block
lists exactly the sites that go to it, each of them once.
-/

namespace InlineCache

/-- A block has a number of its own, and lists no site twice. -/
structure Block.WellFormed (block : Block) : Prop where
  numbered : block.id ≠ CodeId.host
  distinct : block.incoming.Nodup

theorem Block.stable_wellFormed : Block.Stable Block.WellFormed where
  links h := ⟨h.numbered, h.distinct⟩
  filter h := ⟨h.numbered, h.distinct.filter _⟩
  addIncoming := by
    intro block site h
    rw [Block.addIncoming]
    split
    · exact h
    · rename_i hnew
      exact ⟨h.numbered,
        h.distinct.append (List.nodup_singleton site) (List.disjoint_singleton.mpr hnew)⟩

namespace Machine

open CodeTable

variable {machine before after : Machine}

theorem Change.wellFormed {may : Work → Prop} (h : Change may before after)
    (hnumbered : before.code.Numbered) (hall : before.code.All Block.WellFormed) :
    after.code.All Block.WellFormed := by
  refine h.all Block.stable_wellFormed (fun request labels _ => ⟨?_, List.nodup_nil⟩) hnumbered hall
  exact fun heq => Nat.succ_ne_zero _ (congrArg CodeId.number heq)

theorem Changes.wellFormed {may : Work → Prop} (h : Changes may before after)
    (hnumbered : before.code.Numbered) (hall : before.code.All Block.WellFormed) :
    after.code.All Block.WellFormed := by
  induction h with
  | refl => exact hall
  | tail hsteps hlast ih =>
      have hmiddle := (Changes.evolves hsteps hnumbered).numbered hnumbered
      exact hlast.wellFormed hmiddle ih

end Machine

namespace Execution

open Machine MachineM CodeTable

variable {config : Config} {execution : Execution} {request : Request} {swept : Machine}

/-- What holds of the table of code and of the frames whenever a request comes. -/
structure Kept (execution : Execution) : Prop where
  numbered : execution.machine.code.Numbered
  linked : execution.machine.code.Linked
  wellFormed : execution.machine.code.All Block.WellFormed
  framed : execution.Framed

theorem Reachable.kept (h : execution.Reachable config) : execution.Kept := by
  obtain ⟨machine, requests, hcreate, rfl⟩ := h
  have hnumbered := numbered_of_create hcreate
  have hlinked := linked_run ⟨machine, []⟩ requests hnumbered (linked_of_create hcreate)
  have hempty : machine.code.All Block.WellFormed := by
    rw [create_eq_ok hcreate]
    exact fun _ hmem => nomatch hmem
  have hwellFormed := run_preserves (fun machine => machine.code.All Block.WellFormed)
    (fun hnumbered hchange => hchange.wellFormed hnumbered) (fun _ _ hall => hall)
    ⟨machine, []⟩ requests hnumbered hempty
  exact ⟨hlinked.1, hlinked.2, hwellFormed.2, (framed_of_create hcreate).run requests⟩

theorem Kept.ne_host {id : CodeId} {block : Block} (h : execution.Kept)
    (hswept : request.swept? execution.machine = some swept)
    (hblock : swept.code.get? id = some block) : id ≠ CodeId.host := by
  obtain ⟨hchanges, _⟩ := step_swept h.numbered hswept
  have hwellFormed := hchanges.wellFormed h.numbered h.wellFormed block (mem_of_get? hblock)
  exact id_of_get? hblock ▸ hwellFormed.numbered

/-- A block that is there counts as running when a collection finishes exactly if it has an active
frame. -/
theorem Kept.running_iff {id : CodeId} {block : Block} (h : execution.Kept)
    (hswept : request.swept? execution.machine = some swept)
    (hblock : swept.code.get? id = some block) : swept.running.contains id = true ↔
      ∃ activation ∈ execution.active, activation.frame.block = id := by
  obtain ⟨cells, hframes⟩ := Request.swept?_frames hswept
  rw [(Prod.mk.inj hframes).1, h.framed.running.contains_iff, mem_runningBlocks,
    and_iff_right (h.ne_host hswept hblock)]

theorem exec_safepoint_of_swept {machine after : Machine} {report : CollectionReport}
    (h : machine.sweptAtSafepoint? = some swept)
    (hcollect : collect.exec swept = (.ok report, after)) :
    safepoint.exec machine = (.ok ⟨⟩, after) := by
  obtain ⟨⟨hmarking, hdone⟩, rfl⟩ := sweptAtSafepoint?_eq_some_iff.mp h
  rw [exec_safepoint, if_pos hmarking, if_pos hdone, exec_discard, hcollect]
  rfl

/-- An order that finishes a collection ends with it. -/
theorem step_of_swept {order : Order} {after : Machine} {report : CollectionReport}
    (h : (Request.order order).swept? execution.machine = some swept)
    (hcollect : collect.exec swept = (.ok report, after)) :
    ∃ answer, execution.step (.order order)
      = (.answered (.ok answer), { execution with machine := after }) := by
  cases order with
  | collect =>
      obtain rfl := Option.some.inj h
      refine ⟨.collected report, ?_⟩
      rw [step, Order.run, exec_map, hcollect]
      rfl
  | safepoint =>
      refine ⟨.nothing, ?_⟩
      rw [step, Order.run, exec_map, exec_safepoint_of_swept h hcollect]
      rfl
  | _ => cases h

/-- In every state that a new machine can get into, a collection that finishes succeeds. The order
that made it finish is answered, and a call that made it finish goes on. After the collection the
links pass their check, the code that is left is the code of the executables that are left, as far
as it is current or has an active frame, and every block lists once each site that goes to it. -/
theorem collection_restores_consistency (hreachable : execution.Reachable config)
    (request : Request) (hswept : request.swept? execution.machine = some swept) :
    ∃ after, collect.exec swept = (.ok swept.sweepHeap.1, after) ∧
      (∀ order, request = .order order → ∃ answer, execution.step request
        = (.answered (.ok answer), { execution with machine := after })) ∧
      (∀ call, request = .siteCall call → ∃ prepared,
        execution.machine.arrive? call = some prepared ∧
          safepoint.exec prepared = (.ok ⟨⟩, after)) ∧
      after.verifyLinks = .ok () ∧
      (∀ id, after.code.contains id = true ↔
        ∃ block executable, swept.code.get? id = some block ∧
          after.heap.executable? block.owner = some executable ∧
          (executable.code block.kind = some id ∨
            ∃ activation ∈ execution.active, activation.frame.block = id)) ∧
      ∀ id block, after.code.get? id = some block → block.incoming.Nodup ∧
        ∀ site, site ∈ block.incoming ↔
          ∃ link, after.code.link? site = some link ∧ link.targets id = true := by
  have hkept := hreachable.kept
  obtain ⟨hchanges, _⟩ := step_swept hkept.numbered hswept
  obtain ⟨hnumbered, hlinked⟩ := hchanges.linked hkept.numbered hkept.linked
  have hwellFormed := hchanges.wellFormed hkept.numbered hkept.wellFormed
  obtain ⟨after, hrun, hcollected⟩ := exec_collect hnumbered hlinked
  refine ⟨after, hrun, ?_, ?_, hcollected.verified, fun id => ?_, fun id block hblock => ⟨?_, ?_⟩⟩
  · rintro order rfl
    exact step_of_swept hswept hrun
  · rintro call rfl
    obtain ⟨prepared, hprepared, hsafepoint⟩ := Option.bind_eq_some_iff.mp hswept
    exact ⟨prepared, hprepared, exec_safepoint_of_swept hsafepoint hrun⟩
  · rw [hcollected.contains_iff]
    refine exists₂_congr fun block executable => and_congr_right fun hblock => ?_
    rw [hkept.running_iff hswept hblock]
  · have hafter : Changes anyWork swept (collect.exec swept).2 :=
      (collect_delivers trivial).changes
    rw [hrun] at hafter
    exact (hafter.wellFormed hnumbered hwellFormed block (mem_of_get? hblock)).distinct
  · exact hcollected.incoming hblock

/-- A closure calls itself, and its code is replaced while both calls run. -/
def replacedWhileRunning : List Request :=
  [.order (.allocateExecutable { name := "f", entry := ⟨0⟩, sites := [⟨.call, 0⟩] }),
   .order (.createClosure ⟨0, 0⟩ {} []),
   .hostCall (.cell ⟨1, 0⟩) .undefined [] .call,
   .siteCall ⟨⟨⟨1⟩, 0⟩, .cell ⟨1, 0⟩, .undefined, [], false⟩,
   .order (.replace ⟨1⟩ ⟨1⟩ .optimized)]

/-- The replaced code is kept by a collection, as it still runs. Its site goes to the new code. -/
theorem consistency_while_replaced_code_runs :
    ∃ (execution : Execution) (after : Machine) (block : Block), execution.Reachable {} ∧
      (Request.order .collect).swept? execution.machine = some execution.machine ∧
      collect.exec execution.machine = (.ok execution.machine.sweepHeap.1, after) ∧
      after.verifyLinks = .ok () ∧ after.code.contains ⟨1⟩ = true ∧
      after.currentCode? ⟨0, 0⟩ .call = some ⟨2⟩ ∧ after.code.get? ⟨2⟩ = some block ∧
      ⟨⟨1⟩, 0⟩ ∈ block.incoming := by
  have hreachable : Execution.Reachable {} ((Execution.mk
      { config := {}, heap := { settings := ({} : Config).heapSettings } } []).run
        replacedWhileRunning) :=
    ⟨_, replacedWhileRunning, rfl, rfl⟩
  generalize hexecution : (Execution.mk _ []).run replacedWhileRunning = execution at hreachable
  obtain ⟨after, hrun, _, _, hverified, hcode, hincoming⟩ :=
    collection_restores_consistency hreachable (.order .collect) rfl
  have hafter : after = (collect.exec execution.machine).2 := by rw [hrun]
  have hcompiled : (execution.machine.code.get? ⟨1⟩).any
      (fun block => block.owner == ⟨0, 0⟩) = true := by
    rw [← hexecution]
    decide +kernel
  have hactive : (execution.active.any fun activation => activation.frame.block == ⟨1⟩) = true := by
    rw [← hexecution]
    decide +kernel
  have hcurrent : (after.heap.executable? ⟨0, 0⟩).any
      (fun executable => executable.code .call == some ⟨2⟩) = true := by
    rw [hafter, ← hexecution]
    decide +kernel
  have hlinked : (after.code.link? ⟨⟨1⟩, 0⟩).any (fun link => link.targets ⟨2⟩) = true := by
    rw [hafter, ← hexecution]
    decide +kernel
  have hreplaced : (after.code.get? ⟨2⟩).isSome = true := by
    rw [hafter, ← hexecution]
    decide +kernel
  simp only [Option.any_eq_true, beq_iff_eq, List.any_eq_true] at hcompiled hactive hcurrent hlinked
  obtain ⟨old, hold, howner⟩ := hcompiled
  obtain ⟨executable, hexecutable, hcall⟩ := hcurrent
  obtain ⟨block, hblock⟩ := Option.isSome_iff_exists.mp hreplaced
  refine ⟨execution, after, block, hreachable, rfl, hrun, hverified, ?_, ?_, hblock, ?_⟩
  · exact (hcode ⟨1⟩).mpr ⟨old, executable, hold, howner ▸ hexecutable, .inr hactive⟩
  · rw [currentCode?, hexecutable]
    exact hcall
  · exact ((hincoming ⟨2⟩ block hblock).2 _).mpr hlinked

end Execution

end InlineCache
