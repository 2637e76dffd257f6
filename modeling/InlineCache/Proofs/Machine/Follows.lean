import InlineCache.Proofs.Machine.Operations

/-!
# Relations that operations follow

For many facts about an operation it is enough to know how the machine after it relates to the
machine before, whether the operation answers or fails. If every machine is related to itself, and
what is related in two steps is related, then the fact is shown for the parts of an operation. How
the operations are put together is said here once, for all such relations.
-/

namespace InlineCache.MachineM

open Machine

variable {α β : Type} {relation : Machine → Machine → Prop}

/-- The operation takes every machine to one that is related to it. -/
def Follows (relation : Machine → Machine → Prop) (operation : MachineM α) : Prop :=
  ∀ machine, relation machine (operation.exec machine).2

theorem Follows.map {operation : MachineM α} (change : α → β) (h : Follows relation operation) :
    Follows relation (change <$> operation) := by
  intro machine
  rw [exec_map]
  exact h machine

/-- Every machine is related to itself, and what is related in two steps is related. -/
structure Chains (relation : Machine → Machine → Prop) : Prop where
  refl : ∀ machine, relation machine machine
  trans : ∀ {first second third},
    relation first second → relation second third → relation first third

namespace Chains

variable (hchains : Chains relation)

include hchains

/-- An operation that leaves the machine as it is. -/
theorem of_same {operation : MachineM α} (h : ∀ machine, (operation.exec machine).2 = machine) :
    Follows relation operation := by
  intro machine
  rw [h machine]
  exact hchains.refl machine

theorem pure (value : α) : Follows relation (pure value : MachineM α) :=
  hchains.of_same fun _ => rfl

theorem throw (error : MachineError) : Follows relation (throw error : MachineM α) :=
  hchains.of_same fun _ => rfl

theorem look (view : Machine → Except MachineError α) : Follows relation (MachineM.look view) :=
  hchains.of_same fun _ => rfl

theorem bind {operation : MachineM α} {next : α → MachineM β} (h : Follows relation operation)
    (hnext : ∀ value, Follows relation (next value)) : Follows relation (operation >>= next) := by
  intro machine
  have hfirst := h machine
  rw [exec_bind]
  rcases hrun : operation.exec machine with ⟨error | value, after⟩ <;> rw [hrun] at hfirst
  · exact hfirst
  · exact hchains.trans hfirst (hnext value after)

theorem bind_get {next : Machine → MachineM β}
    (hnext : ∀ machine, Follows relation (next machine)) : Follows relation (get >>= next) :=
  hchains.bind hchains.refl hnext

theorem compileFunction
    (hensure : ∀ owner realm kind, Follows relation (ensureCode owner realm kind))
    (function : Cell) (kind : Specialization) :
    Follows relation (compileFunction function kind) := by
  refine hchains.bind_get fun machine => ?_
  rcases machine.heap.closure? function with _ | closure
  · exact hchains.throw _
  · exact hensure _ _ _

theorem forM_jettisonCode (hjettison : ∀ id, Follows relation (jettisonCode id))
    (codes : List CodeId) : Follows relation (codes.forM jettisonCode) := by
  induction codes with
  | nil => exact hchains.pure _
  | cons id rest ih => exact hchains.bind (hjettison id) fun _ => ih

theorem collect (hsweep : ∀ machine, relation machine machine.sweepHeap.2)
    (hjettison : ∀ id, Follows relation (jettisonCode id))
    (hprune : ∀ (machine : Machine) event, relation machine
      ({ machine with code := machine.code.pruneIncoming.2 }.report event)) :
    Follows relation collect := by
  refine hchains.bind_get fun before => hchains.bind hsweep fun collected => ?_
  refine hchains.bind_get fun swept => ?_
  refine hchains.bind (hchains.forM_jettisonCode hjettison _) fun _ => ?_
  refine hchains.bind (fun machine => hprune machine _) fun _ => ?_
  exact hchains.bind (hchains.look _) fun _ => hchains.pure _

theorem safepoint (hcollect : Follows relation MachineM.collect)
    (hmarked : ∀ machine, relation machine machine.marked)
    (hstart : ∀ machine, relation machine machine.startMarking) :
    Follows relation safepoint := by
  intro machine
  rw [exec_safepoint]
  split
  · split
    · rw [exec_discard]
      exact hchains.trans (hmarked machine) (hcollect machine.marked)
    · exact hmarked machine
  · split
    · exact hstart machine
    · exact hchains.refl machine

theorem resolve (hrefused : ∀ machine, relation machine machine.countTypeError)
    (hensure : ∀ owner realm kind, Follows relation (ensureCode owner realm kind))
    (callee : Cell) (kind : Specialization) : Follows relation (resolve callee kind) := by
  have hnotCallable : Follows relation (notCallable (.cell callee) kind : MachineM Resolution) :=
    hrefused
  refine hchains.bind_get fun machine => ?_
  rcases machine.heap.get? callee with _ | closure | executable | (_ | handler)
  · exact hchains.throw _
  · refine hchains.bind (hchains.look _) fun executable => ?_
    split
    · exact hnotCallable
    · exact hchains.bind (hensure _ _ _) fun _ =>
        hchains.bind (hchains.look _) fun _ => hchains.pure _
  · exact hnotCallable
  · exact hnotCallable
  · exact hchains.pure _

end Chains

end InlineCache.MachineM
