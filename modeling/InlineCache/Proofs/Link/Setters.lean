import InlineCache.Proofs.Link.Actions

/-!
# Making a link

Three operations make a link, each under its own conditions on the mode of the record, the kind of
its site and the permission to use stubs. An operation whose conditions are not met changes nothing
and asks for no write barrier. One whose conditions are met leaves the record in the state that was
asked for, with one write barrier for each cell of that state, in the order in which the record
reports its cells.

The linker reads the same conditions off the record before it chooses an operation. It chooses one
whose conditions are met, so linking a call never fails, and its barriers are those of the link that
it leaves behind.
-/

namespace InlineCache

namespace Link

/-- The operations that make a link. -/
inductive Setter where
  | monomorphic (callee : Cell) (target : CodePointer)
  | polymorphic (stub : Stub)
  | direct (executable : Cell) (target : CodePointer)
deriving DecidableEq, Repr

namespace Setter

def action (owner : Cell) : Setter → Action
  | .monomorphic callee target => .setMonomorphic owner callee target
  | .polymorphic stub => .setStub owner stub
  | .direct executable target => .setDirect owner executable target

/-- The state that is asked for. -/
def state : Setter → LinkState
  | .monomorphic callee target => .monomorphic (.ofCell callee) target
  | .polymorphic stub => .polymorphic stub
  | .direct executable target => .direct (.ofCell executable) target

/-- The conditions under which the link can be made. -/
def Suits (link : Link) : Setter → Prop
  | .monomorphic _ _ => link.mode = .init ∧ link.isDirect = false
  | .polymorphic _ =>
    (link.mode = .monomorphic ∨ link.mode = .polymorphic) ∧ link.stubsAllowed = true
  | .direct _ _ => link.mode = .init ∧ link.isDirect = true

end Setter

/-- The write barriers that an action asks for. -/
def barriers (link : Link) (action : Action) : List (Cell × Cell) :=
  match link.edit action with
  | .ok edit => edit.effects.filterMap Effect.barrier?
  | .error _ => []

variable {link : Link} {owner : Cell} {setter : Setter} {edit : Edit}

theorem barriers_of_ok {action : Action} (h : link.edit action = .ok edit) :
    link.barriers action = edit.effects.filterMap Effect.barrier? := by
  rw [barriers, h]

theorem act_of_ok {action : Action} (h : link.edit action = .ok edit) :
    link.act action = edit.link := by
  rw [act, h]

theorem act_of_error {action : Action} {error : LinkError} (h : link.edit action = .error error) :
    link.act action = link := by
  rw [act, h]

theorem transition_barriers (link : Link) (state : LinkState) (target : Target) :
    (link.transition state target).effects.filterMap Effect.barrier? = [] := rfl

theorem filterMap_barrier? (owner : Cell) (cells : List Cell) :
    (cells.map (Effect.barrier owner)).filterMap Effect.barrier? = cells.map (owner, ·) := by
  rw [List.filterMap_map]
  exact congrFun List.filterMap_eq_map cells

theorem Setter.Suits.edit_eq (h : setter.Suits link) (owner : Cell) :
    ∃ edit, link.edit (setter.action owner) = .ok edit ∧ edit.link.state = setter.state ∧
      edit.link.site = link.site.repatch setter.state.slot ∧
      edit.link.lastCallee = link.lastCallee ∧
      edit.effects.filterMap Effect.barrier? = setter.state.dependents.map (owner, ·) := by
  cases setter with
  | monomorphic callee target =>
      obtain ⟨hmode, hdirect⟩ := h
      rw [action, edit, setMonomorphic, if_neg (by simp [hmode, hdirect])]
      refine ⟨_, rfl, rfl, rfl, rfl, ?_⟩
      rw [List.filterMap_append, transition_barriers]
      rfl
  | polymorphic stub =>
      obtain ⟨hmode, hallowed⟩ := h
      have hlinked : ¬ (link.mode ≠ .monomorphic ∧ link.mode ≠ .polymorphic) := by
        rcases hmode with hmode | hmode <;> simp [hmode]
      rw [action, edit, setStub, if_neg hlinked, if_neg (by simp [hallowed])]
      refine ⟨_, rfl, rfl, rfl, rfl, ?_⟩
      rw [List.filterMap_append, filterMap_barrier?, transition_barriers, List.append_nil]
      rfl
  | direct executable target =>
      obtain ⟨hmode, hdirect⟩ := h
      rw [action, edit, setDirect, if_neg (by simp [hmode, hdirect])]
      refine ⟨_, rfl, rfl, rfl, rfl, ?_⟩
      rw [List.filterMap_append, transition_barriers]
      rfl

/-- A link that cannot be made is refused, in the mode of the record. -/
theorem Setter.edit_eq_error (h : ¬ setter.Suits link) (owner : Cell) :
    ∃ operation, link.edit (setter.action owner) = .error ⟨operation, link.mode⟩ := by
  cases setter with
  | monomorphic callee target =>
      rw [Suits, not_and_or, Bool.not_eq_false] at h
      rw [action, edit, setMonomorphic, if_pos h]
      exact ⟨_, rfl⟩
  | polymorphic stub =>
      rw [Suits, not_and_or, not_or] at h
      rw [action, edit, setStub]
      by_cases hmode : link.mode ≠ .monomorphic ∧ link.mode ≠ .polymorphic
      · rw [if_pos hmode]
        exact ⟨_, rfl⟩
      · have hbarred : (!link.stubsAllowed) = true := by
          simpa using h.resolve_left hmode
        rw [if_neg hmode, if_pos hbarred]
        exact ⟨_, rfl⟩
  | direct executable target =>
      rw [Suits, not_and_or, or_comm, Bool.not_eq_true, ← Bool.not_eq_true'] at h
      rw [action, edit, setDirect, if_pos h]
      exact ⟨_, rfl⟩

end Link

namespace Linker

open Link

variable (linker : Linker) (heap : Heap Entity) (owner : Cell) (capacity : Nat) (callee : Resolved)

/-- The write barriers asked for so far. -/
def barriers (linker : Linker) : List (Cell × Cell) :=
  linker.effects.filterMap Effect.barrier?

theorem barriers_report (event : Event) : (linker.report event).barriers = linker.barriers := by
  rw [barriers, report, List.filterMap_append]
  exact List.append_nil _

theorem barriers_apply (edit : Edit) :
    (linker.apply edit).barriers
      = linker.barriers ++ edit.effects.filterMap Effect.barrier? :=
  List.filterMap_append

/-- Linking left the record alone and asked for no barriers. -/
def Spares (before after : Linker) : Prop :=
  after.link = before.link ∧ after.barriers = before.barriers

/-- Linking asked for the barriers of the link that it left behind. -/
def Guards (owner : Cell) (before after : Linker) : Prop :=
  after.barriers = before.barriers ++ after.link.state.dependents.map (owner, ·)

theorem goVirtual_guards (reason : VirtualReason) :
    Guards owner linker (linker.goVirtual reason) := by
  rw [Guards, goVirtual]
  split
  · rename_i hmode
    have hstate : linker.link.state = .virtual := by
      rw [mode] at hmode
      rcases hstate : linker.link.state with _ | _ | _ | _ | _ <;>
        simp only [hstate, LinkState.mode, reduceCtorEq] at hmode
      rfl
    rw [hstate]
    exact (List.append_nil _).symm
  · rename_i hmode
    show ((linker.report _).apply _).barriers = _
    rw [barriers_apply, barriers_report]
    simp only [setVirtual, if_neg hmode]
    rfl

theorem Guards.of_suits {setter : Setter} (h : setter.Suits linker.link) :
    ∃ edit, linker.link.edit (setter.action owner) = .ok edit ∧
      Guards owner linker (linker.apply edit) := by
  obtain ⟨edit, hedit, hstate, _, _, hbarriers⟩ := h.edit_eq owner
  refine ⟨edit, hedit, ?_⟩
  rw [Guards, barriers_apply, hbarriers]
  exact congrArg (fun state : LinkState => linker.barriers ++ state.dependents.map (owner, ·))
    hstate.symm

/-- Growing a stub for a site that has no link is refused, and then the record is left alone. -/
theorem linkPolymorphic_cases :
    let linking := linker.linkPolymorphic heap owner capacity callee
    (∃ outcome, linking.1 = .ok outcome ∧ outcome ≠ .unchanged ∧ Guards owner linker linking.2) ∨
      (∃ error, linking.1 = .error error) ∧ Spares linker linking.2 := by
  rw [linkPolymorphic]
  split
  · exact .inl ⟨_, rfl, by simp, goVirtual_guards linker owner _⟩
  · dsimp only
    rcases Stub.grow linker.lastStub.next (existingCases heap linker.link)
      (.function callee.callee callee.executable) callee.target capacity with ⟨stub, widened⟩ | _
    · dsimp only
      generalize hbuilt : ({ linker with lastStub := _, stats := _ } : Linker).report _ = built
      have hlink : built.link = linker.link := by rw [← hbuilt]; rfl
      have hbarriers : built.barriers = linker.barriers := by
        rw [← hbuilt, barriers_report]
        rfl
      by_cases hsuits : (Setter.polymorphic stub).Suits built.link
      · obtain ⟨edit, hedit, hguards⟩ := Guards.of_suits built owner hsuits
        rw [Guards, hbarriers] at hguards
        rw [← hlink, show built.link.setStub owner stub = .ok edit from hedit]
        exact .inl ⟨_, rfl, by simp, hguards⟩
      · obtain ⟨operation, hrefused⟩ := Setter.edit_eq_error hsuits owner
        rw [← hlink, show built.link.setStub owner stub = .error _ from hrefused]
        exact .inr ⟨⟨_, rfl⟩, hlink, hbarriers⟩
    · exact .inl ⟨_, rfl, by simp, goVirtual_guards { linker with lastStub := _ } owner _⟩

theorem linkDirect_cases (hdirect : linker.link.isDirect = true) :
    let linking := linker.linkDirect owner callee
    linking.1 = .ok .unchanged ∧ Spares linker linking.2 ∨
      ∃ outcome, linking.1 = .ok outcome ∧ outcome ≠ .unchanged ∧
        Guards owner linker linking.2 := by
  rw [linkDirect]
  split
  · exact .inl ⟨rfl, rfl, rfl⟩
  · rename_i hmode
    have hsuits : (Setter.direct callee.executable callee.target).Suits linker.link :=
      ⟨not_not.mp hmode, hdirect⟩
    obtain ⟨edit, hedit, hguards⟩ := Guards.of_suits linker owner hsuits
    rw [show linker.link.setDirect owner callee.executable callee.target = .ok edit from hedit]
    exact .inr ⟨_, rfl, by simp, hguards⟩

/-- Linking a call succeeds. It leaves the record alone, or asks for the barriers of the new
link. -/
theorem linkCall_cases :
    let linking := linker.linkCall heap owner capacity callee
    linking.1 = .ok .unchanged ∧ Spares linker linking.2 ∨
      ∃ outcome, linking.1 = .ok outcome ∧ outcome ≠ .unchanged ∧
        Guards owner linker linking.2 := by
  have hstub : linker.link.mode = .monomorphic ∨ linker.link.mode = .polymorphic →
      ∃ outcome, (linker.linkPolymorphic heap owner capacity callee).1 = .ok outcome ∧
        outcome ≠ .unchanged ∧
        Guards owner linker (linker.linkPolymorphic heap owner capacity callee).2 := by
    intro hmode
    obtain ⟨outcome, hok, _⟩ := linkPolymorphic_installs linker heap owner capacity callee hmode
    rcases linkPolymorphic_cases linker heap owner capacity callee with hmade | ⟨⟨_, hrefused⟩, _⟩
    · exact hmade
    · rw [hok] at hrefused
      cases hrefused
  rw [linkCall]
  split
  · rename_i hdirect
    exact linkDirect_cases linker owner callee hdirect
  · rename_i hdirect
    rcases hmode : linker.link.mode with _ | _ | _ | _ | _ <;> dsimp only
    · have hsuits : (Setter.monomorphic callee.callee callee.target).Suits linker.link :=
        ⟨hmode, Bool.eq_false_iff.mpr hdirect⟩
      obtain ⟨edit, hedit, hguards⟩ := Guards.of_suits linker owner hsuits
      rw [show linker.link.setMonomorphic owner callee.callee callee.target = .ok edit from hedit]
      exact .inr ⟨_, rfl, by simp, hguards⟩
    · exact .inr (hstub (.inl hmode))
    · exact .inr (hstub (.inr hmode))
    · exact .inl ⟨rfl, rfl, rfl⟩
    · exact .inl ⟨rfl, rfl, rfl⟩

end Linker

namespace Link

/-- A link is made whole or not at all. If the record does not meet the conditions, the operation
fails, the record is as before and no write barrier is issued. If it does, the record holds the
state and the slot that were asked for, and the barriers issued are those for the cells that the
record then reports, in their order, up to the last callee. Linking a call never fails, whatever
the record, its surroundings and the callee are. It leaves the record alone without a barrier, or
issues those of the state that it leaves; and if growing a stub is refused, the record is as
before. -/
theorem setting_atomic_and_guarded (link : Link) :
    (∀ (owner : Cell) (setter : Setter),
      let after := link.act (setter.action owner)
      let issued := link.barriers (setter.action owner)
      (¬ setter.Suits link →
        (∃ operation, link.edit (setter.action owner) = .error ⟨operation, link.mode⟩) ∧
          after = link ∧ issued = []) ∧
      (setter.Suits link →
        (∃ edit, link.edit (setter.action owner) = .ok edit) ∧
          after.state = setter.state ∧ after.site.target = setter.state.slot ∧
          issued = after.state.dependents.map (owner, ·) ∧
          after.dependents.map (owner, ·)
            = issued ++ link.lastCallee.target.toList.map (owner, ·))) ∧
    ∀ (stats : Stats) (lastStub : StubId) (effects : List Effect) (heap : Heap Entity)
      (owner : Cell) (capacity : Nat) (callee : Resolved),
      let linker : Linker := ⟨link, stats, lastStub, effects⟩
      (∃ outcome after, linker.linkCall heap owner capacity callee = (.ok outcome, after) ∧
        if outcome = .unchanged then after.link = link ∧ after.barriers = linker.barriers
        else after.barriers
          = linker.barriers ++ after.link.state.dependents.map (owner, ·)) ∧
      ∀ error after, linker.linkPolymorphic heap owner capacity callee = (.error error, after) →
        after.link = link ∧ after.barriers = linker.barriers := by
  refine ⟨fun owner setter => ⟨fun hunsuited => ?_, fun hsuits => ?_⟩,
    fun stats lastStub effects heap owner capacity callee => ⟨?_, ?_⟩⟩
  · obtain ⟨operation, hrefused⟩ := Setter.edit_eq_error hunsuited owner
    exact ⟨⟨operation, hrefused⟩, act_of_error hrefused, by rw [barriers, hrefused]⟩
  · obtain ⟨edit, hedit, hstate, hsite, hlast, hbarriers⟩ := hsuits.edit_eq owner
    rw [act_of_ok hedit, barriers_of_ok hedit, hbarriers, hstate, hsite]
    refine ⟨⟨edit, hedit⟩, rfl, rfl, rfl, ?_⟩
    rw [dependents, hstate, hlast, List.map_append]
  · rcases Linker.linkCall_cases ⟨link, stats, lastStub, effects⟩ heap owner capacity callee with
      ⟨hok, hspares⟩ | ⟨outcome, hok, hchanged, hguards⟩
    · exact ⟨.unchanged, _, Prod.ext hok rfl, by rw [if_pos rfl]; exact hspares⟩
    · exact ⟨outcome, _, Prod.ext hok rfl, by rw [if_neg hchanged]; exact hguards⟩
  · intro error after hrefused
    rcases Linker.linkPolymorphic_cases ⟨link, stats, lastStub, effects⟩ heap owner capacity callee
      with ⟨outcome, hok, _⟩ | ⟨_, hspares⟩
    · rw [hrefused] at hok
      cases hok
    · rw [hrefused] at hspares
      exact hspares

end Link

end InlineCache
