import InlineCache.Machine.Call

/-!
# Running operations

How the operations of the machine run, one construct at a time: an operation either answers or
fails, and what follows it runs only in the first case, from the machine that it left.
-/

namespace InlineCache

/-- Where a call goes once its callee is resolved. -/
def Resolution.destination : Resolution → Destination
  | .function resolved _ => .code resolved.target
  | .handler entry => .handler entry

namespace MachineM

variable {α β : Type} (machine : Machine)

@[simp] theorem exec_pure (value : α) :
    (pure value : MachineM α).exec machine = (.ok value, machine) := rfl

@[simp] theorem exec_throw (error : MachineError) :
    (throw error : MachineM α).exec machine = (.error error, machine) := rfl

@[simp] theorem exec_get : (get : MachineM Machine).exec machine = (.ok machine, machine) := rfl

@[simp] theorem exec_set (after : Machine) :
    (set after : MachineM PUnit).exec machine = (.ok ⟨⟩, after) := rfl

@[simp] theorem exec_modify (change : Machine → Machine) :
    (modify change : MachineM PUnit).exec machine = (.ok ⟨⟩, change machine) := rfl

@[simp] theorem exec_modifyGet (change : Machine → α × Machine) :
    (modifyGet change : MachineM α).exec machine =
      (.ok (change machine).1, (change machine).2) := rfl

@[simp] theorem exec_look (view : Machine → Except MachineError α) :
    (look view).exec machine = (view machine, machine) := rfl

@[simp] theorem exec_notCallable (value : Value) (kind : Specialization) :
    (notCallable value kind : MachineM α).exec machine =
      (.error (.notCallable (machine.describe value) kind), machine.countTypeError) := rfl

theorem exec_bind (operation : MachineM α) (next : α → MachineM β) :
    (operation >>= next).exec machine =
      match operation.exec machine with
      | (.ok value, after) => (next value).exec after
      | (.error error, after) => (.error error, after) := by
  unfold exec
  simp only [ExceptT.run_bind, StateT.run_bind]
  generalize StateT.run (ExceptT.run operation) machine = outcome
  rcases outcome with ⟨_ | _, _⟩ <;> rfl

/-- An operation that answers is made of operations that answer. -/
theorem exec_bind_ok {operation : MachineM α} {next : α → MachineM β} {machine after : Machine}
    {value : β} (h : (operation >>= next).exec machine = (.ok value, after)) :
    ∃ found between, operation.exec machine = (.ok found, between) ∧
      (next found).exec between = (.ok value, after) := by
  rw [exec_bind] at h
  rcases hrun : operation.exec machine with ⟨error | found, between⟩ <;> rw [hrun] at h
  · cases h
  · exact ⟨found, between, rfl, h⟩

theorem exec_bind_look_ok {view : Machine → Except MachineError α} {next : α → MachineM β}
    {machine after : Machine} {value : β}
    (h : (look view >>= next).exec machine = (.ok value, after)) :
    ∃ found, view machine = .ok found ∧ (next found).exec machine = (.ok value, after) := by
  obtain ⟨found, between, hlook, hnext⟩ := exec_bind_ok h
  obtain ⟨hfound, rfl⟩ := Prod.mk.inj hlook
  exact ⟨found, hfound, hnext⟩

/-- One operation for each element of a list, in turn. -/
theorem exec_mapM_cons {operation : α → MachineM β} {first : α} {rest : List α} {value : β}
    {values : List β} {machine between after : Machine}
    (hfirst : (operation first).exec machine = (.ok value, between))
    (hrest : (rest.mapM operation).exec between = (.ok values, after)) :
    ((first :: rest).mapM operation).exec machine = (.ok (value :: values), after) := by
  rw [List.mapM_cons, exec_bind, hfirst]
  dsimp only
  rw [exec_bind, hrest]
  rfl

theorem exec_map (change : α → β) (operation : MachineM α) :
    (change <$> operation).exec machine =
      ((operation.exec machine).1.map change, (operation.exec machine).2) := by
  rw [map_eq_pure_bind, exec_bind]
  rcases operation.exec machine with ⟨_ | _, _⟩ <;> rfl

theorem exec_discard (operation : MachineM α) :
    (discard operation).exec machine =
      ((operation.exec machine).1.map fun _ => PUnit.unit, (operation.exec machine).2) :=
  exec_map machine _ operation

theorem exec_tryCatch (operation : MachineM α) (handle : MachineError → MachineM α) :
    (tryCatch operation handle).exec machine =
      match operation.exec machine with
      | (.ok value, after) => (.ok value, after)
      | (.error error, after) => (handle error).exec after := by
  have hrun : (tryCatch operation handle).exec machine =
      StateT.run (ExceptT.run operation >>= fun
        | .ok value => pure (.ok value)
        | .error error => ExceptT.run (handle error)) machine := by
    unfold exec
    congr 1
    show ExceptT.run (ExceptT.tryCatch operation handle) = _
    unfold ExceptT.tryCatch
    rw [ExceptT.run_mk]
    refine bind_congr fun result => ?_
    rcases result with _ | _ <;> rfl
  rw [hrun, StateT.run_bind]
  unfold exec
  generalize StateT.run (ExceptT.run operation) machine = outcome
  rcases outcome with ⟨_ | _, _⟩ <;> rfl

/-! ### Calls that have nothing to prepare -/

theorem lift_eq (operation : MachineM α) : (liftM operation : MachineM α) = operation := rfl

theorem selectGeneric_eq (call : Call) :
    selectGeneric call = Resolution.destination <$> resolve call.callee call.kind := by
  rw [selectGeneric, CallPath.generic, map_eq_pure_bind]
  refine bind_congr fun resolution => ?_
  rcases resolution with _ | _ <;> rfl

theorem selectSlow_eq (site : SiteRef) (call : Call) :
    selectSlow site call = (do
      modify fun machine => { machine with stats :=
        { machine.stats with slowPathCalls := tick64 machine.stats.slowPathCalls } }
      let link ← MachineM.link site
      modify fun machine => machine.editLink site { link := link.recordSlowPath call.callee }
      let resolution ← resolve call.callee call.kind
      match resolution with
      | .handler _ => virtualize site
      | .function resolved realm => linkFunction site resolved realm
      pure resolution.destination) := by
  rw [selectSlow, CallPath.slow]
  simp only [lift_eq, noteSlowCall, bind_assoc]
  refine bind_congr fun _ => bind_congr fun link => bind_congr fun _ => bind_congr fun found => ?_
  rcases found with _ | _ <;> rfl

theorem selectFast_eq (target : CodePointer) :
    selectFast target = (do
      modify fun machine => { machine with stats :=
        { machine.stats with fastPathHits := tick64 machine.stats.fastPathHits } }
      pure (.code target)) := rfl

end MachineM

end InlineCache
