import InlineCache.Proofs.Consistency
import InlineCache.Proofs.Script.Reach

/-!
# Calls give back what they take

A call pushes cells on the stack of roots in two places and is counted in a third, and it can end at
any of them: without an entry, with the error of its entry, or with a value. However it ends, and
whatever its entry has done to the machine in between, the stack of roots and the counts of the
running frames are as they were before it.

The argument goes by what is still owed. Leaving the activations that were made since, one after the
other, leads back to what was held in the beginning. Every request keeps this true as long as none
of the outer calls returns, and when no activation is left to leave, nothing is owed.
-/

namespace InlineCache

/-! ### Entering and leaving a block -/

namespace RunningFrames

variable {running : RunningFrames} {blocks : List CodeId} {code id : CodeId}

theorem leave_of_lookup_eq_none (h : running.counts.lookup code = none) :
    running.leave code = running := by
  suffices hsame : leave.go code running.counts = running.counts by rw [leave, hsame]
  generalize running.counts = counts at h
  induction counts with
  | nil => rfl
  | cons pair rest ih =>
      obtain ⟨key, frames⟩ := pair
      by_cases hkey : code = key
      · rw [hkey, List.lookup_cons_self] at h
        cases h
      · rw [lookup_cons_of_ne frames rest hkey] at h
        rw [leave.go, if_neg (Ne.symm hkey), ih h]

/-- A block that is entered and left is counted as before, unless it was listed without a frame. -/
theorem leave_enter (h : running.counts.lookup code ≠ some 0) :
    (running.enter code).leave code = running := by
  suffices hsame : leave.go code (enter.go code running.counts) = running.counts by
    rw [enter, leave, hsame]
  generalize running.counts = counts at h
  induction counts with
  | nil => simp [enter.go, leave.go]
  | cons pair rest ih =>
      obtain ⟨key, frames⟩ := pair
      by_cases hkey : code = key
      · rw [hkey, List.lookup_cons_self] at h
        have hframes : frames ≠ 0 := fun hzero => h (congrArg some hzero)
        simp [enter.go, leave.go, hkey, hframes]
      · rw [lookup_cons_of_ne frames rest hkey] at h
        rw [enter.go, if_neg (Ne.symm hkey), leave.go, if_neg (Ne.symm hkey), ih h]

theorem Counts.perm (h : running.Counts blocks) {others : List CodeId}
    (hperm : others.Perm blocks) : running.Counts others := by
  refine ⟨h.nodup, fun id => ?_⟩
  rw [h.lookup, hperm.count_eq]
  simp only [hperm.mem_iff]

theorem Counts.count_eq (h : running.Counts blocks) (id : CodeId) :
    running.count id = blocks.count id := by
  rw [count, h.lookup]
  split
  · rfl
  · rename_i hmem
    rw [List.count_eq_zero_of_not_mem hmem]
    rfl

/-- Only blocks that run are counted, and the host has no block. -/
def Proper (running : RunningFrames) : Prop :=
  ∃ blocks, CodeId.host ∉ blocks ∧ running.Counts blocks

namespace Proper

theorem enter (h : running.Proper) (hcode : code ≠ CodeId.host) : (running.enter code).Proper := by
  obtain ⟨blocks, hhost, hcounts⟩ := h
  refine ⟨code :: blocks, ?_, hcounts.enter code⟩
  simp [hhost, Ne.symm hcode]

theorem leave (h : running.Proper) (code : CodeId) : (running.leave code).Proper := by
  obtain ⟨blocks, hhost, hcounts⟩ := h
  by_cases hmem : code ∈ blocks
  · refine ⟨blocks.erase code, fun hleft => hhost (List.mem_of_mem_erase hleft), ?_⟩
    exact (hcounts.perm (List.perm_cons_erase hmem).symm).leave
  · exact ⟨blocks, hhost, hcounts.leave_of_not_mem hmem⟩

theorem leave_enter (h : running.Proper) (code : CodeId) :
    (running.enter code).leave code = running := by
  obtain ⟨blocks, _, hcounts⟩ := h
  apply RunningFrames.leave_enter
  rw [hcounts.lookup]
  split
  · rename_i hmem
    have hpositive := List.count_pos_iff.mpr hmem
    intro hzero
    have := Option.some.inj hzero
    omega
  · simp

theorem leave_host (h : running.Proper) : running.leave CodeId.host = running := by
  obtain ⟨blocks, hhost, hcounts⟩ := h
  apply leave_of_lookup_eq_none
  rw [hcounts.lookup, if_neg hhost]

end Proper

end RunningFrames

/-! ### What the calls in progress owe -/

/-- What is held after an activation has been left. -/
def Activation.release (held : RunningFrames × List Cell) (activation : Activation) :
    RunningFrames × List Cell :=
  (held.1.leave activation.frame.block, held.2.take activation.base)

def Request.isCall : Request → Bool
  | .hostCall _ _ _ _ => true
  | .siteCall _ => true
  | .order _ => false
  | .finish _ => false

namespace Execution

open Machine MachineM

variable {base execution : Execution} {inner : List Activation}

/-- Do the requests lead to the given number of calls in progress without going below it? -/
def returnsTo (depth : Nat) (execution : Execution) : List Request → Bool
  | [] => execution.active.length == depth
  | request :: rest =>
    depth ≤ execution.active.length && (execution.step request).2.returnsTo depth rest

theorem le_of_returnsTo {depth : Nat} {requests : List Request}
    (h : execution.returnsTo depth requests = true) : depth ≤ execution.active.length := by
  cases requests with
  | nil =>
      rw [returnsTo, beq_iff_eq] at h
      exact Nat.le_of_eq h.symm
  | cons request rest =>
      rw [returnsTo, Bool.and_eq_true, decide_eq_true_eq] at h
      exact h.1

theorem returnsTo_zero (execution : Execution) (requests : List Request) :
    execution.returnsTo 0 requests = ((execution.run requests).active.length == 0) := by
  induction requests generalizing execution with
  | nil => rfl
  | cons request rest ih =>
      rw [returnsTo, ih]
      simp [run]

/-- A call enters or leaves what is held as it was, and leaving the activation that it has made
takes back all that it has added. -/
theorem step_isCall_cases {request : Request} (hcall : request.isCall = true)
    (hproper : execution.machine.running.Proper) :
    (∃ error machine,
      execution.step request = (.returned (.error error), { execution with machine }) ∧
      machine.frames = execution.machine.frames) ∨
    ∃ activation machine,
      execution.step request = (.entered activation, ⟨machine, activation :: execution.active⟩) ∧
      activation.release machine.frames = execution.machine.frames ∧ machine.running.Proper := by
  obtain ⟨start, hstep, hstarts⟩ : ∃ start, execution.step request = execution.call start ∧
      Starts execution.machine.frames (start.exec execution.machine) := by
    cases request with
    | order order => cases hcall
    | hostCall callee receiver arguments kind =>
        exact ⟨_, rfl, startHostCall_starts callee receiver arguments kind _⟩
    | siteCall call => exact ⟨_, rfl, startSiteCall_starts call _⟩
    | finish result => cases hcall
  rw [hstep]
  rcases call_frames hstarts with
    hfailed | ⟨activation, machine, cells, hentered, hheight, hframes⟩
  · exact .inl hfailed
  · refine .inr ⟨activation, machine, hentered, ?_, ?_⟩
    · have hstack : (execution.machine.stackRoots ++ (cells ++ activation.frame.cells)).take
          activation.base = execution.machine.stackRoots := by
        rw [hheight]
        exact List.take_left
      rw [hframes, Activation.release, hstack]
      split
      · -- the handler of an object is left as a block is, but was not counted
        rename_i hhost
        rw [hhost, hproper.leave_host]
        rfl
      · rw [hproper.leave_enter]
        rfl
    · rw [show machine.running = _ from congrArg Prod.fst hframes]
      split
      · exact hproper
      · rename_i hblock
        exact hproper.enter hblock

/-- Leaving the inner activations leads back to what was held in the beginning. -/
structure Above (base execution : Execution) (inner : List Activation) : Prop where
  active : execution.active = inner ++ base.active
  released : inner.foldl Activation.release execution.machine.frames = base.machine.frames
  proper : execution.machine.running.Proper

theorem Above.refl (hproper : execution.machine.running.Proper) : execution.Above execution [] :=
  ⟨rfl, rfl, hproper⟩

theorem Above.of_frames (h : base.Above execution inner) {machine : Machine}
    (hframes : machine.frames = execution.machine.frames) :
    base.Above { execution with machine } inner := by
  refine ⟨h.active, ?_, ?_⟩
  · rw [← h.released, ← hframes]
  · rw [show machine.running = _ from congrArg Prod.fst hframes]
    exact h.proper

/-- What finishes is the innermost of the inner activations, since an outer one must not. -/
theorem Above.finish (h : base.Above execution inner) (result : Except MachineError Value)
    (hstays : base.active.length ≤ (execution.step (.finish result)).2.active.length) :
    ∃ left, base.Above (execution.step (.finish result)).2 left := by
  rw [Execution.step] at hstays ⊢
  have hactive := h.active
  rcases hcalls : execution.active with _ | ⟨activation, outer⟩ <;>
    rw [hcalls] at hactive hstays <;> dsimp only at hstays ⊢
  · exact ⟨inner, h⟩
  · have hleft := leave_frames activation result execution.machine
    cases inner with
    | nil =>
        -- the activation is an outer one, and the run would go below where it began
        rw [List.nil_append] at hactive
        rw [← hactive, List.length_cons] at hstays
        omega
    | cons innermost rest =>
        rw [List.cons_append, List.cons.injEq] at hactive
        obtain ⟨rfl, houter⟩ := hactive
        refine ⟨rest, houter, ?_, ?_⟩
        · rw [hleft, ← h.released]
          rfl
        · rw [show Machine.running _ = _ from congrArg Prod.fst hleft]
          exact h.proper.leave _

/-- A request makes an activation, leaves the last one or changes nothing. It must not return from a
call that was in progress in the beginning. -/
theorem Above.step (h : base.Above execution inner) (request : Request)
    (hstays : base.active.length ≤ (execution.step request).2.active.length) :
    ∃ left, base.Above (execution.step request).2 left := by
  by_cases hcall : request.isCall = true
  · rcases step_isCall_cases hcall h.proper with
      ⟨error, machine, hstep, hframes⟩ | ⟨activation, machine, hstep, hreleased, hproper⟩ <;>
      rw [hstep]
    · exact ⟨inner, h.of_frames hframes⟩
    · refine ⟨activation :: inner, ?_, ?_, hproper⟩
      · show activation :: execution.active = _
        rw [h.active, List.cons_append]
      · show inner.foldl Activation.release (activation.release machine.frames) = _
        rw [hreleased, h.released]
  · cases request with
    | order order => exact ⟨inner, h.of_frames ((run_steady order).frames execution.machine)⟩
    | hostCall callee receiver arguments kind => exact absurd rfl hcall
    | siteCall call => exact absurd rfl hcall
    | finish result => exact h.finish result hstays

/-- When a run has come back to where it began, everything is as it was held there. -/
theorem Above.run (h : base.Above execution inner) {requests : List Request}
    (hreturns : execution.returnsTo base.active.length requests = true) :
    (execution.run requests).active = base.active ∧
      (execution.run requests).machine.frames = base.machine.frames := by
  induction requests generalizing execution inner with
  | nil =>
      rw [returnsTo, beq_iff_eq, h.active, List.length_append] at hreturns
      have hinner : inner = [] := List.eq_nil_of_length_eq_zero (by omega)
      subst hinner
      exact ⟨h.active, h.released⟩
  | cons request rest ih =>
      rw [returnsTo, Bool.and_eq_true] at hreturns
      obtain ⟨left, habove⟩ := h.step request (le_of_returnsTo hreturns.2)
      exact ih habove hreturns.2

theorem Framed.proper (h : execution.Framed) : execution.machine.running.Proper := by
  refine ⟨_, ?_, h.running⟩
  rw [mem_runningBlocks]
  exact fun hmem => hmem.1 rfl

theorem count_runningBlocks {active : List Activation} {code : CodeId}
    (hcode : code ≠ CodeId.host) : (runningBlocks active).count code
      = active.countP fun activation => activation.frame.block == code := by
  rw [runningBlocks, List.count_filter (by simpa using hcode), List.count, List.countP_map]
  rfl

/-- A script that drives a machine by requests gives back whatever it takes. -/
theorem frames_of_reaches {before after : Machine} (hproper : before.running.Proper)
    (h : Script.Reaches before after) : after.frames = before.frames := by
  obtain ⟨requests, hrun⟩ := h
  -- with no call in progress around them, the requests cannot go below where they began
  have hreturns : (Execution.mk before []).returnsTo 0 requests = true := by
    rw [returnsTo_zero, hrun]
    rfl
  have habove : Above ⟨before, []⟩ ⟨before, []⟩ [] := .refl hproper
  have hbalanced := habove.run hreturns
  rw [hrun] at hbalanced
  exact hbalanced.2

open Script in
/-- Calls are balanced. A call that does not enter leaves the stack of roots and the counts of the
running frames as they were, and one that has entered, whatever is done inside it and however it
ends, leads back to them. The same holds of every operation of a script, in whose programs calls can
nest. While a call is in progress, its callee, its receiver and its arguments are on the stack, and
its block is counted as often as it has frames. -/
theorem calls_are_balanced {config : Config} (h : execution.Reachable config) :
    (∀ call : Request, call.isCall = true →
      (∀ result, (execution.step call).1 = .returned result →
        (execution.step call).2.active = execution.active ∧
        (execution.step call).2.machine.frames = execution.machine.frames) ∧
      ∀ activation inside result, (execution.step call).1 = .entered activation →
        (execution.step call).2.returnsTo (execution.active.length + 1) inside = true →
        let returned := ((execution.step call).2.run inside).step (.finish result)
        (∃ answer, returned.1 = .returned answer) ∧ returned.2.active = execution.active ∧
          returned.2.machine.frames = execution.machine.frames) ∧
    (∀ (session : Session) (frame : Option Frame) (op : Op) (depth : Nat),
      session.machine = execution.machine →
      ((op.run (runEntry depth) frame).exec session).2.machine.frames = execution.machine.frames) ∧
    ∀ activation ∈ execution.active,
      activation.frame.callee ∈ execution.machine.stackRoots ∧
      (∀ cell, .cell cell ∈ activation.frame.receiver :: activation.frame.arguments →
        cell ∈ execution.machine.stackRoots) ∧
      (activation.frame.block ≠ CodeId.host →
        0 < execution.machine.running.count activation.frame.block ∧
        execution.machine.running.count activation.frame.block =
          execution.active.countP fun other => other.frame.block == activation.frame.block) := by
  have hframed := h.kept.framed
  have hproper := hframed.proper
  refine ⟨fun call hcall => ⟨?_, ?_⟩, ?_, ?_⟩
  · intro result hreply
    rcases step_isCall_cases hcall hproper with
      ⟨error, machine, hstep, hframes⟩ | ⟨activation, machine, hstep, _⟩ <;> rw [hstep] at hreply ⊢
    · exact ⟨rfl, hframes⟩
    · cases hreply
  · intro activation inside result hreply hinside
    rcases step_isCall_cases hcall hproper with
      ⟨error, machine, hstep, hframes⟩ | ⟨made, machine, hstep, hreleased, hentered⟩ <;>
      rw [hstep] at hreply hinside ⊢
    · cases hreply
    · have habove : Above ⟨machine, made :: execution.active⟩ _ [] := .refl hentered
      have hbalanced := habove.run hinside
      dsimp only
      rw [Execution.step, hbalanced.1]
      refine ⟨⟨_, rfl⟩, rfl, (leave_frames made result _).trans ?_⟩
      rw [← hreleased, ← hbalanced.2]
      rfl
  · intro session frame op depth hmachine
    have hsound : Sound session ((op.run (runEntry depth) frame).exec session) :=
      op.run_sound (runEntry_sound depth) (hmachine ▸ sane_of_reachable h)
    rw [← hmachine]
    exact frames_of_reaches (hmachine ▸ hproper) hsound.reaches
  · intro activation hactive
    have hmem {cell : Cell} (hcell : cell ∈ activation.frame.cells) :
        cell ∈ execution.machine.stackRoots := hframed.stacked.mem hactive hcell
    refine ⟨hmem List.mem_cons_self, fun cell hcell => hmem ?_, fun hblock => ?_⟩
    · exact List.mem_cons_of_mem _ (List.mem_filterMap.mpr ⟨_, hcell, rfl⟩)
    · rw [hframed.running.count_eq, count_runningBlocks hblock, List.countP_pos_iff]
      exact ⟨⟨activation, hactive, by simp⟩, rfl⟩

/-- A function is called with a callable object, and is about to call itself. -/
def recursingRequests : List Request :=
  [.order (.allocateExecutable
     { name := "loop"
       entry := ⟨0⟩
       sites := [⟨.call, 0⟩] }),
   .order (.createClosure ⟨0, 0⟩ {} []),
   .order (.createObject (some ⟨7⟩)),
   .hostCall (.cell ⟨1, 0⟩) .undefined [.cell ⟨2, 0⟩] .call]

def recursiveCall : Request := .siteCall ⟨⟨⟨1⟩, 0⟩, .cell ⟨1, 0⟩, .cell ⟨2, 0⟩, [], false⟩

/-- The inner frame collects, discards the code that is running, calls the object, which fails, and
tries to call what cannot be called. -/
def insideRecursion : List Request :=
  [.order .collect, .order (.jettison ⟨1⟩), .hostCall (.cell ⟨2, 0⟩) .undefined [] .call,
   .order .collect, .finish (.error (.thrown "inner")), .hostCall .undefined .undefined [] .call]

theorem calls_are_balanced_in_recursion :
    ∃ (execution : Execution) (activation : Activation), execution.Reachable {} ∧
      let entered := (execution.step recursiveCall).2
      let returned := ((entered.run insideRecursion).step (.finish (.error (.thrown "outer")))).2
      (execution.step recursiveCall).1 = .entered activation ∧
      entered.returnsTo (execution.active.length + 1) insideRecursion = true ∧
      execution.machine.running.counts = [(⟨1⟩, 1)] ∧ entered.machine.running.counts = [(⟨1⟩, 2)] ∧
      execution.machine.stackRoots.length = 4 ∧ entered.machine.stackRoots.length = 8 ∧
      returned.active = execution.active ∧
      returned.machine.frames = execution.machine.frames := by
  have hreachable : Execution.Reachable {} ((Execution.mk
      { config := {}, heap := { settings := ({} : Config).heapSettings } } []).run
        recursingRequests) :=
    ⟨_, recursingRequests, rfl, rfl⟩
  generalize hexecution : (Execution.mk _ []).run recursingRequests = execution at hreachable
  have hinside : (execution.step recursiveCall).2.returnsTo (execution.active.length + 1)
      insideRecursion = true := by
    rw [← hexecution]
    decide +kernel
  have hdeeper := le_of_returnsTo hinside
  have hcall : recursiveCall.isCall = true := rfl
  obtain ⟨activation, hreply⟩ :
      ∃ activation, (execution.step recursiveCall).1 = .entered activation := by
    rcases step_isCall_cases hcall hreachable.kept.framed.proper with
      ⟨_, _, hstep, _⟩ | ⟨activation, _, hstep, _⟩ <;> rw [hstep] at hdeeper ⊢
    · exact absurd hdeeper (Nat.not_succ_le_self _)
    · exact ⟨activation, rfl⟩
  obtain ⟨_, hactive, hframes⟩ :=
    ((calls_are_balanced hreachable).1 _ hcall).2 activation insideRecursion _ hreply hinside
  refine ⟨execution, activation, hreachable, hreply, hinside, ?_, ?_, ?_, ?_, hactive, hframes⟩
  all_goals
    rw [← hexecution]
    decide +kernel

end Execution

end InlineCache
