import InlineCache.Proofs.Machine.Steady
import InlineCache.Proofs.Retention

/-!
# The frames of an execution

A machine counts how many frames of each block are active, and keeps the cells of the calls in
progress on its stack of roots. Both agree with the activations of the execution that drives it: the
counts are those of the activations, and the cells of every activation are on the stack until it is
left, those of the outer ones below those of the inner ones.
-/

namespace InlineCache

/-! ### Counting -/

namespace RunningFrames

/-- The counts say how often each block stands in a list. -/
structure Counts (running : RunningFrames) (blocks : List CodeId) : Prop where
  nodup : (running.counts.map Prod.fst).Nodup
  lookup : ∀ id, running.counts.lookup id = if id ∈ blocks then some (blocks.count id) else none

variable {running : RunningFrames} {blocks : List CodeId} {code id : CodeId}

theorem Counts.contains_iff (h : running.Counts blocks) :
    running.contains id = true ↔ id ∈ blocks := by
  rw [contains, h.lookup]
  split <;> simp_all

theorem lookup_cons_of_ne {key : CodeId} (frames : Nat) (rest : List (CodeId × Nat))
    (h : id ≠ key) : ((key, frames) :: rest).lookup id = rest.lookup id := by
  rw [List.lookup_cons, beq_false_of_ne h]

theorem lookup_eq_none {counts : List (CodeId × Nat)} (h : id ∉ counts.map Prod.fst) :
    counts.lookup id = none := by
  induction counts with
  | nil => rfl
  | cons pair rest ih =>
      rw [List.map_cons, List.mem_cons, not_or] at h
      rw [lookup_cons_of_ne pair.2 rest h.1, ih h.2]

theorem lookup_enter (counts : List (CodeId × Nat)) (code id : CodeId) :
    (enter.go code counts).lookup id =
      if id = code then some ((counts.lookup code).getD 0 + 1) else counts.lookup id := by
  induction counts with
  | nil =>
      split
      · rename_i hid
        rw [enter.go, hid, List.lookup_cons_self]
        rfl
      · rename_i hid
        rw [enter.go, lookup_cons_of_ne 1 [] hid]
  | cons pair rest ih =>
      obtain ⟨key, frames⟩ := pair
      rw [enter.go]
      by_cases hkey : key = code
      · rw [if_pos hkey, hkey]
        split
        · rename_i hid
          rw [hid, List.lookup_cons_self, List.lookup_cons_self]
          rfl
        · rename_i hid
          rw [lookup_cons_of_ne _ _ hid, lookup_cons_of_ne _ _ hid]
      · rw [if_neg hkey, lookup_cons_of_ne frames rest (Ne.symm hkey)]
        by_cases hid : id = key
        · rw [hid, List.lookup_cons_self, List.lookup_cons_self, if_neg hkey]
        · rw [lookup_cons_of_ne _ _ hid, lookup_cons_of_ne _ _ hid, ih]

theorem keys_enter (counts : List (CodeId × Nat)) (code : CodeId) :
    (enter.go code counts).map Prod.fst =
      if code ∈ counts.map Prod.fst then counts.map Prod.fst
      else counts.map Prod.fst ++ [code] := by
  induction counts with
  | nil => rfl
  | cons pair rest ih =>
      obtain ⟨key, frames⟩ := pair
      rw [enter.go]
      by_cases hkey : key = code
      · simp [hkey]
      · rw [if_neg hkey, List.map_cons, ih]
        by_cases hmem : code ∈ rest.map Prod.fst <;> simp_all [Ne.symm hkey]

theorem Counts.enter (h : running.Counts blocks) (code : CodeId) :
    (running.enter code).Counts (code :: blocks) := by
  constructor
  · show ((enter.go code running.counts).map Prod.fst).Nodup
    rw [keys_enter]
    split
    · exact h.nodup
    · rename_i hnew
      exact List.Nodup.append h.nodup (List.nodup_singleton code) (List.disjoint_singleton.mpr hnew)
  · intro id
    show (enter.go code running.counts).lookup id = _
    rw [lookup_enter, h.lookup, h.lookup]
    by_cases hid : id = code
    · subst hid
      rw [if_pos rfl, if_pos (List.mem_cons_self (l := blocks)), List.count_cons_self]
      by_cases hmem : id ∈ blocks
      · rw [if_pos hmem]
        rfl
      · rw [if_neg hmem, List.count_eq_zero_of_not_mem hmem]
        rfl
    · rw [if_neg hid, List.count_cons_of_ne (Ne.symm hid)]
      simp only [List.mem_cons, hid, false_or]

/-- Leaving a block with one frame takes its entry away. -/
theorem lookup_leave (counts : List (CodeId × Nat)) (hnodup : (counts.map Prod.fst).Nodup)
    (code id : CodeId) :
    (leave.go code counts).lookup id =
      if id = code then (counts.lookup code).bind fun frames =>
        if frames ≤ 1 then none else some (frames - 1)
      else counts.lookup id := by
  induction counts with
  | nil => split <;> rfl
  | cons pair rest ih =>
      obtain ⟨key, frames⟩ := pair
      obtain ⟨hnew, hrest⟩ := List.nodup_cons.mp hnodup
      rw [leave.go]
      by_cases hkey : key = code
      · rw [if_pos hkey, ← hkey]
        by_cases hid : id = key
        · rw [if_pos hid, hid, List.lookup_cons_self, Option.bind_some]
          split
          · exact lookup_eq_none hnew
          · rw [List.lookup_cons_self]
        · rw [if_neg hid, lookup_cons_of_ne _ _ hid]
          split
          · rfl
          · exact lookup_cons_of_ne _ _ hid
      · rw [if_neg hkey, lookup_cons_of_ne frames rest (Ne.symm hkey)]
        by_cases hid : id = key
        · rw [hid, List.lookup_cons_self, List.lookup_cons_self, if_neg hkey]
        · rw [lookup_cons_of_ne _ _ hid, lookup_cons_of_ne _ _ hid, ih hrest]

theorem keys_leave (counts : List (CodeId × Nat)) (code : CodeId) :
    ((leave.go code counts).map Prod.fst).Sublist (counts.map Prod.fst) := by
  induction counts with
  | nil => exact List.Sublist.refl _
  | cons pair rest ih =>
      obtain ⟨key, frames⟩ := pair
      rw [leave.go]
      split
      · split
        · exact List.sublist_cons_self _ _
        · exact List.Sublist.refl _
      · exact ih.cons_cons key

theorem Counts.leave (h : running.Counts (code :: blocks)) :
    (running.leave code).Counts blocks := by
  constructor
  · exact h.nodup.sublist (keys_leave running.counts code)
  · intro id
    show (leave.go code running.counts).lookup id = _
    rw [lookup_leave _ h.nodup, h.lookup, h.lookup]
    by_cases hid : id = code
    · rw [if_pos hid, if_pos List.mem_cons_self, hid, List.count_cons_self, Option.bind_some]
      by_cases hmem : code ∈ blocks
      · have hpositive := List.count_pos_iff.mpr hmem
        rw [if_pos hmem, if_neg (by omega)]
        rfl
      · rw [if_neg hmem, List.count_eq_zero_of_not_mem hmem]
        rfl
    · rw [if_neg hid, List.count_cons_of_ne (Ne.symm hid)]
      simp only [List.mem_cons, hid, false_or]

/-- Leaving what does not run changes nothing. -/
theorem Counts.leave_of_not_mem (h : running.Counts blocks) (hcode : code ∉ blocks) :
    (running.leave code).Counts blocks := by
  constructor
  · exact h.nodup.sublist (keys_leave running.counts code)
  · intro id
    show (leave.go code running.counts).lookup id = _
    rw [lookup_leave _ h.nodup, h.lookup, h.lookup]
    by_cases hid : id = code
    · rw [if_pos hid, if_neg hcode, hid, if_neg hcode]
      rfl
    · rw [if_neg hid]

end RunningFrames

/-! ### The stack of roots -/

/-- The cells of each activation are on the stack, and what lies below an activation is the stack of
the outer ones. -/
inductive Stacked : List Activation → List Cell → Prop where
  | nil (stack : List Cell) : Stacked [] stack
  | cons {activation : Activation} {outer : List Activation} {stack : List Cell}
      (hbase : activation.base ≤ stack.length)
      (hcells : ∀ cell ∈ activation.frame.cells, cell ∈ stack)
      (houter : Stacked outer (stack.take activation.base)) : Stacked (activation :: outer) stack

namespace Stacked

variable {active : List Activation} {stack : List Cell}

theorem mem {activation : Activation} {cell : Cell} (h : Stacked active stack)
    (hactive : activation ∈ active) (hcell : cell ∈ activation.frame.cells) : cell ∈ stack := by
  induction h with
  | nil stack => cases hactive
  | cons hbase hcells houter ih =>
      rcases List.mem_cons.mp hactive with rfl | hinner
      · exact hcells cell hcell
      · exact List.mem_of_mem_take (ih hinner)

end Stacked

namespace Execution

open MachineM

/-- The blocks of the active frames, the innermost first. Handlers run without a block. -/
def runningBlocks (active : List Activation) : List CodeId :=
  (active.map fun activation => activation.frame.block).filter (· ≠ CodeId.host)

theorem runningBlocks_cons (activation : Activation) (active : List Activation) :
    runningBlocks (activation :: active) =
      if activation.frame.block = CodeId.host then runningBlocks active
      else activation.frame.block :: runningBlocks active := by
  simp only [runningBlocks, List.map_cons, List.filter_cons, decide_eq_true_eq]
  split <;> simp_all

theorem mem_runningBlocks {active : List Activation} {id : CodeId} :
    id ∈ runningBlocks active ↔
      id ≠ CodeId.host ∧ ∃ activation ∈ active, activation.frame.block = id := by
  simp only [runningBlocks, List.mem_filter, List.mem_map, decide_eq_true_eq, and_comm]

/-- The machine holds exactly what the activations need. -/
structure Framed (execution : Execution) : Prop where
  running : execution.machine.running.Counts (runningBlocks execution.active)
  stacked : Stacked execution.active execution.machine.stackRoots

variable {execution : Execution}

theorem Framed.of_frames (h : execution.Framed) {machine : Machine}
    (hframes : machine.frames = execution.machine.frames) :
    Framed { execution with machine } := by
  obtain ⟨hrunning, hstack⟩ := Prod.mk.inj hframes
  constructor
  · rw [hrunning]
    exact h.running
  · rw [hstack]
    exact h.stacked

theorem run_steady (order : Order) : Steady order.run := by
  cases order with
  | allocateExecutable template => exact .map _ fun _ => rfl
  | createClosure executable realm captures =>
      exact .map _ (.bind (.map _ (.of_look _)) fun _ _ => rfl)
  | createObject handler => exact .map _ fun _ => rfl
  | addRoot cell => exact .map _ fun _ => rfl
  | removeRoot cell =>
      refine .map _ (.of_modify fun machine => ?_)
      rw [Machine.removeRoot]
      split <;> rfl
  | compile function kind => exact .map _ (compileFunction_steady function kind)
  | replace old entry tier => exact .map _ (replaceCode_steady old entry tier)
  | jettison code => exact .map _ (jettisonCode_steady code)
  | disallowStubs site => exact .map _ (disallowStubs_steady site)
  | safepoint => exact .map _ safepoint_steady
  | collect => exact .map _ collect_steady
  | writeBarrier owner target => exact .map _ fun _ => rfl
  | takeEvents => exact .map _ fun _ => rfl

/-- A call that enters has pushed its own cells and those of its frame, and runs the block of the
frame, unless that is the host's. One that does not enter has taken everything back. -/
theorem call_frames {start : MachineM Transfer}
    (hstarts : Starts execution.machine.frames (start.exec execution.machine)) :
    (∃ error machine,
      execution.call start = (.returned (.error error), { execution with machine }) ∧
      machine.frames = execution.machine.frames) ∨
    ∃ activation machine cells,
      execution.call start = (.entered activation, ⟨machine, activation :: execution.active⟩) ∧
      activation.base = execution.machine.stackRoots.length ∧
      machine.frames =
        (if activation.frame.block = CodeId.host then execution.machine.running
          else execution.machine.running.enter activation.frame.block,
        execution.machine.stackRoots ++ (cells ++ activation.frame.cells)) := by
  rw [Execution.call, exec_bind]
  rcases hrun : start.exec execution.machine with ⟨error | transfer, found⟩ <;>
    rw [hrun] at hstarts <;> dsimp only
  · exact .inl ⟨error, found, rfl, hstarts⟩
  · obtain ⟨hbase, hfound⟩ := hstarts
    have henters := enter_enters transfer found
    rcases henter : (enter transfer).exec found with ⟨error | activation, after⟩ <;>
      rw [henter] at henters <;> dsimp only
    · refine .inl ⟨error, after, rfl, henters.trans ?_⟩
      rw [hfound]
      exact Prod.ext rfl (by rw [hbase]; exact List.take_left)
    · obtain ⟨hentered, _, _, hafter⟩ := henters
      rw [hfound, List.append_assoc] at hafter
      exact .inr ⟨activation, after, transfer.call.cells, rfl, hentered.trans hbase, hafter⟩

/-- A call enters on top of the stack, or leaves everything as it was. -/
theorem Framed.call (h : execution.Framed) {start : MachineM Transfer}
    (hstarts : Starts execution.machine.frames (start.exec execution.machine)) :
    (execution.call start).2.Framed := by
  rcases call_frames hstarts with
    ⟨error, machine, hcall, hframes⟩ | ⟨activation, machine, cells, hcall, hheight, hframes⟩ <;>
    rw [hcall]
  · exact h.of_frames hframes
  · obtain ⟨hcounted, hpushed⟩ := Prod.mk.inj hframes
    constructor
    · show machine.running.Counts (runningBlocks (activation :: execution.active))
      rw [runningBlocks_cons, hcounted]
      split
      · exact h.running
      · exact h.running.enter _
    · show Stacked (activation :: execution.active) machine.stackRoots
      rw [hpushed]
      refine .cons ?_ ?_ ?_
      · rw [hheight, List.length_append]
        exact Nat.le_add_right _ _
      · intro cell hcell
        exact List.mem_append_right _ (List.mem_append_right _ hcell)
      · rw [hheight]
        exact List.take_left.symm ▸ h.stacked

theorem Framed.step (h : execution.Framed) (request : Request) :
    (execution.step request).2.Framed := by
  cases request with
  | order order => exact h.of_frames ((run_steady order).frames execution.machine)
  | hostCall callee receiver arguments kind => exact h.call (startHostCall_starts _ _ _ _ _)
  | siteCall call => exact h.call (startSiteCall_starts call _)
  | finish result =>
      rw [Execution.step]
      rcases hactive : execution.active with _ | ⟨activation, outer⟩
      · exact h
      · have hframes := leave_frames activation result execution.machine
        obtain ⟨hleft, hunwound⟩ := Prod.mk.inj hframes
        have hrunning := h.running
        have hstacked := h.stacked
        rw [hactive] at hrunning hstacked
        rw [runningBlocks_cons] at hrunning
        constructor
        · show RunningFrames.Counts _ (runningBlocks outer)
          rw [hleft]
          split at hrunning
          · rename_i hhost
            refine hrunning.leave_of_not_mem ?_
            rw [hhost, mem_runningBlocks]
            exact fun hmem => hmem.1 rfl
          · exact hrunning.leave
        · show Stacked outer _
          rw [hunwound]
          cases hstacked with
          | cons hbase hcells houter => exact houter

theorem Framed.run (h : execution.Framed) (requests : List Request) :
    (execution.run requests).Framed := by
  induction requests generalizing execution with
  | nil => exact h
  | cons request rest ih => exact ih (h.step request)

theorem framed_of_create {config : Config} {machine : Machine}
    (h : Machine.create config = .ok machine) : Framed ⟨machine, []⟩ := by
  rw [Machine.create_eq_ok h]
  exact ⟨⟨List.nodup_nil, fun _ => rfl⟩, .nil _⟩

end Execution

/-- A request that finishes a collection sweeps with the frames that were active before. What it has
pushed on the stack of roots by then are the cells of a call. -/
theorem Request.swept?_frames {machine swept : Machine} {request : Request}
    (h : request.swept? machine = some swept) :
    ∃ cells, swept.frames = (machine.running, machine.stackRoots ++ cells) := by
  have hsafepoint : ∀ {prepared : Machine}, prepared.sweptAtSafepoint? = some swept →
      swept.frames = prepared.frames := by
    intro prepared hswept
    rw [← (Machine.sweptAtSafepoint?_eq_some_iff.mp hswept).2]
    rfl
  unfold Request.swept? at h
  split at h
  · obtain rfl := Option.some.inj h
    exact ⟨[], by rw [List.append_nil]; rfl⟩
  · exact ⟨[], by rw [hsafepoint h, List.append_nil]; rfl⟩
  · rename_i call
    obtain ⟨prepared, hprepared, hswept⟩ := Option.bind_eq_some_iff.mp h
    obtain ⟨link, callee, _, _, _, rfl⟩ := Machine.arrive?_eq_some_iff.mp hprepared
    refine ⟨(call.call callee link.callType.specialization).cells, ?_⟩
    rw [hsafepoint hswept, Machine.noted]
    split <;> rfl
  · cases h

end InlineCache
