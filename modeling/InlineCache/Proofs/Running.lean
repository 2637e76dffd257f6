import InlineCache.Proofs.Consistency
import InlineCache.Proofs.Entries

/-!
# Code that runs while the collector does

A frame keeps its callee alive, a closure its executable, and an executable the code that is
compiled for it and still runs. So a collection keeps the code of a frame if its callee is a closure
of the executable that the code was compiled for, and if the marker knows what the closure refers
to. A direct site sends any callee to the code that it is linked to, and a closure made while
marking is never scanned. In both cases the executable of running code can be swept away, and the
code with it.
-/

namespace InlineCache

theorem Block.stable_owner (lives : Cell → Prop) :
    Block.Stable fun block => lives block.owner where
  links h := h
  filter h := h
  addIncoming := by
    intro block site h
    rwa [(Block.eq_of_bare (Block.bare_addIncoming block site)).2.1]

namespace Machine

open CodeTable Heap

variable {machine before after : Machine} {born : List Cell}

/-- Every block was compiled for an executable that is still there. -/
def Housed (machine : Machine) : Prop :=
  machine.heap.Addressable → machine.code.All fun block =>
    ∃ executable, machine.heap.executable? block.owner = some executable

theorem Stage.housed {stack : List Cell} (h : Stage withoutCollecting stack before after)
    (horderly : before.Orderly) (hhoused : before.Housed) : after.Housed := by
  intro haddressable
  have hbefore := h.changes.addressable haddressable
  have hall := hhoused hbefore
  rcases h.cases horderly.numbered horderly.linked with hchange | ⟨hcode, hget⟩ | ⟨_, hcollected⟩
  · have hkept := hchange.all
      (Block.stable_owner fun cell => ∃ executable, before.heap.executable? cell = some executable)
      (fun _ _ hexecutable => ⟨_, hexecutable⟩) horderly.numbered hall
    refine hkept.mono ?_
    rintro block ⟨executable, hexecutable⟩
    obtain ⟨kept, hkept, _⟩ := hchange.executable (horderly.tidy hbefore) hexecutable
    exact ⟨kept, hkept⟩
  · rw [hcode]
    refine hall.mono ?_
    rintro block ⟨executable, hexecutable⟩
    refine ⟨executable, ?_⟩
    rw [executable?, hget]
    exact hexecutable
  · intro block hblock
    obtain ⟨origin, _, houtline, hkept⟩ :=
      hcollected.block (hcollected.settled.numbered.get?_of_mem hblock)
    obtain ⟨executable, hexecutable, _⟩ := isReclaimable_eq_false_iff.mp hkept
    refine ⟨executable, ?_⟩
    rw [hcollected.heap_eq, (Block.eq_of_outline houtline).2.1]
    exact hexecutable

theorem Housed.withClosure (h : machine.Housed) (horderly : machine.Orderly)
    (closure : Closure) : (machine.withCell (.function closure)).Housed := by
  intro haddressable
  have hbefore : machine.heap.Addressable := Nat.le_trans (length_slots_allocate _) haddressable
  refine (h hbefore).mono ?_
  rintro block ⟨executable, hexecutable⟩
  exact ⟨executable, executable?_eq_some_iff.mpr ((horderly.tidy hbefore).get?_allocate _
    (executable?_eq_some_iff.mp hexecutable))⟩

theorem Collected.contains_running_iff {id : CodeId} {block : Block} (h : before.Collected after)
    (hrule : before.heap.Tricolor born) (hblock : before.code.get? id = some block)
    (hrunning : before.running.contains id = true) :
    after.code.contains id = true ↔ before.heap.Found before.rootSet block.owner ∧
      ∃ executable, before.heap.executable? block.owner = some executable := by
  rw [h.contains_iff, ← contains_sweepHeap_iff hrule, h.heap_eq]
  constructor
  · rintro ⟨found, executable, hfound, hkept, _⟩
    rw [hblock] at hfound
    rw [← Option.some.inj hfound] at hkept
    exact ⟨Heap.contains_iff.mpr ⟨_, executable?_eq_some_iff.mp hkept⟩, executable,
      executable?_sweepHeap hkept⟩
  · rintro ⟨hcontains, executable, hexecutable⟩
    refine ⟨block, executable, hblock, ?_, .inr hrunning⟩
    rw [executable?_sweepHeap_of_contains hcontains, hexecutable]

end Machine

namespace Heap

variable {heap : Heap Entity} {roots born : List Cell} {callee executable : Cell}

/-- The marker finds the executable of a closure among the roots, unless it does not look into the
closure. -/
theorem Tricolor.found_executable (h : heap.Tricolor born) (hroot : callee ∈ roots)
    (hclosure : heap.executableOf? callee = some executable)
    (hlive : heap.contains executable = true) (hold : callee ∉ born) :
    heap.Found roots executable := by
  obtain ⟨closure, hcallee, rfl⟩ := Option.map_eq_some_iff.mp hclosure
  rw [closure?_eq_some_iff] at hcallee
  have hedge : heap.Edge callee closure.executable := ⟨_, hcallee, List.mem_cons_self, hlive⟩
  have hfound : heap.Found roots callee := .root hroot hedge.contains
  by_cases hpending : heap.isPending callee = true
  · exact .edge hfound hpending hedge
  · by_cases hmarked : heap.isMarked closure.executable = true
    · exact .marked hmarked
    · exact absurd (h.hidden hedge hpending hmarked) hold

end Heap

namespace Execution

open Machine MachineM CodeTable

variable {config : Config}

theorem housed_run (execution : Execution) (requests : List Request)
    (horderly : execution.machine.Orderly) (hhoused : execution.machine.Housed) :
    (execution.run requests).machine.Orderly ∧ (execution.run requests).machine.Housed := by
  induction requests generalizing execution with
  | nil => exact ⟨horderly, hhoused⟩
  | cons request rest ih =>
      have hstep : (execution.step request).2.machine.Orderly ∧
          (execution.step request).2.machine.Housed := by
        rcases execution.step_stages request horderly.numbered fun _ _ hother => hother with
          ⟨closure, _, _, hstep⟩ | hstages
        · rw [hstep]
          exact ⟨horderly.withClosure closure, hhoused.withClosure horderly closure⟩
        · exact hstages.preserves Machine.Housed (fun horderly hstage => hstage.housed horderly)
            horderly hhoused
      exact ih _ hstep.1 hstep.2

theorem Reachable.housed {execution : Execution} {request : Request} {swept : Machine}
    (h : execution.Reachable config) (hswept : request.swept? execution.machine = some swept) :
    swept.Housed := by
  obtain ⟨machine, requests, hcreate, rfl⟩ := h
  have hhoused : machine.Housed := by
    rw [create_eq_ok hcreate]
    exact fun _ _ hmem => nomatch hmem
  obtain ⟨horderly, hrun⟩ :=
    housed_run ⟨machine, []⟩ requests (orderly_of_create hcreate) hhoused
  exact ((Request.swept?_stages [] hswept).preserves Machine.Housed
    (fun horderly hstage => hstage.housed horderly) horderly hrun).2

theorem Kept.mem_rootSet {execution : Execution} {request : Request} {swept : Machine}
    {activation : Activation} {cell : Cell} (h : execution.Kept)
    (hswept : request.swept? execution.machine = some swept)
    (hactive : activation ∈ execution.active) (hcell : cell ∈ activation.frame.cells) :
    cell ∈ swept.rootSet := by
  obtain ⟨cells, hframes⟩ := Request.swept?_frames hswept
  refine List.mem_append_right _ ?_
  rw [(Prod.mk.inj hframes).2]
  exact List.mem_append_left _ (h.framed.stacked.mem hactive hcell)

/-- When a collection finishes, the callee of a frame that was not entered at a direct site is a
closure of the executable that its code was compiled for, unless its executable brought code
along. -/
theorem Seated.executableOf?_of_swept {execution : Execution} {direct : List Bool}
    {request : Request} {swept : Machine} {activation : Activation} {block : Block}
    {born adopters : List Cell} (h : execution.Seated adopters direct) (hkept : execution.Kept)
    (horderly : execution.machine.Orderly) (hrule : execution.machine.heap.Tricolor born)
    (hswept : request.swept? execution.machine = some swept)
    (haddressable : swept.heap.Addressable)
    (hentered : (activation, false) ∈ execution.active.zip direct)
    (hblock : swept.code.get? activation.frame.block = some block) :
    ∃ executable, swept.heap.executableOf? activation.frame.callee = some executable ∧
      (executable ∉ adopters → block.owner = executable) := by
  have hstacked : activation.frame.callee ∈ execution.machine.stackRoots :=
    hkept.framed.stacked.mem (List.of_mem_zip hentered).1 List.mem_cons_self
  have hcode := (Request.swept?_stages _ hswept).codeOf horderly hrule hstacked
    (h.codeOf hentered)
  obtain ⟨executable, hcallee, hown⟩ :=
    hcode.own haddressable (hkept.ne_host hswept hblock)
  exact ⟨executable, hcallee, fun hplain => hown hplain block hblock⟩

/-- In every state that a new machine can get into, a collection keeps the code of an active frame
exactly if the marker finds the executable that the code was compiled for. It does if the frame was
not entered at a direct site and the executable of its callee brought no code along, or if at least
its callee is a closure of the executable that the code was compiled for, unless the callee was made
since marking began. Here every slot of the heap must have a handle of its own. -/
theorem collection_keeps_running_code_iff {machine : Machine}
    (hcreate : Machine.create config = .ok machine) (requests : List Request) (request : Request) :
    let tracked := (Tracked.mk ⟨machine, []⟩ []).run requests
    let direct := Execution.directEntries ⟨machine, []⟩ requests []
    direct.length = tracked.execution.active.length ∧
    ∀ swept, request.swept? tracked.execution.machine = some swept →
      ∃ after, collect.exec swept = (.ok swept.sweepHeap.1, after) ∧
        ∀ activation ∈ tracked.execution.active, ∀ block,
          swept.code.get? activation.frame.block = some block →
          (after.code.contains activation.frame.block = true ↔
            swept.heap.Found swept.rootSet block.owner ∧
              ∃ executable, swept.heap.executable? block.owner = some executable) ∧
          (swept.heap.Addressable →
            ((activation, false) ∈ tracked.execution.active.zip direct ∧
                ∀ executable, swept.heap.executableOf? activation.frame.callee = some executable →
                  executable ∉ Execution.adopters ⟨machine, []⟩ requests) ∨
              swept.heap.executableOf? activation.frame.callee = some block.owner →
            activation.frame.callee ∉ tracked.born →
              after.code.contains activation.frame.block = true) := by
  intro tracked direct
  have hreachable : tracked.execution.Reachable config :=
    ⟨machine, requests, hcreate, Tracked.run_execution _ _⟩
  have hkept := hreachable.kept
  have hstart := Tracked.rule_of_create hcreate
  have hrule := (hstart.run requests).tricolor
  have hempty : ∀ adopters, Execution.Seated ⟨machine, []⟩ adopters [] :=
    fun _ => ⟨rfl, fun hmem => nomatch hmem⟩
  have hseated : tracked.execution.Seated (Execution.adopters ⟨machine, []⟩ requests) direct :=
    (hempty _).run hstart (faithful_of_create hcreate) (framed_of_create hcreate) requests
      (List.Subset.refl _)
  refine ⟨hseated.length, fun swept hswept => ?_⟩
  obtain ⟨hchanges, _⟩ := step_swept hkept.numbered hswept
  obtain ⟨hnumbered, hlinked⟩ := hchanges.linked hkept.numbered hkept.linked
  have htricolor : swept.heap.Tricolor tracked.born := hchanges.tricolor hrule
  obtain ⟨after, hrun, hcollected⟩ := exec_collect hnumbered hlinked
  refine ⟨after, hrun, fun activation hactive block hblock => ?_⟩
  have hrunning := (hkept.running_iff hswept hblock).mpr ⟨activation, hactive, rfl⟩
  have hiff := hcollected.contains_running_iff htricolor hblock hrunning
  refine ⟨hiff, fun haddressable hentered hold => ?_⟩
  have hclosure : swept.heap.executableOf? activation.frame.callee = some block.owner := by
    rcases hentered with ⟨hmem, hplain⟩ | hclosure
    · obtain ⟨executable, hcallee, hown⟩ := hseated.executableOf?_of_swept hkept
        hreachable.orderly hrule hswept haddressable hmem hblock
      rw [hcallee, hown (hplain executable hcallee)]
    · exact hclosure
  obtain ⟨executable, hexecutable⟩ :=
    hreachable.housed hswept haddressable block (mem_of_get? hblock)
  have hlive : swept.heap.contains block.owner = true :=
    Heap.contains_iff.mpr ⟨_, Heap.executable?_eq_some_iff.mp hexecutable⟩
  have hroot := hkept.mem_rootSet hswept hactive List.mem_cons_self
  exact hiff.mpr ⟨htricolor.found_executable hroot hclosure hlive hold, executable, hexecutable⟩

theorem collection_keeps_replaced_code :
    ∃ (machine : Machine) (tracked : Tracked) (direct : List Bool) (activation : Activation)
        (after : Machine),
      Machine.create {} = .ok machine ∧
      tracked = (Tracked.mk ⟨machine, []⟩ []).run replacedWhileRunning ∧
      direct = Execution.directEntries ⟨machine, []⟩ replacedWhileRunning [] ∧
      tracked.execution.machine.heap.Addressable ∧
      (activation, false) ∈ tracked.execution.active.zip direct ∧ activation.frame.block = ⟨1⟩ ∧
      tracked.execution.machine.code.contains ⟨1⟩ = true ∧ tracked.born = [] ∧
      tracked.execution.machine.currentCode? ⟨0, 0⟩ .call = some ⟨2⟩ ∧
      collect.exec tracked.execution.machine
        = (.ok tracked.execution.machine.sweepHeap.1, after) ∧
      after.code.contains ⟨1⟩ = true := by
  have hcreate : Machine.create {}
      = .ok { config := {}, heap := { settings := ({} : Config).heapSettings } } := rfl
  generalize hmachine : Machine.mk _ _ _ _ _ _ _ _ _ = machine at hcreate
  obtain ⟨tracked, htracked⟩ :
      ∃ tracked, tracked = (Tracked.mk ⟨machine, []⟩ []).run replacedWhileRunning := ⟨_, rfl⟩
  obtain ⟨direct, hdirect⟩ : ∃ direct,
      direct = Execution.directEntries ⟨machine, []⟩ replacedWhileRunning [] := ⟨_, rfl⟩
  have hkept := collection_keeps_running_code_iff hcreate replacedWhileRunning (.order .collect)
  dsimp only at hkept
  rw [← htracked, ← hdirect] at hkept
  have haddressable : tracked.execution.machine.heap.Addressable := by
    rw [htracked, ← hmachine, Heap.Addressable]
    decide +kernel
  have hframes : ((tracked.execution.active.zip direct).any fun entry =>
      entry.1.frame.block = ⟨1⟩ ∧ entry.2 = false) = true := by
    rw [htracked, hdirect, ← hmachine]
    decide +kernel
  have hcompiled : tracked.execution.machine.code.contains ⟨1⟩ = true := by
    rw [htracked, ← hmachine]
    decide +kernel
  have hborn : tracked.born = [] := by
    rw [htracked, ← hmachine]
    decide +kernel
  have hcurrent : tracked.execution.machine.currentCode? ⟨0, 0⟩ .call = some ⟨2⟩ := by
    rw [htracked, ← hmachine]
    decide +kernel
  have hadopters : Execution.adopters ⟨machine, []⟩ replacedWhileRunning = [] := by
    rw [← hmachine]
    decide +kernel
  simp only [List.any_eq_true, decide_eq_true_eq, Prod.exists] at hframes
  obtain ⟨activation, _, hentered, hframe, rfl⟩ := hframes
  obtain ⟨block, hblock⟩ := contains_iff.mp hcompiled
  obtain ⟨after, hrun, hcode⟩ := hkept.2 _ rfl
  refine ⟨machine, tracked, direct, activation, after, hcreate, htracked, hdirect, haddressable,
    hentered, hframe, hcompiled, hborn, hcurrent, hrun, ?_⟩
  rw [← hframe] at hblock ⊢
  refine (hcode activation (List.of_mem_zip hentered).1 block hblock).2 haddressable
    (.inl ⟨hentered, fun executable _ => ?_⟩) ?_
  · rw [hadopters]
    exact List.not_mem_nil
  · rw [hborn]
    exact List.not_mem_nil

/-- A direct site is linked to the code of one closure, and then calls a closure of another
executable. -/
def foreignCallee : List Request :=
  [.order (.allocateExecutable { name := "caller", entry := ⟨0⟩, sites := [⟨.directCall, 0⟩] }),
   .order (.allocateExecutable { name := "callee", entry := ⟨1⟩ }),
   .order (.allocateExecutable { name := "other", entry := ⟨2⟩ }),
   .order (.createClosure ⟨0, 0⟩ {} []),
   .order (.createClosure ⟨1, 0⟩ {} []),
   .order (.createClosure ⟨2, 0⟩ {} []),
   .hostCall (.cell ⟨3, 0⟩) .undefined [] .call,
   .siteCall ⟨⟨⟨1⟩, 0⟩, .cell ⟨4, 0⟩, .undefined, [], false⟩,
   .finish (.ok .undefined),
   .siteCall ⟨⟨⟨1⟩, 0⟩, .cell ⟨5, 0⟩, .undefined, [], false⟩]

/-- A closure that was made while marking is called. -/
def calledWhileMarking : List Request :=
  closureWhileMarking ++ [.hostCall (.cell ⟨1, 0⟩) .undefined [] .call]

/-- The code of a frame whose callee is not a closure of its executable goes, and so does the code
of a frame whose callee was made while marking. -/
theorem running_code_discarded :
    let misled := (Execution.mk
      { config := {}, heap := { settings := ({} : Config).heapSettings } } []).run foreignCallee
    let unscanned := (Execution.mk eagerMachine []).run calledWhileMarking
    (misled.Reachable {} ∧ misled.active.map (·.frame.block) = [⟨2⟩, ⟨1⟩] ∧
      misled.machine.code.contains ⟨2⟩ = true ∧
      (misled.step (.order .collect)).2.machine.code.contains ⟨2⟩ = false) ∧
    unscanned.Reachable { allocationThreshold := 1 } ∧
      unscanned.active.map (·.frame.block) = [⟨1⟩] ∧
      unscanned.machine.code.contains ⟨1⟩ = true ∧
      (unscanned.step (.order .collect)).2.machine.code.contains ⟨1⟩ = false := by
  intro misled unscanned
  refine ⟨⟨⟨_, foreignCallee, rfl, rfl⟩, ?_, ?_, ?_⟩, ⟨_, calledWhileMarking, rfl, rfl⟩, ?_, ?_, ?_⟩
  all_goals decide +kernel

end Execution

end InlineCache
