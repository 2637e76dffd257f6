import InlineCache.Stub
import Mathlib.Data.List.Nodup

/-!
# The cases of a stub

A case sends a call that its variant accepts to its target. Hits are only counted, so most of what
the theory says about a stub is about its routes: variant and target of each case, in order.

Growing a stub keeps the routes it starts from, up to widening. The result has one case for each
executable, and its cases are all of one width.
-/

namespace InlineCache

/-- Which calls a case takes, and where it sends them. -/
def Case.route (case : Case) : Variant × CodePointer := (case.variant, case.target)

/-- The callee that a variant is made for, if it is made for one. -/
def Variant.callee? : Variant → Option Cell
  | .function callee _ => some callee
  | .closure _ => none

namespace Stub

def routes (stub : Stub) : List (Variant × CodePointer) := stub.cases.map Case.route

theorem mem_routes {stub : Stub} {route : Variant × CodePointer} :
    route ∈ stub.routes ↔ ∃ case ∈ stub.cases, case.route = route := by
  rw [routes, List.mem_map]

theorem routes_hit (stub : Stub) (callee executable : Cell) :
    (stub.hit callee executable).routes = stub.routes := by
  have hgo : ∀ cases : List Case,
      (hit.go callee executable cases).map Case.route = cases.map Case.route := by
    intro cases
    induction cases with
    | nil => rfl
    | cons case rest ih =>
        rw [hit.go]
        split
        · rfl
        · rw [List.map_cons, List.map_cons, ih]
  exact hgo stub.cases

theorem routes_retargeted (stub : Stub) (old : CodeId) (new : CodePointer) :
    (stub.retargeted old new).routes
      = stub.routes.map fun route => if route.2.block = old then (route.1, new) else route := by
  rw [routes, routes, retargeted, List.map_map, List.map_map]
  apply List.map_congr_left
  intro case _
  by_cases hold : case.target.block = old
  · simp [Case.route, hold]
  · simp [Case.route, hold]

theorem routes_withoutTarget (stub : Stub) (code : CodeId) :
    (stub.withoutTarget code).routes = stub.routes.filter fun route => route.2.block != code := by
  rw [routes, routes, withoutTarget, List.filter_map]
  rfl

theorem routes_pruned (stub : Stub) (isLive : Cell → Bool) :
    (stub.pruned isLive).routes = stub.routes.filter fun route => route.1.isLive isLive := by
  rw [routes, routes, pruned, List.filter_map]
  rfl

/-- The cases that a stub loses when some are kept. -/
theorem size_sub_filter (stub : Stub) (keep : Case → Bool) :
    stub.size - (stub.cases.filter keep).length = stub.cases.countP fun case => !keep case := by
  have hsplit : stub.cases.length = stub.cases.countP keep + _ :=
    List.length_eq_countP_add_countP keep
  rw [size, ← List.countP_eq_length_filter, hsplit, Nat.add_sub_cancel_left]
  exact List.countP_congr fun case _ => by simp

theorem targets_iff {stub : Stub} {code : CodeId} :
    stub.targets code = true ↔ ∃ route ∈ stub.routes, route.2.block = code := by
  simp [targets, routes, Case.route]

/-- Where a call goes depends on the routes alone. -/
theorem dispatch?_eq (stub : Stub) (callee executable : Cell) :
    stub.dispatch? callee executable
      = (stub.routes.find? fun route => route.1.accepts callee executable).map Prod.snd := by
  rw [dispatch?, case?, routes, List.find?_map, Option.map_map]
  rfl

theorem route_of_dispatch? {stub : Stub} {callee executable : Cell} {target : CodePointer}
    (h : stub.dispatch? callee executable = some target) :
    ∃ variant, (variant, target) ∈ stub.routes ∧ variant.accepts callee executable = true := by
  rw [dispatch?_eq, Option.map_eq_some_iff] at h
  obtain ⟨⟨variant, found⟩, hfind, rfl⟩ := h
  exact ⟨variant, List.mem_of_find?_eq_some hfind, by simpa using List.find?_some hfind⟩

/-- A call that some case accepts is served. -/
theorem dispatch?_of_accepts {stub : Stub} {callee executable : Cell} {variant : Variant}
    (hvariant : variant ∈ stub.cases.map Case.variant)
    (haccepts : variant.accepts callee executable = true) :
    ∃ pointer, stub.dispatch? callee executable = some pointer := by
  obtain ⟨case, hcase, rfl⟩ := List.mem_map.mp hvariant
  have hfound : (stub.case? callee executable).isSome = true :=
    List.find?_isSome.mpr ⟨case, hcase, haccepts⟩
  obtain ⟨taken, htaken⟩ := Option.isSome_iff_exists.mp hfound
  exact ⟨taken.target, congrArg (Option.map Case.target) htaken⟩

end Stub

/-! ### Merging cases -/

namespace Case

theorem merge_variants (case : Case) (done : List Case) :
    (case.merge done).map Case.variant
      = if case.variant ∈ done.map Case.variant then done.map Case.variant
        else done.map Case.variant ++ [case.variant] := by
  induction done with
  | nil => simp [merge]
  | cons first rest ih =>
      rw [merge]
      by_cases hfirst : first.variant = case.variant
      · simp [hfirst]
      · rw [if_neg hfirst, List.map_cons, ih, List.map_cons]
        have hne : case.variant ≠ first.variant := fun heq => hfirst heq.symm
        by_cases hrest : case.variant ∈ rest.map Case.variant
        · rw [if_pos hrest, if_pos (List.mem_cons_of_mem _ hrest)]
        · have hnew : case.variant ∉ first.variant :: rest.map Case.variant :=
            List.not_mem_cons_of_ne_of_not_mem hne hrest
          rw [if_neg hrest, if_neg hnew, List.cons_append]

theorem route_of_mem_merge {case found : Case} {done : List Case} (h : found ∈ case.merge done) :
    found.route = case.route ∨ ∃ before ∈ done, found.route = before.route := by
  induction done with
  | nil =>
      rw [merge, List.mem_singleton] at h
      exact Or.inl (by rw [h])
  | cons first rest ih =>
      rw [merge] at h
      by_cases hfirst : first.variant = case.variant
      · rw [if_pos hfirst] at h
        rcases List.mem_cons.mp h with rfl | hrest
        · exact Or.inr ⟨first, List.mem_cons_self, rfl⟩
        · exact Or.inr ⟨found, List.mem_cons_of_mem _ hrest, rfl⟩
      · rw [if_neg hfirst] at h
        rcases List.mem_cons.mp h with rfl | hrest
        · exact Or.inr ⟨found, List.mem_cons_self, rfl⟩
        · rcases ih hrest with hcase | ⟨before, hmem, hroute⟩
          · exact Or.inl hcase
          · exact Or.inr ⟨before, List.mem_cons_of_mem _ hmem, hroute⟩

/-- The cases of a list, with those of one variant merged into the first of them. -/
def mergeAll (cases : List Case) : List Case :=
  cases.foldl (fun done case => case.merge done) []

/-- What merging the cases one after the other keeps: no variant stands twice, every route comes
from a case of the input, and every variant of the input has a case. -/
structure Merged (input done : List Case) : Prop where
  nodup : (done.map Case.variant).Nodup
  route : ∀ case ∈ done, ∃ before ∈ input, case.route = before.route
  covers : ∀ case ∈ input, case.variant ∈ done.map Case.variant

theorem Merged.step {input done : List Case} (h : Merged input done) (case : Case) :
    Merged (input ++ [case]) (case.merge done) where
  nodup := by
    rw [merge_variants]
    split
    · exact h.nodup
    · rename_i hnew
      rw [List.nodup_append]
      refine ⟨h.nodup, List.nodup_singleton _, ?_⟩
      intro variant hold other hother heq
      apply hnew
      rw [← List.mem_singleton.mp hother, ← heq]
      exact hold
  route := by
    intro found hfound
    rcases route_of_mem_merge hfound with hroute | ⟨before, hbefore, hroute⟩
    · exact ⟨case, by simp, hroute⟩
    · obtain ⟨origin, horigin, heq⟩ := h.route before hbefore
      exact ⟨origin, List.mem_append_left _ horigin, hroute.trans heq⟩
  covers := by
    intro found hfound
    rw [merge_variants]
    rcases List.mem_append.mp hfound with hold | hnew
    · have hcovered := h.covers found hold
      split
      · exact hcovered
      · exact List.mem_append_left _ hcovered
    · rw [List.mem_singleton.mp hnew]
      split
      · assumption
      · simp

theorem merged_mergeAll (cases : List Case) : Merged cases (mergeAll cases) := by
  have hfold : ∀ (rest seen done : List Case), Merged seen done →
      Merged (seen ++ rest) (rest.foldl (fun done case => case.merge done) done) := by
    intro rest
    induction rest with
    | nil =>
        intro seen done h
        simpa using h
    | cons case rest ih =>
        intro seen done h
        rw [List.foldl_cons, List.append_cons]
        exact ih (seen ++ [case]) (case.merge done) (h.step case)
  have hempty : Merged [] [] :=
    { nodup := List.nodup_nil
      route := by simp
      covers := by simp }
  exact hfold cases [] [] hempty

theorem nodup_executables_iff (cases : List Case) :
    shareExecutable cases = false ↔ (cases.map fun case => case.variant.executable).Nodup := by
  induction cases with
  | nil => simp [shareExecutable]
  | cons case rest ih =>
      rw [shareExecutable, Bool.or_eq_false_iff, ih, List.map_cons, List.nodup_cons,
        List.any_eq_false]
      refine and_congr_left fun _ => ⟨fun hnone hmem => ?_, fun hnot other hother heq => ?_⟩
      · obtain ⟨other, hother, heq⟩ := List.mem_map.mp hmem
        exact hnone other hother (by rw [heq, beq_self_eq_true])
      · exact hnot (List.mem_map.mpr ⟨other, hother, (beq_iff_eq.mp heq).symm⟩)

end Case

/-! ### Growth -/

namespace Stub

/-- The shape that every stub at a site has. -/
structure WellShaped (stub : Stub) (capacity : Nat) : Prop where
  nonempty : 1 ≤ stub.size
  bounded : stub.size ≤ capacity
  distinct : (stub.cases.map fun case => case.variant.executable).Nodup
  uniform : (∀ case ∈ stub.cases, case.variant.isClosure = false) ∨
    ∀ case ∈ stub.cases, case.variant.isClosure = true

/-- Merging leaves one case for each executable if variants of the input with one executable are
equal. -/
theorem nodup_executables_mergeAll {input : List Case}
    (hinj : ∀ a ∈ input, ∀ b ∈ input,
      a.variant.executable = b.variant.executable → a.variant = b.variant) :
    ((Case.mergeAll input).map fun case => case.variant.executable).Nodup := by
  have hmerged := Case.merged_mergeAll input
  have hmap : ((Case.mergeAll input).map fun case => case.variant.executable)
      = ((Case.mergeAll input).map Case.variant).map Variant.executable := by
    rw [List.map_map]
    rfl
  rw [hmap]
  apply hmerged.nodup.map_on
  intro left hleft right hright heq
  obtain ⟨leftCase, hleftMem, rfl⟩ := List.mem_map.mp hleft
  obtain ⟨rightCase, hrightMem, rfl⟩ := List.mem_map.mp hright
  obtain ⟨a, ha, haRoute⟩ := hmerged.route leftCase hleftMem
  obtain ⟨b, hb, hbRoute⟩ := hmerged.route rightCase hrightMem
  have hav : leftCase.variant = a.variant := congrArg Prod.fst haRoute
  have hbv : rightCase.variant = b.variant := congrArg Prod.fst hbRoute
  rw [hav, hbv] at heq ⊢
  exact hinj a ha b hb heq

/-- The cases that a stub is grown from: those that are there and one more. -/
def grownFrom (existing : List Case) (variant : Variant) (target : CodePointer) : List Case :=
  existing ++ [({ variant, target } : Case)]

/-- The cases that growing a stub merges. -/
def growthInput (cases : List Case) : List Case :=
  if Case.shareExecutable cases || cases.any fun case => case.variant.isClosure
  then cases.map Case.widened else cases

theorem executable_injective_growthInput (cases : List Case) :
    ∀ a ∈ growthInput cases, ∀ b ∈ growthInput cases,
      a.variant.executable = b.variant.executable → a.variant = b.variant := by
  intro a ha b hb heq
  rw [growthInput] at ha hb
  split at ha
  · rename_i hwide
    rw [if_pos hwide] at hb
    obtain ⟨_, _, rfl⟩ := List.mem_map.mp ha
    obtain ⟨_, _, rfl⟩ := List.mem_map.mp hb
    exact congrArg Variant.closure heq
  · rename_i hnarrow
    rw [if_neg hnarrow] at hb
    rw [Bool.or_eq_true, not_or, Bool.not_eq_true, Case.nodup_executables_iff] at hnarrow
    rw [List.inj_on_of_nodup_map hnarrow.1 ha hb heq]

theorem uniform_growthInput (cases : List Case) :
    (∀ case ∈ growthInput cases, case.variant.isClosure = false) ∨
      ∀ case ∈ growthInput cases, case.variant.isClosure = true := by
  rw [growthInput]
  split
  · right
    intro case hmem
    obtain ⟨_, _, rfl⟩ := List.mem_map.mp hmem
    rfl
  · rename_i hnarrow
    left
    intro case hmem
    rw [Bool.or_eq_true, not_or, Bool.not_eq_true, Bool.not_eq_true, List.any_eq_false] at hnarrow
    simpa using hnarrow.2 case hmem

/-- A case of the input keeps its target and its executable, and its callee unless it is widened. -/
theorem origin_of_mem_growthInput {cases : List Case} {case : Case}
    (h : case ∈ growthInput cases) :
    ∃ before ∈ cases, case.target = before.target ∧
      case.variant.executable = before.variant.executable ∧
      (case.variant.callee? = none ∨ case.variant.callee? = before.variant.callee?) := by
  rw [growthInput] at h
  split at h
  · obtain ⟨before, hmem, rfl⟩ := List.mem_map.mp h
    exact ⟨before, hmem, rfl, rfl, Or.inl rfl⟩
  · exact ⟨case, h, rfl, rfl, Or.inr rfl⟩

theorem built_of_grow {id : StubId} {existing : List Case} {variant : Variant}
    {target : CodePointer} {capacity : Nat} {stub : Stub} {widened : Bool}
    (h : grow id existing variant target capacity = .built stub widened) :
    stub.cases = Case.mergeAll (growthInput (grownFrom existing variant target)) ∧
      stub.size ≤ capacity := by
  rw [grow] at h
  change (if (Case.mergeAll (growthInput (grownFrom existing variant target))).length ≤ capacity
    then _ else _) = _ at h
  split at h
  · rename_i hle
    obtain ⟨rfl, _⟩ := Growth.built.inj h
    exact ⟨rfl, hle⟩
  · cases h

theorem wellShaped_of_grow {id : StubId} {existing : List Case} {variant : Variant}
    {target : CodePointer} {capacity : Nat} {stub : Stub} {widened : Bool}
    (h : grow id existing variant target capacity = .built stub widened) :
    stub.WellShaped capacity := by
  obtain ⟨hcases, hsize⟩ := built_of_grow h
  have hmerged := Case.merged_mergeAll (growthInput (grownFrom existing variant target))
  refine ⟨?_, hsize, ?_, ?_⟩
  · have hinput : growthInput (grownFrom existing variant target) ≠ [] := by
      rw [growthInput]
      split <;> simp [grownFrom]
    obtain ⟨case, hcase⟩ := List.exists_mem_of_ne_nil _ hinput
    obtain ⟨found, hfound, _⟩ := List.mem_map.mp (hmerged.covers case hcase)
    rw [size, hcases]
    exact List.length_pos_of_mem hfound
  · rw [hcases]
    exact nodup_executables_mergeAll (executable_injective_growthInput _)
  · rw [hcases]
    have hof : ∀ wide, (∀ case ∈ growthInput (grownFrom existing variant target),
        case.variant.isClosure = wide) →
        ∀ case ∈ Case.mergeAll (growthInput (grownFrom existing variant target)),
          case.variant.isClosure = wide := by
      intro wide hwide case hmem
      obtain ⟨before, hbefore, hroute⟩ := hmerged.route case hmem
      have hvariant : case.variant = before.variant := congrArg Prod.fst hroute
      rw [hvariant]
      exact hwide before hbefore
    exact (uniform_growthInput _).imp (hof false) (hof true)

/-- Each case of a grown stub stands for a case that it was grown from. -/
theorem origin_of_grow {id : StubId} {existing : List Case} {variant : Variant}
    {target : CodePointer} {capacity : Nat} {stub : Stub} {widened : Bool}
    (h : grow id existing variant target capacity = .built stub widened) :
    ∀ case ∈ stub.cases, ∃ before ∈ grownFrom existing variant target,
      case.target = before.target ∧ case.variant.executable = before.variant.executable ∧
      (case.variant.callee? = none ∨ case.variant.callee? = before.variant.callee?) := by
  obtain ⟨hcases, _⟩ := built_of_grow h
  intro case hmem
  rw [hcases] at hmem
  obtain ⟨middle, hmiddle, hroute⟩ := (Case.merged_mergeAll _).route case hmem
  obtain ⟨before, hbefore, htarget, hexecutable, hcallee⟩ := origin_of_mem_growthInput hmiddle
  have hvariant : case.variant = middle.variant := congrArg Prod.fst hroute
  have hpointer : case.target = middle.target := congrArg Prod.snd hroute
  rw [hvariant, hpointer]
  exact ⟨before, hbefore, htarget, hexecutable, hcallee⟩

/-- Dropping cases from a stub keeps its shape as long as a case is left. -/
theorem WellShaped.filter {stub rest : Stub} {capacity : Nat} (h : stub.WellShaped capacity)
    (keep : Case → Bool) (hrest : rest.cases = stub.cases.filter keep)
    (hnonempty : rest.cases.isEmpty = false) : rest.WellShaped capacity := by
  have hsublist : List.Sublist rest.cases stub.cases := by
    rw [hrest]
    exact List.filter_sublist
  refine ⟨?_, Nat.le_trans hsublist.length_le h.bounded, h.distinct.sublist (hsublist.map _), ?_⟩
  · rw [size, Nat.one_le_iff_ne_zero, Ne, List.length_eq_zero_iff]
    intro hnil
    rw [hnil] at hnonempty
    cases hnonempty
  · exact h.uniform.imp (fun hall case hmem => hall case (hsublist.subset hmem))
      (fun hall case hmem => hall case (hsublist.subset hmem))

/-- Changing targets and hits keeps the shape of a stub. -/
theorem WellShaped.of_variants {stub other : Stub} {capacity : Nat} (h : stub.WellShaped capacity)
    (hvariants : other.cases.map Case.variant = stub.cases.map Case.variant) :
    other.WellShaped capacity := by
  have hlength : other.size = stub.size := by
    simpa [size] using congrArg List.length hvariants
  have hall : ∀ wide, (∀ case ∈ stub.cases, case.variant.isClosure = wide) →
      ∀ case ∈ other.cases, case.variant.isClosure = wide := by
    intro wide hwide case hmem
    have hvariant : case.variant ∈ stub.cases.map Case.variant := by
      rw [← hvariants]
      exact List.mem_map_of_mem hmem
    obtain ⟨before, hbefore, heq⟩ := List.mem_map.mp hvariant
    rw [← heq]
    exact hwide before hbefore
  refine ⟨hlength ▸ h.nonempty, hlength ▸ h.bounded, ?_, h.uniform.imp (hall false) (hall true)⟩
  have hexecutables := congrArg (List.map Variant.executable) hvariants
  rw [List.map_map, List.map_map] at hexecutables
  have hdistinct := h.distinct
  change (stub.cases.map (Variant.executable ∘ Case.variant)).Nodup at hdistinct
  rw [← hexecutables] at hdistinct
  exact hdistinct

theorem variants_eq_of_routes {stub other : Stub} (h : other.routes = stub.routes) :
    other.cases.map Case.variant = stub.cases.map Case.variant := by
  have hfst := congrArg (List.map Prod.fst) h
  rw [routes, routes, List.map_map, List.map_map] at hfst
  exact hfst

end Stub

end InlineCache
