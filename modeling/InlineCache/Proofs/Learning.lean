import InlineCache.Proofs.Growth
import InlineCache.Proofs.Link.Actions
import InlineCache.Proofs.Machine.Calls

/-!
# What a link has learned

A site that is not direct learns from the calls that it makes. What it has learned depends only on
the callees so far and on their executables: on how many of each there are, and on the order in
which they first occurred. This module says what the record of a site is for a history of callees,
and that one more call keeps it so, whether the slot serves the call or the call is linked.
-/

namespace InlineCache

/-! ### Callees and executables -/

section History

variable (executableOf : Cell → Cell) {callees : List Cell} {callee : Cell}

/-- The cases that tell callees apart. There is one for each callee as long as no two of them have
one executable, and one for each executable otherwise. -/
def variantsFor (callees : List Cell) : List Variant :=
  if (callees.map executableOf).eraseDups.length = callees.eraseDups.length then
    callees.eraseDups.map fun callee => .function callee (executableOf callee)
  else (callees.map executableOf).eraseDups.map .closure

theorem length_executables_le (callees : List Cell) :
    (callees.map executableOf).eraseDups.length ≤ callees.eraseDups.length := by
  rw [← eraseDups_map_eraseDups]
  exact Nat.le_trans (length_eraseDups_le _) (Nat.le_of_eq (List.length_map _))

theorem length_executables_eq_iff :
    (callees.map executableOf).eraseDups.length = callees.eraseDups.length ↔
      (callees.eraseDups.map executableOf).Nodup := by
  rw [← eraseDups_map_eraseDups, ← length_eraseDups_eq_iff, List.length_map]

/-- There is one case for each executable, in the order in which they first occur. -/
theorem executables_variantsFor (callees : List Cell) :
    (variantsFor executableOf callees).map Variant.executable
      = (callees.map executableOf).eraseDups := by
  rw [variantsFor]
  split
  · rename_i hnarrow
    rw [List.map_map, ← eraseDups_map_eraseDups,
      eraseDups_of_nodup ((length_executables_eq_iff executableOf).mp hnarrow)]
    rfl
  · rw [List.map_map]
    exact List.map_id _

theorem length_executables_concat_le (callees : List Cell) (callee : Cell) :
    ((callees ++ [callee]).map executableOf).eraseDups.length
      ≤ (callees.map executableOf).eraseDups.length + 1 := by
  rw [List.map_append, List.map_singleton, eraseDups_concat]
  split
  · exact Nat.le_succ _
  · exact Nat.le_of_eq List.length_append

theorem forall_isClosure_variantsFor :
    (∀ variant ∈ variantsFor executableOf callees, variant.isClosure = false) ↔
      (callees.map executableOf).eraseDups.length = callees.eraseDups.length := by
  rw [variantsFor]
  split
  · rename_i hnarrow
    refine iff_of_true (fun variant hvariant => ?_) hnarrow
    obtain ⟨known, _, rfl⟩ := List.mem_map.mp hvariant
    rfl
  · rename_i hwide
    refine iff_of_false (fun hfunctions => ?_) hwide
    have hsome : callees ≠ [] := by
      rintro rfl
      exact hwide rfl
    obtain ⟨first, hfirst⟩ := List.exists_mem_of_ne_nil _ hsome
    cases hfunctions (.closure (executableOf first)) (List.mem_map_of_mem
      (List.mem_eraseDups.mpr (List.mem_map_of_mem hfirst)))

theorem isClosure_of_mem_variantsFor {variant : Variant}
    (hwide : (callees.map executableOf).eraseDups.length < callees.eraseDups.length)
    (h : variant ∈ variantsFor executableOf callees) : variant.isClosure = true := by
  rw [variantsFor, if_neg (Nat.ne_of_lt hwide)] at h
  obtain ⟨known, _, rfl⟩ := List.mem_map.mp h
  rfl

theorem accepts_of_mem (h : callee ∈ callees) :
    ∃ variant ∈ variantsFor executableOf callees,
      variant.accepts callee (executableOf callee) = true := by
  rw [variantsFor]
  split
  · exact ⟨_, List.mem_map_of_mem (List.mem_eraseDups.mpr h), beq_self_eq_true callee⟩
  · exact ⟨_, List.mem_map_of_mem (List.mem_eraseDups.mpr (List.mem_map_of_mem h)),
      beq_self_eq_true _⟩

theorem variantsFor_concat_of_accepts {variant : Variant}
    (hvariant : variant ∈ variantsFor executableOf callees)
    (haccepts : variant.accepts callee (executableOf callee) = true) :
    ((callees ++ [callee]).map executableOf).eraseDups = (callees.map executableOf).eraseDups ∧
      variantsFor executableOf (callees ++ [callee]) = variantsFor executableOf callees := by
  rw [variantsFor] at hvariant
  split at hvariant
  · rename_i hnarrow
    obtain ⟨known, hknown, rfl⟩ := List.mem_map.mp hvariant
    obtain rfl : known = callee := beq_iff_eq.mp haccepts
    have hmem := List.mem_eraseDups.mp hknown
    have hsame : ((callees ++ [known]).map executableOf).eraseDups
        = (callees.map executableOf).eraseDups := by
      rw [List.map_append, List.map_singleton, eraseDups_concat,
        if_pos (List.mem_map_of_mem hmem)]
    refine ⟨hsame, ?_⟩
    rw [variantsFor, variantsFor, hsame, eraseDups_concat, if_pos hmem]
  · rename_i hwide
    obtain ⟨known, hknown, rfl⟩ := List.mem_map.mp hvariant
    obtain rfl : known = executableOf callee := beq_iff_eq.mp haccepts
    have hsame : ((callees ++ [callee]).map executableOf).eraseDups
        = (callees.map executableOf).eraseDups := by
      rw [List.map_append, List.map_singleton, eraseDups_concat,
        if_pos (List.mem_eraseDups.mp hknown)]
    have hle := length_executables_le executableOf callees
    have hmore := length_eraseDups_le_concat callees callee
    refine ⟨hsame, ?_⟩
    rw [variantsFor, variantsFor, hsame, if_neg hwide, if_neg (by omega)]

/-! ### Growing for one more callee -/

variable {existing : List Case}

theorem executables_grownFrom
    (hexisting : existing.map Case.variant = variantsFor executableOf callees)
    (callee : Cell) (target : CodePointer) :
    Case.executables (Stub.grownFrom existing (.function callee (executableOf callee)) target)
      = ((callees ++ [callee]).map executableOf).eraseDups := by
  have hbefore := congrArg List.eraseDups (executables_variantsFor executableOf callees)
  rw [← hexisting, List.map_map, eraseDups_of_nodup (nodup_eraseDups _)] at hbefore
  have hmem : executableOf callee ∈ existing.map (Variant.executable ∘ Case.variant) ↔
      executableOf callee ∈ callees.map executableOf := by
    rw [← List.mem_eraseDups, hbefore, List.mem_eraseDups]
  rw [Case.executables, Stub.grownFrom, List.map_append, List.map_singleton, List.map_append,
    List.map_singleton, eraseDups_concat, eraseDups_concat, ← hbefore]
  exact if_congr hmem rfl rfl

theorem narrow_grownFrom_iff
    (hexisting : existing.map Case.variant = variantsFor executableOf callees)
    (hnew : callee ∉ callees) (target : CodePointer) :
    Case.Narrow (Stub.grownFrom existing (.function callee (executableOf callee)) target) ↔
      ((callees ++ [callee]).map executableOf).eraseDups.length
        = (callees ++ [callee]).eraseDups.length := by
  have hcallees : (callees ++ [callee]).eraseDups = callees.eraseDups ++ [callee] := by
    rw [eraseDups_concat, if_neg hnew]
  have hfunctions : (∀ case ∈ Stub.grownFrom existing (.function callee (executableOf callee))
        target, case.variant.isClosure = false) ↔
      (callees.map executableOf).eraseDups.length = callees.eraseDups.length := by
    rw [← forall_isClosure_variantsFor, ← hexisting, List.forall_mem_map, Stub.grownFrom,
      List.forall_mem_append]
    exact and_iff_left (List.forall_mem_singleton.mpr rfl)
  rw [Case.Narrow, hfunctions]
  by_cases hbefore : (callees.map executableOf).eraseDups.length = callees.eraseDups.length
  · have hexecutables : existing.map (fun case => case.variant.executable)
        = callees.eraseDups.map executableOf := by
      rw [variantsFor, if_pos hbefore] at hexisting
      rw [← Function.comp_def Variant.executable, ← List.map_map, hexisting, List.map_map]
      rfl
    rw [and_iff_right hbefore, length_executables_eq_iff, hcallees, List.map_append,
      ← hexecutables, Stub.grownFrom, List.map_append]
    rfl
  · -- one more executable cannot make up for those that are shared
    refine iff_of_false (fun hnarrow => hbefore hnarrow.1) ?_
    have hle := length_executables_le executableOf callees
    have hmore := length_executables_concat_le executableOf callees callee
    rw [hcallees, List.length_append, List.length_singleton]
    omega

/-- A stub that grows for a new callee has the cases for the longer history. -/
theorem variants_grown
    (hexisting : existing.map Case.variant = variantsFor executableOf callees)
    (hnew : callee ∉ callees) (target : CodePointer) :
    (Stub.grown (Stub.grownFrom existing (.function callee (executableOf callee)) target)).map
      Case.variant = variantsFor executableOf (callees ++ [callee]) := by
  have hnarrow := narrow_grownFrom_iff executableOf hexisting hnew target
  have hexecutables := executables_grownFrom executableOf hexisting callee target
  by_cases h : Case.Narrow (Stub.grownFrom existing (.function callee (executableOf callee)) target)
  · have hbefore : (callees.map executableOf).eraseDups.length = callees.eraseDups.length := by
      have hlengths := hnarrow.mp h
      have hle := length_executables_le executableOf callees
      have hmore := length_executables_concat_le executableOf callees callee
      rw [eraseDups_concat, if_neg hnew, List.length_append, List.length_singleton] at hlengths
      omega
    rw [Stub.grown_of_narrow h, Stub.grownFrom, List.map_append, hexisting, variantsFor,
      if_pos hbefore, variantsFor, if_pos (hnarrow.mp h), eraseDups_concat, if_neg hnew,
      List.map_append]
    rfl
  · rw [variantsFor, if_neg (mt hnarrow.mpr h), ← hexecutables, ← Stub.executables_grown,
      List.map_map]
    refine List.map_congr_left fun case hcase => ?_
    have hclosure := Stub.isClosure_of_wide h hcase
    rcases hvariant : case.variant with ⟨expected, executable⟩ | executable
    · rw [hvariant] at hclosure
      cases hclosure
    · rw [Function.comp_apply, hvariant]
      rfl

end History

/-! ### The record of a site -/

/-- The mode of a site that has called so many callees with so many executables. -/
def LinkMode.learned (capacity callees executables : Nat) : LinkMode :=
  if callees = 0 then .init
  else if capacity < executables then .virtual
  else if callees = 1 then .monomorphic
  else .polymorphic

namespace Link

variable {executableOf : Cell → Cell} {capacity : Nat} {callees : List Cell} {callee : Cell}
  {link after : Link} {heap : Heap Entity} {pointer : CodePointer}

/-- The record of a site is what calls to the callees in turn leave. -/
inductive Learned (executableOf : Cell → Cell) (capacity : Nat) (callees : List Cell)
    (link : Link) : Prop where
  | unlinked (hstate : link.state = .unlinked) (htarget : link.site.target = .slowPath)
      (hnone : callees = [])
  | monomorphic {callee : Cell} {pointer : CodePointer}
      (hstate : link.state = .monomorphic (.ofCell callee) pointer)
      (htarget : link.site.target = .guarded callee pointer) (hone : callees.eraseDups = [callee])
  | polymorphic {stub : Stub} (hstate : link.state = .polymorphic stub)
      (htarget : link.site.target = .stub stub) (hsome : 1 < callees.eraseDups.length)
      (hfits : (callees.map executableOf).eraseDups.length ≤ capacity)
      (hcases : stub.cases.map Case.variant = variantsFor executableOf callees)
  | virtual (hstate : link.state = .virtual) (htarget : link.site.target = .virtual)
      (hmore : capacity < (callees.map executableOf).eraseDups.length)

theorem learned_fresh (descriptor : SiteDescriptor) (locations : Locations) (ceiling : Nat) :
    (fresh descriptor locations ceiling).Learned executableOf capacity [] :=
  .unlinked rfl rfl rfl

namespace Learned

theorem mode_eq (h : link.Learned executableOf capacity callees) (hcapacity : 1 ≤ capacity) :
    link.mode = LinkMode.learned capacity callees.eraseDups.length
      (callees.map executableOf).eraseDups.length := by
  have hle := length_executables_le executableOf callees
  rw [Link.mode, LinkMode.learned]
  cases h with
  | unlinked hstate _ hnone => rw [hstate, hnone]; rfl
  | monomorphic hstate _ hone =>
      rw [hone, List.length_singleton] at hle ⊢
      rw [hstate, if_neg Nat.one_ne_zero, if_neg (by omega), if_pos rfl]
      rfl
  | polymorphic hstate _ hsome hfits _ =>
      rw [hstate, if_neg (by omega), if_neg (by omega), if_neg (by omega)]
      rfl
  | virtual hstate _ hmore =>
      rw [hstate, if_neg (by omega), if_pos hmore]
      rfl

/-- The stub of a polymorphic site has one case for each executable, in the order in which they
first occur. Each case is made for one callee as long as no two callees have one executable. -/
theorem cases_of_stub (h : link.Learned executableOf capacity callees) {stub : Stub}
    (hstub : link.state = .polymorphic stub) :
    stub.cases.map (fun case => case.variant.executable) = (callees.map executableOf).eraseDups ∧
    (callees.eraseDups.length = (callees.map executableOf).eraseDups.length →
      ∀ case ∈ stub.cases, case.variant.isClosure = false) ∧
    ((callees.map executableOf).eraseDups.length < callees.eraseDups.length →
      ∀ case ∈ stub.cases, case.variant.isClosure = true) := by
  cases h with
  | unlinked hstate => cases hstate.symm.trans hstub
  | monomorphic hstate => cases hstate.symm.trans hstub
  | polymorphic hstate _ _ _ hcases =>
      obtain rfl := LinkState.polymorphic.inj (hstate.symm.trans hstub)
      refine ⟨?_, fun hnarrow case hcase => ?_, fun hwide case hcase => ?_⟩
      · rw [← executables_variantsFor, ← hcases, List.map_map]
        rfl
      · exact (forall_isClosure_variantsFor executableOf).mpr hnarrow.symm _
          (hcases ▸ List.mem_map_of_mem hcase)
      · exact isClosure_of_mem_variantsFor executableOf hwide (hcases ▸ List.mem_map_of_mem hcase)
  | virtual hstate => cases hstate.symm.trans hstub

theorem mode_ne_virtual (h : link.Learned executableOf capacity callees)
    (hfits : (callees.map executableOf).eraseDups.length ≤ capacity) : link.mode ≠ .virtual := by
  rw [Link.mode]
  cases h with
  | unlinked hstate => rw [hstate]; rintro ⟨⟩
  | monomorphic hstate => rw [hstate]; rintro ⟨⟩
  | polymorphic hstate => rw [hstate]; rintro ⟨⟩
  | virtual _ _ hmore => exact absurd hfits (Nat.not_le.mpr hmore)

theorem fast?_of_mem (h : link.Learned executableOf capacity callees)
    (hmode : link.mode ≠ .virtual) (hmem : callee ∈ callees)
    (hexecutable : heap.executableOf? callee = some (executableOf callee)) :
    ∃ pointer, link.site.target.fast? heap callee = some pointer := by
  cases h with
  | unlinked _ _ hnone =>
      rw [hnone] at hmem
      cases hmem
  | monomorphic _ htarget hone =>
      have hcallee := List.mem_eraseDups.mpr hmem
      rw [hone, List.mem_singleton] at hcallee
      rw [htarget, hcallee]
      exact ⟨_, if_pos rfl⟩
  | polymorphic _ htarget _ _ hcases =>
      obtain ⟨variant, hvariant, haccepts⟩ := accepts_of_mem executableOf hmem
      rw [htarget, Target.fast?, hexecutable]
      exact Stub.dispatch?_of_accepts (hcases ▸ hvariant) haccepts
  | virtual hstate => exact absurd (congrArg LinkState.mode hstate) hmode

theorem of_fast? (h : link.Learned executableOf capacity callees)
    (hexecutable : heap.executableOf? callee = some (executableOf callee))
    (hfast : link.site.target.fast? heap callee = some pointer) :
    link.Learned executableOf capacity (callees ++ [callee]) := by
  cases h with
  | unlinked _ htarget _ =>
      rw [htarget] at hfast
      cases hfast
  | @monomorphic known _ hstate htarget hone =>
      rw [htarget, Target.fast?, Option.ite_none_right_eq_some] at hfast
      obtain ⟨rfl, _⟩ := hfast
      have hmem : known ∈ callees := by
        rw [← List.mem_eraseDups, hone]
        exact List.mem_singleton_self _
      refine .monomorphic hstate htarget ?_
      rw [eraseDups_concat, if_pos hmem, hone]
  | polymorphic hstate htarget hsome hfits hcases =>
      rw [htarget, Target.fast?, hexecutable] at hfast
      obtain ⟨variant, hroute, haccepts⟩ := Stub.route_of_dispatch? hfast
      obtain ⟨case, hcase, heq⟩ := Stub.mem_routes.mp hroute
      have hvariant := List.mem_map_of_mem (f := Case.variant) hcase
      rw [hcases, show case.variant = variant from congrArg Prod.fst heq] at hvariant
      obtain ⟨hexecutables, hsame⟩ := variantsFor_concat_of_accepts executableOf hvariant haccepts
      refine .polymorphic hstate htarget (Nat.lt_of_lt_of_le hsome ?_) (hexecutables ▸ hfits)
        (hcases.trans hsame.symm)
      exact length_eraseDups_le_concat callees callee
  | virtual _ htarget _ =>
      rw [htarget] at hfast
      cases hfast

theorem length_pos (h : link.Learned executableOf capacity callees)
    (hmode : link.mode = .monomorphic ∨ link.mode = .polymorphic) :
    0 < callees.eraseDups.length := by
  rw [Link.mode] at hmode
  cases h with
  | unlinked hstate => simp [hstate, LinkState.mode] at hmode
  | monomorphic _ _ hone => rw [hone]; exact Nat.one_pos
  | polymorphic _ _ hsome => exact Nat.lt_trans Nat.one_pos hsome
  | virtual hstate => simp [hstate, LinkState.mode] at hmode

/-- A site that has gone virtual learns nothing more. -/
theorem of_virtual (h : link.Learned executableOf capacity callees)
    (hvirtual : link.site.target = .virtual) (callee : Cell) :
    link.Learned executableOf capacity (callees ++ [callee]) := by
  cases h with
  | unlinked _ htarget => cases htarget.symm.trans hvirtual
  | monomorphic _ htarget => cases htarget.symm.trans hvirtual
  | polymorphic _ htarget => cases htarget.symm.trans hvirtual
  | virtual hstate htarget hmore =>
      refine .virtual hstate htarget (Nat.lt_of_lt_of_le hmore ?_)
      rw [List.map_append, List.map_singleton]
      exact length_eraseDups_le_concat _ _

theorem recordSlowPath (h : link.Learned executableOf capacity callees) (callee : Cell) :
    (link.recordSlowPath callee).Learned executableOf capacity callees := by
  cases h with
  | unlinked hstate htarget hnone => exact .unlinked hstate htarget hnone
  | monomorphic hstate htarget hone => exact .monomorphic hstate htarget hone
  | polymorphic hstate htarget hsome hfits hcases =>
      exact .polymorphic hstate htarget hsome hfits hcases
  | virtual hstate htarget hmore => exact .virtual hstate htarget hmore

theorem hitStub (h : link.Learned executableOf capacity callees) (callee executable : Cell) :
    (link.hitStub callee executable).Learned executableOf capacity callees := by
  rw [Link.hitStub]
  cases h with
  | unlinked hstate htarget hnone => exact .unlinked (by rw [hstate]) (by rw [htarget]) hnone
  | monomorphic hstate htarget hone => exact .monomorphic (by rw [hstate]) (by rw [htarget]) hone
  | polymorphic hstate htarget hsome hfits hcases =>
      refine .polymorphic (by rw [hstate]) (by rw [htarget]) hsome hfits ?_
      rw [Stub.variants_eq_of_routes (Stub.routes_hit _ callee executable), hcases]
  | virtual hstate htarget hmore => exact .virtual (by rw [hstate]) (by rw [htarget]) hmore

end Learned

end Link

/-! ### Linking one more callee -/

namespace Linker

open Link

variable {executableOf : Cell → Cell} {capacity : Nat} {callees : List Cell} {linker : Linker}
  {heap : Heap Entity} {callee : Resolved}

theorem contains_of_executableOf? {cell executable : Cell}
    (h : heap.executableOf? cell = some executable) : heap.contains cell = true := by
  obtain ⟨closure, hclosure, _⟩ := Option.map_eq_some_iff.mp h
  exact Heap.contains_iff.mpr ⟨_, Heap.closure?_eq_some_iff.mp hclosure⟩

theorem variants_existingCases {link : Link} (h : link.Learned executableOf capacity callees)
    (hmode : link.mode = .monomorphic ∨ link.mode = .polymorphic)
    (hheap : ∀ known ∈ callees, heap.executableOf? known = some (executableOf known)) :
    (existingCases heap link).map Case.variant = variantsFor executableOf callees := by
  cases h with
  | unlinked hstate => simp [mode, hstate, LinkState.mode] at hmode
  | @monomorphic known pointer hstate _ hone =>
      have hmem : known ∈ callees := by
        rw [← List.mem_eraseDups, hone]
        exact List.mem_singleton_self _
      have hknown := hheap known hmem
      have hlive : (WeakRef.ofCell known).get? heap.contains = some known :=
        Option.filter_eq_some_iff.mpr ⟨rfl, contains_of_executableOf? hknown⟩
      have hexecutables : (callees.map executableOf).eraseDups = [executableOf known] := by
        rw [← eraseDups_map_eraseDups, hone]
        exact eraseDups_of_nodup (List.nodup_singleton _)
      rw [existingCases, hstate]
      dsimp only
      rw [hlive]
      dsimp only
      rw [hknown, variantsFor, hone, hexecutables]
      rfl
  | polymorphic hstate _ _ _ hcases => rw [existingCases, hstate, ← hcases]
  | virtual hstate => simp [mode, hstate, LinkState.mode] at hmode

theorem linkPolymorphic_learned (h : linker.link.Learned executableOf capacity callees)
    (hmode : linker.link.mode = .monomorphic ∨ linker.link.mode = .polymorphic)
    (hallowed : linker.link.stubsAllowed = true)
    (hheap : ∀ known ∈ callees, heap.executableOf? known = some (executableOf known))
    (hexecutable : callee.executable = executableOf callee.callee)
    (hnew : callee.callee ∉ callees) (owner : Cell) :
    let after := (linker.linkPolymorphic heap owner capacity callee).2.link
    after.Learned executableOf capacity (callees ++ [callee.callee]) ∧
      after.stubsAllowed = true := by
  have hexisting := variants_existingCases h hmode hheap
  have hexecutables := executables_grownFrom executableOf hexisting callee.callee callee.target
  have hvariants := variants_grown executableOf hexisting hnew callee.target
  have hgrow := Stub.grow_eq linker.lastStub.next (existingCases heap linker.link)
    (.function callee.callee (executableOf callee.callee)) callee.target capacity
  dsimp only at hgrow
  rw [hexecutables] at hgrow
  rw [linkPolymorphic, if_neg (by rw [hallowed]; decide), hexecutable]
  dsimp only
  by_cases hfits : ((callees ++ [callee.callee]).map executableOf).eraseDups.length ≤ capacity
  · rw [hgrow, if_pos hfits]
    have hsome : 1 < (callees ++ [callee.callee]).eraseDups.length := by
      rw [eraseDups_concat, if_neg hnew, List.length_append, List.length_singleton]
      exact Nat.succ_lt_succ (h.length_pos hmode)
    obtain ⟨edit, hset⟩ := setStub_of_mode hmode hallowed owner ⟨linker.lastStub.next,
      Stub.grown (Stub.grownFrom (existingCases heap linker.link)
        (.function callee.callee (executableOf callee.callee)) callee.target)⟩
    obtain ⟨_, _, hstate, htarget⟩ := setStub_ok hset
    dsimp only
    rw [hset]
    exact ⟨.polymorphic hstate htarget hsome hfits hvariants,
      (setStub_tightens hset).stubsAllowed_eq.trans hallowed⟩
  · rw [hgrow, if_neg hfits]
    have hlinked : linker.link.mode ≠ .virtual := by
      rcases hmode with hmode | hmode <;> rw [hmode] <;> decide
    dsimp only
    rw [goVirtual_link, setVirtual, if_neg hlinked]
    exact ⟨.virtual rfl rfl (Nat.not_le.mp hfits), hallowed⟩

theorem linkCall_learned (h : linker.link.Learned executableOf capacity callees)
    (hdirect : linker.link.isDirect = false) (hallowed : linker.link.stubsAllowed = true)
    (hheap : ∀ known ∈ callees, heap.executableOf? known = some (executableOf known))
    (hexecutable : callee.executable = executableOf callee.callee)
    (hnew : linker.link.mode ≠ .virtual → callee.callee ∉ callees) (owner : Cell) :
    let after := (linker.linkCall heap owner capacity callee).2.link
    after.Learned executableOf capacity (callees ++ [callee.callee]) ∧
      after.stubsAllowed = true := by
  rw [linkCall, if_neg (by rw [hdirect]; decide)]
  have hlearned := h
  cases h with
  | unlinked hstate htarget hnone =>
      have hmode : linker.link.mode = .init := by rw [mode, hstate]; rfl
      obtain ⟨edit, hset⟩ := setMonomorphic_of_mode hmode hdirect owner callee.callee callee.target
      obtain ⟨_, _, _, hafter, hslot⟩ := setMonomorphic_ok hset
      rw [hmode]
      dsimp only
      rw [hset, hnone]
      exact ⟨.monomorphic hafter hslot (eraseDups_of_nodup (List.nodup_singleton _)),
        (setMonomorphic_tightens hset).stubsAllowed_eq.trans hallowed⟩
  | monomorphic hstate =>
      have hmode : linker.link.mode = .monomorphic := by rw [mode, hstate]; rfl
      rw [hmode]
      exact linkPolymorphic_learned hlearned (.inl hmode) hallowed hheap hexecutable
        (hnew (by rw [hmode]; decide)) owner
  | polymorphic hstate =>
      have hmode : linker.link.mode = .polymorphic := by rw [mode, hstate]; rfl
      rw [hmode]
      exact linkPolymorphic_learned hlearned (.inr hmode) hallowed hheap hexecutable
        (hnew (by rw [hmode]; decide)) owner
  | virtual hstate htarget hmore =>
      have hmode : linker.link.mode = .virtual := by rw [mode, hstate]; rfl
      rw [hmode]
      exact ⟨hlearned.of_virtual htarget callee.callee, hallowed⟩

end Linker

end InlineCache
