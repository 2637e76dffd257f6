import InlineCache.Proofs.Stub
import Mathlib.Algebra.GroupWithZero.Nat
import Mathlib.Data.List.Induction

/-!
# How stubs grow

Growing a stub puts the cases of one executable together. The first of them says where calls go, and
the hits of all of them are added up. As long as every case is made for one callee and no two have
one executable there is nothing to put together, and the cases stay as they are. Otherwise all of
them are widened. So a stub is refused exactly if it would have to tell more executables apart than
the capacity allows.
-/

namespace InlineCache

/-! ### First occurrences -/

section Distinct

variable {α β : Type} [DecidableEq α] [DecidableEq β]

theorem eraseDups_concat (list : List α) (last : α) :
    (list ++ [last]).eraseDups
      = if last ∈ list then list.eraseDups else list.eraseDups ++ [last] := by
  rw [List.eraseDups_append]
  split
  · rename_i hmem
    simp [List.removeAll, hmem]
  · rename_i hnew
    simp [List.removeAll, hnew, List.eraseDups_cons]

theorem nodup_eraseDups (list : List α) : list.eraseDups.Nodup := by
  induction list using List.reverseRecOn with
  | nil => exact List.nodup_nil
  | append_singleton list last ih =>
      rw [eraseDups_concat]
      split
      · exact ih
      · rename_i hnew
        refine ih.append (List.nodup_singleton last) (List.disjoint_singleton.mpr ?_)
        rwa [List.mem_eraseDups]

theorem eraseDups_of_nodup {list : List α} (h : list.Nodup) : list.eraseDups = list := by
  induction list using List.reverseRecOn with
  | nil => rfl
  | append_singleton list last ih =>
      rw [List.nodup_append] at h
      rw [eraseDups_concat, if_neg fun hmem => h.2.2 _ hmem _ (List.mem_singleton_self _) rfl,
        ih h.1]

theorem length_eraseDups_le (list : List α) : list.eraseDups.length ≤ list.length := by
  induction list using List.reverseRecOn with
  | nil => exact Nat.le_refl _
  | append_singleton list last ih =>
      rw [eraseDups_concat, List.length_append]
      split
      · exact Nat.le_succ_of_le ih
      · rw [List.length_append]
        exact Nat.add_le_add_right ih _

theorem length_eraseDups_le_concat (list : List α) (last : α) :
    list.eraseDups.length ≤ (list ++ [last]).eraseDups.length := by
  rw [eraseDups_concat]
  split
  · exact Nat.le_refl _
  · rw [List.length_append]
    exact Nat.le_add_right _ _

theorem length_eraseDups_eq_iff {list : List α} :
    list.eraseDups.length = list.length ↔ list.Nodup := by
  refine ⟨fun h => ?_, fun h => by rw [eraseDups_of_nodup h]⟩
  induction list using List.reverseRecOn with
  | nil => exact List.nodup_nil
  | append_singleton list last ih =>
      have hle := length_eraseDups_le list
      rw [eraseDups_concat, List.length_append, List.length_singleton] at h
      split at h
      · omega
      · rename_i hnew
        rw [List.length_append, List.length_singleton] at h
        exact (ih (by omega)).append (List.nodup_singleton last) (List.disjoint_singleton.mpr hnew)

/-- Repetitions do not matter to what occurs after a change. -/
theorem eraseDups_map_eraseDups (list : List α) (change : α → β) :
    (list.eraseDups.map change).eraseDups = (list.map change).eraseDups := by
  induction list using List.reverseRecOn with
  | nil => rfl
  | append_singleton list last ih =>
      rw [eraseDups_concat, List.map_append, List.map_singleton, eraseDups_concat]
      split
      · rename_i hmem
        rw [ih, if_pos (List.mem_map_of_mem hmem)]
      · rw [List.map_append, List.map_singleton, eraseDups_concat, ih]
        simp only [List.mem_map, List.mem_eraseDups]

theorem eraseDups_map_of_injOn {list : List α} {change : α → β}
    (hinj : ∀ a ∈ list, ∀ b ∈ list, change a = change b → a = b) :
    (list.map change).eraseDups = list.eraseDups.map change := by
  induction list using List.reverseRecOn with
  | nil => rfl
  | append_singleton list last ih =>
      have hlast : change last ∈ list.map change ↔ last ∈ list := by
        refine ⟨fun hmem => ?_, List.mem_map_of_mem⟩
        obtain ⟨other, hother, heq⟩ := List.mem_map.mp hmem
        rwa [← hinj other (List.mem_append_left _ hother) last (by simp) heq]
      have hrest := ih fun a ha b hb =>
        hinj a (List.mem_append_left _ ha) b (List.mem_append_left _ hb)
      rw [List.map_append, List.map_singleton, eraseDups_concat, eraseDups_concat, hrest]
      by_cases hmem : last ∈ list
      · rw [if_pos hmem, if_pos (hlast.mpr hmem)]
      · rw [if_neg hmem, if_neg (fun hmapped => hmem (hlast.mp hmapped)), List.map_append,
          List.map_singleton]

end Distinct

/-! ### Merging -/

/-- The case stands for a list of cases: it goes where the first of them goes, and has the hits of
all of them, as far as a counter goes. -/
structure Case.Sums (case : Case) (parts : List Case) : Prop where
  target : parts.head?.map Case.target = some case.target
  hits : case.hits = min (parts.map Case.hits).sum word64Max

namespace Case

variable {case : Case} {done input : List Case}

theorem merge_of_new (h : case.variant ∉ done.map Case.variant) :
    case.merge done = done ++ [case] := by
  induction done with
  | nil => rfl
  | cons first rest ih =>
      rw [List.map_cons, List.mem_cons, not_or] at h
      rw [merge, if_neg (Ne.symm h.1), ih h.2, List.cons_append]

/-- A repeated variant changes the hits of the case that is there. -/
theorem merge_of_known (hnodup : (done.map Case.variant).Nodup)
    (h : case.variant ∈ done.map Case.variant) :
    case.merge done = done.map fun known =>
      if known.variant = case.variant then
        { known with hits := addUpTo word64Max known.hits case.hits }
      else known := by
  induction done with
  | nil => cases h
  | cons first rest ih =>
      rw [List.map_cons, List.nodup_cons] at hnodup
      rw [merge, List.map_cons]
      by_cases hfirst : first.variant = case.variant
      · rw [if_pos hfirst, if_pos hfirst]
        congr 1
        -- the variant does not stand a second time
        refine ((List.map_congr_left fun known hknown => if_neg fun heq => ?_).trans
          (List.map_id _)).symm
        exact hnodup.1 (hfirst.trans heq.symm ▸ List.mem_map_of_mem hknown)
      · have hrest := (List.mem_cons.mp h).resolve_left (Ne.symm hfirst)
        rw [if_neg hfirst, if_neg hfirst, ih hnodup.2 hrest]

theorem mergeAll_concat (input : List Case) (case : Case) :
    mergeAll (input ++ [case]) = case.merge (mergeAll input) :=
  List.foldl_append

theorem variants_mergeAll (input : List Case) :
    (mergeAll input).map Case.variant = (input.map Case.variant).eraseDups := by
  induction input using List.reverseRecOn with
  | nil => rfl
  | append_singleton input case ih =>
      rw [mergeAll_concat, merge_variants, ih, List.map_append, List.map_singleton,
        eraseDups_concat]
      simp only [List.mem_eraseDups]

theorem mergeAll_of_nodup (h : (input.map Case.variant).Nodup) : mergeAll input = input := by
  induction input using List.reverseRecOn with
  | nil => rfl
  | append_singleton input case ih =>
      rw [List.map_append, List.map_singleton, List.nodup_append] at h
      rw [mergeAll_concat, ih h.1, merge_of_new]
      exact fun hmem => h.2.2 _ hmem _ (List.mem_singleton_self _) rfl

/-- One more case adds its hits. -/
theorem Sums.concat {parts : List Case} (h : case.Sums parts) (more : Case) :
    Sums { case with hits := addUpTo word64Max case.hits more.hits } (parts ++ [more]) where
  target := by
    have htarget := h.target
    rcases parts with _ | ⟨first, rest⟩
    · cases htarget
    · exact htarget
  hits := by
    have hhits := h.hits
    simp only [addUpTo, List.map_append, List.sum_append, List.map_singleton, List.sum_singleton]
    omega

theorem sums_singleton (h : case.hits ≤ word64Max) : case.Sums [case] where
  target := rfl
  hits := by simp [Nat.min_eq_left h]

/-- A merged case stands for the cases of its variant. -/
theorem sums_of_mem_mergeAll (hwords : ∀ case ∈ input, case.hits ≤ word64Max)
    (h : case ∈ mergeAll input) :
    case.Sums (input.filter fun part => part.variant = case.variant) := by
  induction input using List.reverseRecOn generalizing case with
  | nil => cases h
  | append_singleton input last ih =>
      have hbefore : ∀ {known}, known ∈ mergeAll input →
          known.Sums (input.filter fun part => part.variant = known.variant) :=
        fun hknown => ih (fun part hpart => hwords part (List.mem_append_left _ hpart)) hknown
      rw [mergeAll_concat] at h
      by_cases hvariant : last.variant ∈ (mergeAll input).map Case.variant
      · rw [merge_of_known (merged_mergeAll input).nodup hvariant] at h
        obtain ⟨known, hknown, rfl⟩ := List.mem_map.mp h
        by_cases hsame : known.variant = last.variant
        · rw [if_pos hsame, List.filter_append, List.filter_singleton]
          simpa [hsame] using (hbefore hknown).concat last
        · rw [if_neg hsame, List.filter_append, List.filter_singleton]
          simpa [Ne.symm hsame] using hbefore hknown
      · rw [merge_of_new hvariant] at h
        rw [List.filter_append, List.filter_singleton]
        rcases List.mem_append.mp h with hknown | hlast
        · have hother : last.variant ≠ case.variant := fun heq =>
            hvariant (heq ▸ List.mem_map_of_mem hknown)
          simpa [hother] using hbefore hknown
        · obtain rfl := List.mem_singleton.mp hlast
          have hnone : input.filter (fun part => part.variant = case.variant) = [] := by
            rw [List.filter_eq_nil_iff]
            intro part hpart heq
            refine hvariant ?_
            rw [← of_decide_eq_true heq]
            exact (merged_mergeAll input).covers part hpart
          simpa [hnone] using sums_singleton (hwords case (by simp))

end Case

/-- The executables of cases, each once, in the order in which they first occur. -/
def Case.executables (cases : List Case) : List Cell :=
  (cases.map fun case => case.variant.executable).eraseDups

/-- Every case is made for one callee, and no two cases have one executable. -/
def Case.Narrow (cases : List Case) : Prop :=
  (∀ case ∈ cases, case.variant.isClosure = false) ∧
    (cases.map fun case => case.variant.executable).Nodup

instance (cases : List Case) : Decidable (Case.Narrow cases) :=
  inferInstanceAs (Decidable (_ ∧ _))

/-! ### Growing -/

namespace Stub

variable {cases : List Case} {case : Case}

theorem wide_eq (cases : List Case) :
    (Case.shareExecutable cases || cases.any fun case => case.variant.isClosure)
      = !decide (Case.Narrow cases) := by
  rw [Bool.eq_iff_iff, Bool.or_eq_true, Bool.not_eq_true', decide_eq_false_iff_not, Case.Narrow,
    not_and_or, ← Case.nodup_executables_iff, Bool.not_eq_false, or_comm, List.any_eq_true]
  simp

theorem growthInput_of_narrow (h : Case.Narrow cases) : growthInput cases = cases := by
  rw [growthInput, wide_eq]
  simp [h]

theorem growthInput_of_wide (h : ¬ Case.Narrow cases) :
    growthInput cases = cases.map Case.widened := by
  rw [growthInput, wide_eq]
  simp [h]

/-- The cases of a stub that grows out of `cases`. -/
def grown (cases : List Case) : List Case := Case.mergeAll (growthInput cases)

theorem grown_of_narrow (h : Case.Narrow cases) : grown cases = cases := by
  rw [grown, growthInput_of_narrow h]
  apply Case.mergeAll_of_nodup
  have hexecutables := h.2
  rw [← Function.comp_def, ← List.map_map] at hexecutables
  exact hexecutables.of_map _

theorem isClosure_of_wide (h : ¬ Case.Narrow cases) (hcase : case ∈ grown cases) :
    case.variant.isClosure = true := by
  rw [grown, growthInput_of_wide h] at hcase
  obtain ⟨part, hpart, hroute⟩ := (Case.merged_mergeAll _).route case hcase
  obtain ⟨origin, _, rfl⟩ := List.mem_map.mp hpart
  rw [show case.variant = _ from congrArg Prod.fst hroute]
  rfl

/-- The input of the merging tells cases apart by their executables. -/
theorem filter_growthInput (cases : List Case) (executable : Cell) :
    ∃ change : Case → Case, (∀ case, (change case).target = case.target ∧
        (change case).hits = case.hits) ∧
      ((growthInput cases).filter fun part => part.variant.executable = executable)
        = (cases.filter fun part => part.variant.executable = executable).map change := by
  by_cases h : Case.Narrow cases
  · rw [growthInput_of_narrow h]
    exact ⟨fun part => part, fun _ => ⟨rfl, rfl⟩, (List.map_id' _).symm⟩
  · rw [growthInput_of_wide h, List.filter_map]
    exact ⟨Case.widened, fun _ => ⟨rfl, rfl⟩, rfl⟩

theorem executables_growthInput (cases : List Case) :
    (growthInput cases).map (fun case => case.variant.executable)
      = cases.map fun case => case.variant.executable := by
  by_cases h : Case.Narrow cases
  · rw [growthInput_of_narrow h]
  · rw [growthInput_of_wide h, List.map_map]
    rfl

/-- A grown stub has one case for each executable, in the order in which they first occur. -/
theorem executables_grown (cases : List Case) :
    (grown cases).map (fun case => case.variant.executable) = Case.executables cases := by
  have hapart : (((growthInput cases).map Case.variant).map Variant.executable).eraseDups
      = ((growthInput cases).map Case.variant).eraseDups.map Variant.executable := by
    apply eraseDups_map_of_injOn
    intro left hleft right hright heq
    obtain ⟨a, ha, rfl⟩ := List.mem_map.mp hleft
    obtain ⟨b, hb, rfl⟩ := List.mem_map.mp hright
    exact executable_injective_growthInput cases a ha b hb heq
  rw [Case.executables, ← executables_growthInput cases, ← Function.comp_def, ← List.map_map,
    ← List.map_map, hapart, grown, Case.variants_mergeAll]

/-- A case of a grown stub stands for the cases of its executable. -/
theorem sums_of_mem_grown (hwords : ∀ case ∈ cases, case.hits ≤ word64Max)
    (h : case ∈ grown cases) :
    case.Sums (cases.filter fun part => part.variant.executable = case.variant.executable) := by
  have hinput : ∀ part ∈ growthInput cases, part.hits ≤ word64Max := by
    intro part hpart
    by_cases hnarrow : Case.Narrow cases
    · rw [growthInput_of_narrow hnarrow] at hpart
      exact hwords part hpart
    · rw [growthInput_of_wide hnarrow] at hpart
      obtain ⟨origin, horigin, rfl⟩ := List.mem_map.mp hpart
      exact hwords origin horigin
  obtain ⟨origin, horigin, hroute⟩ := (Case.merged_mergeAll _).route case h
  have hvariant : case.variant = origin.variant := congrArg Prod.fst hroute
  have hsums := Case.sums_of_mem_mergeAll hinput h
  have hfilter : (growthInput cases).filter (fun part => part.variant = case.variant)
      = (growthInput cases).filter fun part =>
          part.variant.executable = case.variant.executable := by
    refine List.filter_congr fun part hpart => decide_eq_decide.mpr ⟨congrArg _, fun heq => ?_⟩
    rw [hvariant] at heq ⊢
    exact executable_injective_growthInput cases part hpart origin horigin heq
  obtain ⟨change, hsame, hchange⟩ := filter_growthInput cases case.variant.executable
  rw [hfilter, hchange] at hsums
  refine ⟨?_, ?_⟩
  · have htarget := hsums.target
    rw [List.head?_map, Option.map_map] at htarget
    rw [← htarget]
    exact congrArg (Option.map · _) (funext fun part => ((hsame part).1).symm)
  · have hhits := hsums.hits
    rw [List.map_map] at hhits
    rw [hhits]
    congr 3
    exact funext fun part => (hsame part).2

theorem grow_eq (id : StubId) (existing : List Case) (variant : Variant) (target : CodePointer)
    (capacity : Nat) :
    let cases := grownFrom existing variant target
    grow id existing variant target capacity =
      if (Case.executables cases).length ≤ capacity then
        .built ⟨id, grown cases⟩
          (!decide (Case.Narrow cases) && cases.any fun case => !case.variant.isClosure)
      else .overflow := by
  intro cases
  rw [← executables_grown, List.length_map, ← wide_eq]
  rfl

/-- A stub is refused exactly if the cases that it would grow out of have more executables than the
capacity allows. Otherwise it has one case for each executable, in the order in which they first
occur, which goes where the first case of the executable goes and has the hits of all of them. The
cases stay as they are if each is made for one callee and all executables are different. If not,
they are all widened, and this is reported if there was one to widen. -/
theorem grow_by_executable (id : StubId) (existing : List Case) (variant : Variant)
    (target : CodePointer) (capacity : Nat) (hwords : ∀ case ∈ existing, case.hits ≤ word64Max) :
    let cases := grownFrom existing variant target
    let executables := Case.executables cases
    (grow id existing variant target capacity = .overflow ↔ capacity < executables.length) ∧
    (executables.length ≤ capacity → ∃ stub widened,
      grow id existing variant target capacity = .built stub widened ∧ stub.id = id ∧
      stub.cases.map (fun case => case.variant.executable) = executables ∧
      (∀ case ∈ stub.cases, case.Sums (cases.filter fun part =>
        part.variant.executable = case.variant.executable)) ∧
      (Case.Narrow cases → stub.cases = cases) ∧
      (¬ Case.Narrow cases → ∀ case ∈ stub.cases, case.variant.isClosure = true) ∧
      (widened = true ↔ (∀ case ∈ stub.cases, case.variant.isClosure = true) ∧
        ∃ case ∈ cases, case.variant.isClosure = false)) := by
  intro cases executables
  have hgrow := grow_eq id existing variant target capacity
  have hall : ∀ case ∈ cases, case.hits ≤ word64Max := by
    intro case hcase
    rcases List.mem_append.mp hcase with hold | hnew
    · exact hwords case hold
    · rw [List.mem_singleton.mp hnew]
      exact Nat.zero_le _
  refine ⟨?_, fun hfits => ⟨⟨id, grown cases⟩, _, hgrow.trans (if_pos hfits), rfl,
    executables_grown cases, fun _ => sums_of_mem_grown hall, grown_of_narrow,
    fun hwide _ => isClosure_of_wide hwide, ?_⟩⟩
  · rw [hgrow]
    split
    · rename_i hfits
      exact iff_of_false (by simp) (Nat.not_lt.mpr hfits)
    · rename_i hmore
      exact iff_of_true rfl (Nat.not_le.mp hmore)
  · change (!decide (Case.Narrow cases) && cases.any fun case => !case.variant.isClosure) = true ↔ _
    rw [Bool.and_eq_true, Bool.not_eq_true', decide_eq_false_iff_not, List.any_eq_true]
    simp only [Bool.not_eq_true']
    refine and_congr_left fun hsome => ⟨fun hwide _ => isClosure_of_wide hwide, ?_⟩
    intro hclosures hnarrow
    obtain ⟨case, hcase, hfunction⟩ := hsome
    rw [grown_of_narrow hnarrow] at hclosures
    have hclosure := hclosures case hcase
    rw [hfunction] at hclosure
    cases hclosure

/-- Cases of three callees and of all closures of an executable. The hits of the first are at the
limit. -/
def mixedCases : List Case :=
  [{ variant := .function ⟨4, 0⟩ ⟨1, 0⟩, target := ⟨⟨1⟩, ⟨1⟩⟩, hits := word64Max },
   { variant := .closure ⟨2, 0⟩, target := ⟨⟨2⟩, ⟨2⟩⟩, hits := 3 },
   { variant := .function ⟨5, 0⟩ ⟨1, 0⟩, target := ⟨⟨3⟩, ⟨3⟩⟩, hits := 5 }]

/-- Four cases of two executables fit into a stub of two. -/
theorem grow_by_executable_mixed :
    (∀ case ∈ mixedCases, case.hits ≤ word64Max) ∧
    ∃ stub, grow ⟨1⟩ mixedCases (.function ⟨6, 0⟩ ⟨2, 0⟩) ⟨⟨4⟩, ⟨4⟩⟩ 2 = .built stub true ∧
      stub.cases.map (fun case => case.variant.executable) = [⟨1, 0⟩, ⟨2, 0⟩] ∧
      ∀ case ∈ stub.cases, case.variant.isClosure = true ∧ case.Sums
        ((grownFrom mixedCases (.function ⟨6, 0⟩ ⟨2, 0⟩) ⟨⟨4⟩, ⟨4⟩⟩).filter fun part =>
          part.variant.executable = case.variant.executable) := by
  have hwords : ∀ case ∈ mixedCases, case.hits ≤ word64Max := by decide
  obtain ⟨_, hbuilt⟩ := grow_by_executable ⟨1⟩ mixedCases (.function ⟨6, 0⟩ ⟨2, 0⟩)
    ⟨⟨4⟩, ⟨4⟩⟩ 2 hwords
  obtain ⟨stub, widened, hgrow, _, hexecutables, hsums, _, hclosures, hwidened⟩ :=
    hbuilt (by decide)
  have hwide := hclosures (by decide)
  obtain rfl : widened = true := hwidened.mpr ⟨hwide, by decide⟩
  exact ⟨hwords, stub, hgrow, hexecutables, fun case hcase => ⟨hwide case hcase, hsums case hcase⟩⟩

end Stub

end InlineCache
