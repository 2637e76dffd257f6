import InlineCache.Proofs.Collecting

/-!
# What the collector's visit leaves of a link

Between marking and sweeping the collector visits every record. The visit has three outcomes, and
each says exactly what was found: no cell of the link is dead, all of the link is lost, or some
cases of a stub are dropped while others stay. What stays is untouched, and a second visit with the
same cells alive finds nothing to do.

A stub without cases would be kept although nothing is left of it. Stubs are made by growing, and
no operation empties one, so records never hold such a stub.
-/

namespace InlineCache

/-- The cases of the stub that a link state holds. -/
def LinkState.cases : LinkState → List Case
  | .polymorphic stub => stub.cases
  | _ => []

/-- The cases of the stub that a slot holds. -/
def Target.cases : Target → List Case
  | .stub routine => routine.cases
  | _ => []

/-- Nothing is left of the link: the cell that it was made for is dead, or each case of its stub
names a dead cell. -/
def LinkState.Lost (isLive : Cell → Bool) : LinkState → Prop
  | .monomorphic callee _ => ∃ cell ∈ callee.target, isLive cell = false
  | .direct executable _ => ∃ cell ∈ executable.target, isLive cell = false
  | .polymorphic stub => ∀ case ∈ stub.cases, ∃ cell ∈ case.variant.cells, isLive cell = false
  | .unlinked => False
  | .virtual => False

variable {isLive : Cell → Bool}

theorem Variant.isLive_eq_false_iff {variant : Variant} :
    variant.isLive isLive = false ↔ ∃ cell ∈ variant.cells, isLive cell = false := by
  rw [Variant.isLive, List.all_eq_false]
  simp only [Bool.not_eq_true]

namespace LinkState

variable {state : LinkState} {case : Case}

theorem isLive_of_live (hlive : ∀ cell ∈ state.dependents, isLive cell = true)
    (hcase : case ∈ state.cases) : case.variant.isLive isLive = true := by
  cases state with
  | polymorphic stub =>
      refine List.all_eq_true.mpr fun cell hcell => hlive cell ?_
      exact List.mem_flatMap.mpr ⟨case, hcase, hcell⟩
  | unlinked => cases hcase
  | monomorphic callee target => cases hcase
  | virtual => cases hcase
  | direct executable target => cases hcase

theorem Lost.isLive_eq_false (h : state.Lost isLive) (hcase : case ∈ state.cases) :
    case.variant.isLive isLive = false := by
  cases state with
  | polymorphic stub => exact Variant.isLive_eq_false_iff.mpr (h case hcase)
  | unlinked => cases hcase
  | monomorphic callee target => cases hcase
  | virtual => cases hcase
  | direct executable target => cases hcase

/-- A link that is lost names a dead cell, unless it has a stub without cases. -/
theorem Lost.dead (h : state.Lost isLive)
    (hfilled : ∀ stub, state = .polymorphic stub → stub.cases ≠ []) :
    ∃ cell ∈ state.dependents, isLive cell = false := by
  cases state with
  | polymorphic stub =>
      obtain ⟨case, hcase⟩ := List.exists_mem_of_ne_nil _ (hfilled stub rfl)
      obtain ⟨cell, hcell, hdead⟩ := h case hcase
      exact ⟨cell, List.mem_flatMap.mpr ⟨case, hcase, hcell⟩, hdead⟩
  | unlinked => cases h
  | monomorphic callee target =>
      obtain ⟨cell, hcell, hdead⟩ := h
      exact ⟨cell, Option.mem_toList.mpr hcell, hdead⟩
  | virtual => cases h
  | direct executable target =>
      obtain ⟨cell, hcell, hdead⟩ := h
      exact ⟨cell, Option.mem_toList.mpr hcell, hdead⟩

end LinkState

theorem WeakRef.dead_of_visit {ref cleared : WeakRef} (h : ref.visit isLive = (true, cleared)) :
    ∃ cell ∈ ref.target, isLive cell = false := by
  rw [visit] at h
  rcases htarget : ref.target with _ | cell
  · simp [htarget] at h
  · rcases hlive : isLive cell
    · exact ⟨cell, rfl, hlive⟩
    · simp [htarget, hlive] at h

theorem WeakRef.live_of_visit {ref kept : WeakRef} (h : ref.visit isLive = (false, kept)) :
    ∀ cell ∈ ref.target.toList, isLive cell = true := by
  rw [visit] at h
  rcases htarget : ref.target with _ | cell
  · simp
  · rcases hlive : isLive cell
    · simp [htarget, hlive] at h
    · simp [hlive]

theorem WeakRef.visit_of_live {ref : WeakRef} (h : ∀ cell ∈ ref.target.toList, isLive cell = true) :
    ref.visit isLive = (false, ref) := by
  rw [visit]
  rcases htarget : ref.target with _ | cell
  · rfl
  · rw [htarget] at h
    simp [h cell (by simp)]

namespace Link

variable {link after : Link} {state : LinkState} {site : CallSite} {outcome : WeakOutcome}

/-! ### The three outcomes -/

/-- What the visit of a record finds in its state, and what it leaves of state and slot. -/
inductive Visited (isLive : Cell → Bool) (state : LinkState) (site : CallSite) (after : Link) :
    WeakOutcome → Prop where
  | kept (hlive : ∀ cell ∈ state.dependents, isLive cell = true)
      (hstate : after.state = state) (hsite : after.site = site) :
      Visited isLive state site after .unchanged
  | lost (hlost : state.Lost isLive) (hstate : after.state = .unlinked)
      (htarget : after.site.target = .slowPath) (hcleared : after.clearedByCollector = true) :
      Visited isLive state site after .unlinked
  | pruned {stub : Stub} (hbefore : state = .polymorphic stub)
      (hdead : ∃ case ∈ stub.cases, case.variant.isLive isLive = false)
      (hlive : ∃ case ∈ stub.cases, case.variant.isLive isLive = true)
      (hstate : after.state = .polymorphic (stub.pruned isLive))
      (hsite : after.site = site.repatch (.stub (stub.pruned isLive))) :
      Visited isLive state site after
        (.pruned (stub.cases.countP fun case => !case.variant.isLive isLive))

theorem unlinkDead_visited (link : Link) (hlost : state.Lost isLive) :
    Visited isLive state site link.unlinkDead.2.link link.unlinkDead.1 :=
  .lost hlost (unlink_link_state link) (unlink_link_target link) rfl

theorem visitState_visited (link : Link) (isLive : Cell → Bool) :
    Visited isLive link.state link.site (link.visitState isLive).2.link
      (link.visitState isLive).1 := by
  rw [visitState]
  rcases hstate : link.state with _ | ⟨callee, target⟩ | stub | _ | ⟨executable, target⟩ <;>
    dsimp only
  · exact .kept (by simp [LinkState.dependents]) hstate rfl
  · rcases hvisit : callee.visit isLive with ⟨_ | _, cleared⟩
    · exact .kept (WeakRef.live_of_visit hvisit) hstate rfl
    · exact unlinkDead_visited _ (WeakRef.dead_of_visit hvisit)
  · split
    · rename_i hlive
      refine .kept (fun cell hmem => ?_) hstate rfl
      obtain ⟨case, hcase, hcell⟩ := List.mem_flatMap.mp hmem
      exact List.all_eq_true.mp (List.all_eq_true.mp hlive case hcase) cell hcell
    · rename_i hdead
      rw [Bool.not_eq_true, List.all_eq_false] at hdead
      split
      · rename_i hempty
        have hnone := List.filter_eq_nil_iff.mp (List.isEmpty_iff.mp hempty)
        refine unlinkDead_visited link fun case hcase => Variant.isLive_eq_false_iff.mp ?_
        exact Bool.eq_false_iff.mpr (hnone case hcase)
      · rename_i hrest
        rw [List.isEmpty_iff] at hrest
        obtain ⟨case, hkept⟩ := List.exists_mem_of_ne_nil _ hrest
        rw [show stub.size - (stub.pruned isLive).size = _ from stub.size_sub_filter _]
        refine .pruned rfl ?_ ⟨case, List.mem_filter.mp hkept⟩ rfl rfl
        obtain ⟨case, hcase, hdead⟩ := hdead
        exact ⟨case, hcase, Bool.eq_false_iff.mpr hdead⟩
  · exact .kept (by simp [LinkState.dependents]) hstate rfl
  · rcases hvisit : executable.visit isLive with ⟨_ | _, cleared⟩
    · exact .kept (WeakRef.live_of_visit hvisit) hstate rfl
    · exact unlinkDead_visited _ (WeakRef.dead_of_visit hvisit)

theorem visitWeak_visited (link : Link) (isLive : Cell → Bool) :
    Visited isLive link.state link.site (link.visitWeak isLive).2.link
      (link.visitWeak isLive).1 := by
  obtain ⟨lastCallee, hforgotten⟩ := forgetDeadCallee_link link isLive
  have hvisited := visitState_visited (link.forgetDeadCallee isLive).link isLive
  have hstate : (link.forgetDeadCallee isLive).link.state = link.state := by rw [hforgotten]
  have hsite : (link.forgetDeadCallee isLive).link.site = link.site := by rw [hforgotten]
  rw [hstate, hsite] at hvisited
  exact hvisited

namespace Visited

/-- The cases that stay are those that name no dead cell. -/
theorem cases_eq (h : Visited isLive state site after outcome) :
    after.state.cases = state.cases.filter fun case => case.variant.isLive isLive := by
  cases h with
  | kept hlive hstate hsite =>
      rw [hstate, eq_comm, List.filter_eq_self]
      exact fun case => LinkState.isLive_of_live hlive
  | lost hlost hstate htarget hcleared =>
      rw [hstate, eq_comm]
      exact List.filter_eq_nil_iff.mpr fun case hcase =>
        Bool.eq_false_iff.mp (hlost.isLive_eq_false hcase)
  | pruned hbefore hdead hlive hstate hsite =>
      rw [hstate, hbefore]
      rfl

theorem unlinked_iff (h : Visited isLive state site after outcome)
    (hfilled : ∀ stub, state = .polymorphic stub → stub.cases ≠ []) :
    outcome = .unlinked ↔ state.Lost isLive := by
  cases h with
  | kept hlive hstate hsite =>
      refine iff_of_false (by simp) fun hlost => ?_
      obtain ⟨cell, hcell, hdead⟩ := hlost.dead hfilled
      rw [hlive cell hcell] at hdead
      cases hdead
  | lost hlost hstate htarget hcleared => exact iff_of_true rfl hlost
  | pruned hbefore hdead hlive hstate hsite =>
      refine iff_of_false (by simp) fun hlost => ?_
      obtain ⟨case, hcase, hlive⟩ := hlive
      rw [hbefore] at hlost
      have hdead := hlost.isLive_eq_false hcase
      rw [hlive] at hdead
      cases hdead

theorem of_unlinked (h : Visited isLive state site after .unlinked) :
    after.mode = .init ∧ after.site.target = .slowPath ∧ after.clearedByCollector = true := by
  cases h with
  | lost hlost hstate htarget hcleared => exact ⟨by rw [mode, hstate]; rfl, htarget, hcleared⟩

theorem pruned_iff (h : Visited isLive state site after outcome) (count : Nat) :
    outcome = .pruned count ↔
      count = state.cases.countP (fun case => !case.variant.isLive isLive) ∧
        1 ≤ count ∧ count < state.cases.length := by
  cases h with
  | kept hlive hstate hsite =>
      refine iff_of_false (by simp) ?_
      rintro ⟨rfl, hsome, _⟩
      obtain ⟨case, hcase, hdead⟩ := List.countP_pos_iff.mp hsome
      rw [LinkState.isLive_of_live hlive hcase] at hdead
      cases hdead
  | lost hlost hstate htarget hcleared =>
      refine iff_of_false (by simp) ?_
      rintro ⟨rfl, _, hrest⟩
      refine Nat.ne_of_lt hrest (List.countP_eq_length.mpr fun case hcase => ?_)
      rw [hlost.isLive_eq_false hcase, Bool.not_false]
  | pruned hbefore hdead hlive hstate hsite =>
      rw [hbefore, WeakOutcome.pruned.injEq, eq_comm]
      refine ⟨?_, And.left⟩
      rintro rfl
      refine ⟨rfl, List.countP_pos_iff.mpr ?_, ?_⟩
      · obtain ⟨case, hcase, hdead⟩ := hdead
        exact ⟨case, hcase, by rw [hdead, Bool.not_false]⟩
      · refine Nat.lt_of_le_of_ne List.countP_le_length fun hall => ?_
        obtain ⟨case, hcase, hlive⟩ := hlive
        have hdead := List.countP_eq_length.mp hall case hcase
        rw [hlive] at hdead
        cases hdead

theorem unchanged_iff (h : Visited isLive state site after outcome) :
    outcome = .unchanged ↔ after.state = state ∧ after.site.target = site.target ∧
      after.site.patchCount = site.patchCount := by
  cases h with
  | kept hlive hstate hsite => exact iff_of_true rfl ⟨hstate, by rw [hsite], by rw [hsite]⟩
  | lost hlost hstate htarget hcleared =>
      refine iff_of_false (by simp) fun hsame => ?_
      rw [← hsame.1, hstate] at hlost
      exact hlost
  | pruned hbefore hdead hlive hstate hsite =>
      refine iff_of_false (by simp) fun hsame => ?_
      rw [hsame.1, hbefore] at hstate
      obtain ⟨case, hcase, hdead⟩ := hdead
      have hkept := congrArg Stub.cases (LinkState.polymorphic.inj hstate)
      rw [List.filter_eq_self.mp hkept.symm case hcase] at hdead
      cases hdead

end Visited

theorem Agrees.cases_target (h : link.Agrees) : link.site.target.cases = link.state.cases := by
  unfold Agrees at h
  rcases hstate : link.state with _ | ⟨callee, target⟩ | stub | _ | ⟨executable, target⟩ <;>
    rw [hstate] at h
  · rw [h]; rfl
  · obtain ⟨_, cell, _, htarget⟩ := h
    rw [htarget]; rfl
  · rw [h.2]; rfl
  · rw [h]; rfl
  · rw [h.2.2]; rfl

/-- The visit of a record that names no dead cell does nothing. -/
theorem visitWeak_of_alive (h : link.Alive isLive) :
    link.visitWeak isLive = (.unchanged, { link }) := by
  have hstate : ∀ cell ∈ link.state.dependents, isLive cell = true :=
    fun cell hcell => h cell (List.mem_append_left _ hcell)
  have hlast : link.lastCallee.visit isLive = (false, link.lastCallee) :=
    WeakRef.visit_of_live fun cell hcell => h cell (List.mem_append_right _ hcell)
  rw [visitWeak, forgetDeadCallee, hlast]
  dsimp only
  have hvisit : link.visitState isLive = (.unchanged, { link }) := by
    rw [visitState]
    rcases hlink : link.state with _ | ⟨callee, target⟩ | stub | _ | ⟨executable, target⟩ <;>
      rw [hlink] at hstate <;> dsimp only
    · rw [WeakRef.visit_of_live hstate]
    · exact if_pos (List.all_eq_true.mpr fun case => LinkState.isLive_of_live hstate)
    · rw [WeakRef.visit_of_live hstate]
  rw [hvisit]
  rfl

/-! ### Records with grown stubs -/

/-- A stub that is set was made by growing. -/
def Action.Grown : Action → Prop
  | .setStub _ stub => ∃ id existing variant target capacity widened,
      Stub.grow id existing variant target capacity = .built stub widened
  | _ => True

theorem edit_shaped {action : Action} {edit : Edit} (h : link.edit action = .ok edit)
    (hgrown : action.Grown) (hshaped : ∃ capacity, link.Shaped capacity) :
    ∃ capacity, edit.link.Shaped capacity := by
  obtain ⟨capacity, hshaped⟩ := hshaped
  cases action with
  | setMonomorphic owner callee target =>
      refine ⟨capacity, fun stub hstub => ?_⟩
      rw [(setMonomorphic_ok h).2.2.2.1] at hstub
      cases hstub
  | setStub owner stub =>
      obtain ⟨_, _, _, _, room, _, hbuilt⟩ := hgrown
      refine ⟨room, fun other hother => ?_⟩
      rw [(setStub_ok h).2.2.1] at hother
      rw [← LinkState.polymorphic.inj hother]
      exact Stub.wellShaped_of_grow hbuilt
  | setDirect owner executable target =>
      refine ⟨capacity, fun stub hstub => ?_⟩
      rw [(setDirect_ok h).2.2.1] at hstub
      cases hstub
  | setVirtual =>
      obtain rfl := Except.ok.inj h
      exact ⟨capacity, shaped_setVirtual hshaped⟩
  | disallowStubs =>
      obtain rfl := Except.ok.inj h
      exact ⟨capacity, shaped_disallowStubs hshaped⟩
  | retarget old new =>
      obtain rfl := Except.ok.inj h
      exact ⟨capacity, shaped_retarget hshaped old new⟩
  | revert =>
      obtain rfl := Except.ok.inj h
      exact ⟨capacity, shaped_revert hshaped⟩
  | visitWeak isLive =>
      obtain rfl := Except.ok.inj h
      exact ⟨capacity, shaped_visitWeak hshaped isLive⟩
  | recordSlowPath callee =>
      obtain rfl := Except.ok.inj h
      exact ⟨capacity, hshaped⟩
  | noteVarargs count =>
      obtain rfl := Except.ok.inj h
      exact ⟨capacity, hshaped⟩
  | setArity count =>
      obtain rfl := Except.ok.inj h
      exact ⟨capacity, hshaped⟩
  | hitStub callee executable =>
      obtain rfl := Except.ok.inj h
      exact ⟨capacity, shaped_of_profiled (.hit callee executable) hshaped⟩

theorem run_shaped {actions : List Action} (hgrown : ∀ action ∈ actions, action.Grown)
    (hshaped : ∃ capacity, link.Shaped capacity) :
    ∃ capacity, (link.run actions).Shaped capacity := by
  induction actions generalizing link with
  | nil => exact hshaped
  | cons action rest ih =>
      refine ih (fun other hmem => hgrown other (List.mem_cons_of_mem _ hmem)) ?_
      rw [act]
      split
      · rename_i edit hedit
        exact edit_shaped hedit (hgrown action List.mem_cons_self) hshaped
      · exact hshaped

/-- The visit of a record says exactly what it found. The cells that the record names afterwards are
alive. The cases that stay in the stub, in state and slot, are those that name live cells only, as
they were. The link is taken away exactly if nothing is left of it, cases are dropped exactly if
some but not all of them name a dead cell, and otherwise state and slot are untouched. A second
visit does nothing. -/
theorem weak_visit_exact (descriptor : SiteDescriptor) (locations : Locations) (ceiling : Nat)
    (actions : List Action) (hgrown : ∀ action ∈ actions, action.Grown) (isLive : Cell → Bool) :
    let link := (fresh descriptor locations ceiling).run actions
    let outcome := (link.visitWeak isLive).1
    let after := (link.visitWeak isLive).2.link
    (∀ cell ∈ after.dependents, isLive cell = true) ∧
    after.state.cases = link.state.cases.filter (fun case => case.variant.cells.all isLive) ∧
    after.site.target.cases = after.state.cases ∧
    (outcome = .unlinked ↔ link.state.Lost isLive) ∧
    (outcome = .unlinked →
      after.mode = .init ∧ after.site.target = .slowPath ∧ after.clearedByCollector = true) ∧
    (∀ count, outcome = .pruned count ↔
      count = link.state.cases.countP (fun case => !case.variant.cells.all isLive) ∧
        1 ≤ count ∧ count < link.state.cases.length) ∧
    (outcome = .unchanged ↔ after.state = link.state ∧
      after.site.target = link.site.target ∧ after.site.patchCount = link.site.patchCount) ∧
    after.visitWeak isLive = (.unchanged, { link := after }) := by
  intro link outcome after
  have hvisited : Visited isLive link.state link.site after outcome := visitWeak_visited link isLive
  have hbecomes : (fresh descriptor locations ceiling).Becomes link := ⟨actions, rfl⟩
  have hagrees : after.Agrees :=
    agrees_visitWeak (hbecomes.agrees (agrees_fresh descriptor locations ceiling)) isLive
  have halive : after.Alive isLive := alive_visitWeak link isLive
  obtain ⟨capacity, hshaped⟩ : ∃ capacity, link.Shaped capacity :=
    run_shaped hgrown ⟨0, .of_unlinked rfl⟩
  have hfilled : ∀ stub, link.state = .polymorphic stub → stub.cases ≠ [] := by
    intro stub hstub hempty
    have hnonempty := (hshaped stub hstub).nonempty
    rw [Stub.size, hempty] at hnonempty
    cases hnonempty
  exact ⟨halive, hvisited.cases_eq, hagrees.cases_target, hvisited.unlinked_iff hfilled,
    fun hunlinked => (hunlinked ▸ hvisited).of_unlinked, hvisited.pruned_iff,
    hvisited.unchanged_iff, visitWeak_of_alive halive⟩

/-- A stub for two functions. -/
def twoFunctions : Stub where
  id := ⟨1⟩
  cases := [⟨.function ⟨1, 0⟩ ⟨11, 0⟩, ⟨⟨1⟩, ⟨0⟩⟩, 0⟩, ⟨.function ⟨2, 0⟩ ⟨12, 0⟩, ⟨⟨2⟩, ⟨0⟩⟩, 0⟩]

/-- A site that has called one function, then another, then the first again. -/
def callsOfTwo : List Action :=
  [.recordSlowPath ⟨1, 0⟩, .setMonomorphic ⟨0, 0⟩ ⟨1, 0⟩ ⟨⟨1⟩, ⟨0⟩⟩, .recordSlowPath ⟨2, 0⟩,
    .setStub ⟨0, 0⟩ twoFunctions, .hitStub ⟨1, 0⟩ ⟨11, 0⟩]

/-- The executable of the second function dies, and its case goes. Then all cells die. -/
theorem weak_visit_of_callsOfTwo :
    let link := (fresh ⟨.call, 12⟩ ⟨0, 24, 24⟩ 255).run callsOfTwo
    let visit := link.visitWeak (· != ⟨12, 0⟩)
    (∀ action ∈ callsOfTwo, action.Grown) ∧
      visit.1 = .pruned 1 ∧
      visit.2.link.state.cases = [⟨.function ⟨1, 0⟩ ⟨11, 0⟩, ⟨⟨1⟩, ⟨0⟩⟩, 1⟩] ∧
      visit.2.link.site.target.cases = visit.2.link.state.cases ∧
      visit.2.link.visitWeak (· != ⟨12, 0⟩) = (.unchanged, { link := visit.2.link }) ∧
      link.state.Lost (fun _ => false) ∧
      (link.visitWeak fun _ => false).1 = .unlinked ∧
      (link.visitWeak fun _ => false).2.link.mode = .init := by
  intro link visit
  have hgrown : ∀ action ∈ callsOfTwo, action.Grown := by
    have hbuilt : Stub.grow ⟨1⟩ [⟨.function ⟨1, 0⟩ ⟨11, 0⟩, ⟨⟨1⟩, ⟨0⟩⟩, 0⟩]
        (.function ⟨2, 0⟩ ⟨12, 0⟩) ⟨⟨2⟩, ⟨0⟩⟩ 4 = .built twoFunctions false := by decide
    simp only [callsOfTwo, List.forall_mem_cons, Action.Grown]
    exact ⟨trivial, trivial, trivial, ⟨_, _, _, _, _, _, hbuilt⟩, trivial, by simp⟩
  obtain ⟨_, hcases, hslot, _, _, hpruned, _, hagain⟩ :=
    weak_visit_exact ⟨.call, 12⟩ ⟨0, 24, 24⟩ 255 callsOfTwo hgrown (· != ⟨12, 0⟩)
  obtain ⟨_, _, _, hunlinked, hinit, _⟩ :=
    weak_visit_exact ⟨.call, 12⟩ ⟨0, 24, 24⟩ 255 callsOfTwo hgrown fun _ => false
  have hlost : link.state.Lost fun _ => false := by
    intro case hcase
    rcases case.variant with ⟨callee, executable⟩ | executable <;>
      exact ⟨executable, by simp [Variant.cells], rfl⟩
  exact ⟨hgrown, (hpruned 1).mpr (by decide), hcases.trans (by decide), hslot, hagain, hlost,
    hunlinked.mpr hlost, (hinit (hunlinked.mpr hlost)).1⟩

end Link

end InlineCache
