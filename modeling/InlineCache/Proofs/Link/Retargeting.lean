import InlineCache.Proofs.Link.Routes

/-!
# Links whose code is replaced or discarded

Replacing the code of a block changes where a link sends its calls and nothing else: a site keeps
its mode, its callee or its cases, and the hits of the cases. Discarding it takes away what went
there, and leaves the other cases of a stub as they are.
-/

namespace InlineCache

/-- A pointer once the code of a block has been replaced. -/
def CodePointer.redirect (pointer : CodePointer) (old : CodeId) (new : CodePointer) : CodePointer :=
  if pointer.block = old then new else pointer

def Case.redirect (case : Case) (old : CodeId) (new : CodePointer) : Case :=
  { case with target := case.target.redirect old new }

def Stub.redirect (stub : Stub) (old : CodeId) (new : CodePointer) : Stub :=
  { stub with cases := stub.cases.map fun case => case.redirect old new }

def LinkState.redirect (state : LinkState) (old : CodeId) (new : CodePointer) : LinkState :=
  match state with
  | .unlinked => .unlinked
  | .monomorphic callee target => .monomorphic callee (target.redirect old new)
  | .polymorphic stub => .polymorphic (stub.redirect old new)
  | .virtual => .virtual
  | .direct executable target => .direct executable (target.redirect old new)

def Target.redirect (target : Target) (old : CodeId) (new : CodePointer) : Target :=
  match target with
  | .slowPath => .slowPath
  | .guarded expected pointer => .guarded expected (pointer.redirect old new)
  | .stub routine => .stub (routine.redirect old new)
  | .virtual => .virtual
  | .direct pointer => .direct (pointer.redirect old new)

theorem Stub.retargeted_eq_redirect (stub : Stub) (old : CodeId) (new : CodePointer) :
    stub.retargeted old new = stub.redirect old new := by
  rw [retargeted, redirect]
  congr 1
  refine List.map_congr_left fun case _ => ?_
  rw [Case.redirect, CodePointer.redirect]
  split <;> rfl

namespace Link

variable {link : Link} {old code : CodeId} {new : CodePointer}

/-- The record of a site after the code of a block has been replaced. -/
structure Redirected (link : Link) (old : CodeId) (new : CodePointer) (found : Link) : Prop where
  untouched : link.targets old = false → found = link
  moved : link.targets old = true → found.mode = link.mode ∧ found.targets new.block = true ∧
    found.state = link.state.redirect old new ∧
    found.site.target = link.site.target.redirect old new

/-- The record of a site after a block has been discarded. -/
structure Deprived (link : Link) (code : CodeId) (found : Link) : Prop where
  untouched : link.targets code = false → found = link
  unlinked : link.targets code = true → (∀ stub, link.state ≠ .polymorphic stub) →
    found.state = .unlinked ∧ found.site.target = .slowPath
  pruned : ∀ stub, link.state = .polymorphic stub → link.targets code = true →
    let kept := stub.cases.filter fun case => case.target.block != code
    if kept = [] then found.state = .unlinked ∧ found.site.target = .slowPath
    else found.state = .polymorphic { stub with cases := kept } ∧
      found.site.target = .stub { stub with cases := kept }

theorem retarget_some_state (h : link.targets old = true) :
    (link.retarget old (some new)).2.link.state = link.state.redirect old new := by
  unfold retarget
  rw [h]
  rcases hstate : link.state with _ | ⟨⟨_ | cell⟩, target⟩ | stub | _ | ⟨executable, target⟩ <;>
    simp only [targets, hstate, LinkState.targets, Bool.false_eq_true, beq_iff_eq] at h
  · simp [LinkState.redirect, CodePointer.redirect, h]
  · simp [LinkState.redirect, CodePointer.redirect, repatch, h]
  · simp [LinkState.redirect, repatch, Stub.retargeted_eq_redirect]
  · simp [LinkState.redirect, CodePointer.redirect, repatch, h]

/-- The slot follows, since it says what the link state says. -/
theorem Agrees.retarget_some_target (hagrees : link.Agrees) (h : link.targets old = true) :
    (link.retarget old (some new)).2.link.site.target = link.site.target.redirect old new := by
  unfold Agrees at hagrees
  unfold retarget
  rw [h]
  rcases hstate : link.state with _ | ⟨callee, target⟩ | stub | _ | ⟨executable, target⟩ <;>
    simp only [targets, hstate, LinkState.targets, Bool.false_eq_true, beq_iff_eq] at h <;>
    rw [hstate] at hagrees
  · obtain ⟨_, cell, rfl, hslot⟩ := hagrees
    simp [hslot, Target.redirect, CodePointer.redirect, WeakRef.ofCell, repatch, CallSite.repatch,
      h]
  · simp [hagrees.2, Target.redirect, repatch, CallSite.repatch, Stub.retargeted_eq_redirect]
  · simp [hagrees.2.2, Target.redirect, CodePointer.redirect, repatch, CallSite.repatch, h]

theorem targets_retarget_some (h : link.targets old = true) :
    (link.retarget old (some new)).2.link.targets new.block = true := by
  obtain ⟨route, hroute, hblock⟩ := targets_iff.mp h
  refine targets_iff.mpr ⟨(route.1, new), ?_, rfl⟩
  rw [routes_retarget_some]
  exact List.mem_map.mpr ⟨route, hroute, if_pos hblock⟩

theorem mode_retarget_some (h : link.targets old = true) :
    (link.retarget old (some new)).2.link.mode = link.mode := by
  rw [mode, mode, retarget_some_state h]
  cases link.state <;> rfl

theorem Agrees.redirected (hagrees : link.Agrees) (old : CodeId) (new : CodePointer) :
    link.Redirected old new (link.retarget old (some new)).2.link where
  untouched h := by rw [retarget_of_not_targets _ h]
  moved h := ⟨mode_retarget_some h, targets_retarget_some h, retarget_some_state h,
    hagrees.retarget_some_target h⟩

theorem deprived (link : Link) (code : CodeId) :
    link.Deprived code (link.retarget code none).2.link where
  untouched h := by rw [retarget_of_not_targets _ h]
  unlinked h hstub := by
    have hunlinked : (link.retarget code none).2 = link.unlink := by
      unfold retarget
      rw [h]
      rcases hstate : link.state with _ | _ | stub | _ | _
      · simp [targets, hstate, LinkState.targets] at h
      · rfl
      · exact absurd hstate (hstub stub)
      · simp [targets, hstate, LinkState.targets] at h
      · rfl
    rw [hunlinked]
    exact ⟨unlink_link_state link, unlink_link_target link⟩
  pruned stub hstate h := by
    unfold retarget
    rw [h, hstate]
    simp only [Bool.not_true, Bool.false_eq_true, if_false, Stub.withoutTarget,
      List.isEmpty_iff]
    split
    · exact ⟨unlink_link_state link, unlink_link_target link⟩
    · exact ⟨rfl, rfl⟩

/-! ### Where a link goes afterwards -/

theorem targets_retarget_some_iff : (link.retarget old (some new)).2.link.targets code = true ↔
    new.block = code ∧ link.targets old = true ∨ code ≠ old ∧ link.targets code = true := by
  simp only [targets_iff, routes_retarget_some, List.mem_map]
  constructor
  · rintro ⟨_, ⟨route, hroute, rfl⟩, hblock⟩
    split at hblock
    · exact .inl ⟨hblock, route, hroute, by assumption⟩
    · rename_i hother
      exact .inr ⟨hblock ▸ hother, route, hroute, hblock⟩
  · rintro (⟨hnew, route, hroute, hblock⟩ | ⟨hother, route, hroute, hblock⟩)
    · exact ⟨_, ⟨route, hroute, if_pos hblock⟩, hnew⟩
    · exact ⟨_, ⟨route, hroute, if_neg (hblock ▸ hother)⟩, hblock⟩

theorem targets_retarget_none_iff : (link.retarget old none).2.link.targets code = true ↔
    code ≠ old ∧ link.targets code = true := by
  simp only [targets_iff, routes_retarget_none, List.mem_filter, bne_iff_ne]
  constructor
  · rintro ⟨route, ⟨hroute, hother⟩, hblock⟩
    exact ⟨hblock ▸ hother, route, hroute, hblock⟩
  · rintro ⟨hother, route, hroute, hblock⟩
    exact ⟨route, ⟨hroute, hblock ▸ hother⟩, hblock⟩

theorem targets_retarget_some_of_ne (hold : code ≠ old) (hnew : code ≠ new.block) :
    (link.retarget old (some new)).2.link.targets code = link.targets code := by
  rw [Bool.eq_iff_iff, targets_retarget_some_iff]
  simp [hold, hnew.symm]

theorem targets_retarget_none_of_ne (hother : code ≠ old) :
    (link.retarget old none).2.link.targets code = link.targets code := by
  rw [Bool.eq_iff_iff, targets_retarget_none_iff]
  exact and_iff_right hother

/-- A link that does not go to the block is left alone, and no other. -/
theorem retarget_unaffected_iff (new : Option CodePointer) :
    (link.retarget old new).1 = .unaffected ↔ link.targets old = false := by
  constructor
  · intro houtcome
    rw [← Bool.not_eq_true]
    intro htargets
    rcases new with _ | pointer
    · exact (retarget_none_of_targets htargets).1 houtcome
    · rw [(retarget_of_targets pointer htargets).1] at houtcome
      cases houtcome
  · intro htargets
    rw [retarget_of_not_targets new htargets]

/-! ### Discarding block after block -/

end Link

/-- A stub without cases is no link. -/
def LinkState.ofStub (stub : Stub) : LinkState :=
  if stub.cases.isEmpty then .unlinked else .polymorphic stub

/-- What is left of a link that goes to a block, once the block is discarded. -/
def LinkState.without (state : LinkState) (code : CodeId) : LinkState :=
  match state with
  | .monomorphic callee target =>
    if target.block = code then .unlinked else .monomorphic callee target
  | .direct executable target =>
    if target.block = code then .unlinked else .direct executable target
  | .polymorphic stub => .ofStub (stub.withoutTarget code)
  | .unlinked => .unlinked
  | .virtual => .virtual

theorem Stub.withoutTarget_comm (stub : Stub) (first second : CodeId) :
    (stub.withoutTarget first).withoutTarget second
      = (stub.withoutTarget second).withoutTarget first := by
  simp only [withoutTarget, List.filter_filter, Bool.and_comm]

theorem Stub.size_withoutTarget (stub : Stub) (code : CodeId) :
    stub.size - (stub.withoutTarget code).size
      = stub.cases.countP fun case => case.target.block == code := by
  refine (stub.size_sub_filter _).trans (List.countP_congr fun case _ => ?_)
  simp

theorem LinkState.without_ofStub (stub : Stub) (code : CodeId) :
    (ofStub stub).without code = ofStub (stub.withoutTarget code) := by
  rw [ofStub]
  split
  · rename_i hempty
    rw [ofStub, Stub.withoutTarget, List.isEmpty_iff.mp hempty]
    rfl
  · rfl

theorem LinkState.without_comm_of_pointer {state : LinkState} {target : CodePointer}
    (h : ∀ code, state.without code = if target.block = code then .unlinked else state)
    (first second : CodeId) :
    (state.without first).without second = (state.without second).without first := by
  by_cases hfirst : target.block = first
  · rw [h first, if_pos hfirst, h second]
    split
    · rfl
    · rw [h first, if_pos hfirst]
      rfl
  · rw [h first, if_neg hfirst, h second]
    split
    · rfl
    · rw [h first, if_neg hfirst]

theorem LinkState.without_comm (state : LinkState) (first second : CodeId) :
    (state.without first).without second = (state.without second).without first := by
  cases state with
  | unlinked => rfl
  | virtual => rfl
  | monomorphic callee target => exact without_comm_of_pointer (fun _ => rfl) first second
  | direct executable target => exact without_comm_of_pointer (fun _ => rfl) first second
  | polymorphic stub =>
      show (ofStub _).without second = (ofStub _).without first
      rw [without_ofStub, without_ofStub, Stub.withoutTarget_comm]

namespace Link

variable {link : Link} {old code : CodeId} {new : CodePointer}

/-- One patch of the slot takes away what goes to a block. -/
theorem retarget_none_link (h : link.targets code = true) : (link.retarget code none).2.link
    = { link with
        state := link.state.without code
        site := link.site.repatch (link.state.without code).slot } := by
  unfold retarget
  rw [h]
  rcases hstate : link.state with _ | ⟨callee, target⟩ | stub | _ | ⟨executable, target⟩ <;>
    simp only [targets, hstate, LinkState.targets, Bool.false_eq_true, beq_iff_eq] at h
  · simp [unlink, hstate, transition, repatch, LinkState.without, LinkState.slot, h]
  · simp only [Bool.not_true, Bool.false_eq_true, if_false, LinkState.without, LinkState.ofStub]
    split
    · simp [unlink, hstate, transition, repatch, LinkState.slot]
    · rfl
  · simp [unlink, hstate, transition, repatch, LinkState.without, LinkState.slot, h]

/-- Several blocks can be discarded in any order. -/
theorem retarget_none_comm {first second : CodeId} (hne : first ≠ second) :
    ((link.retarget first none).2.link.retarget second none).2.link
      = ((link.retarget second none).2.link.retarget first none).2.link := by
  have hkept : ∀ {old code : CodeId}, code ≠ old → link.targets code = false →
      ((link.retarget old none).2.link.retarget code none).2.link
        = ((link.retarget code none).2.link.retarget old none).2.link := by
    intro old code hother hcode
    rw [retarget_of_not_targets none hcode, retarget_of_not_targets]
    rw [targets_retarget_none_of_ne hother, hcode]
  rcases hfirst : link.targets first
  · exact (hkept hne hfirst).symm
  · rcases hsecond : link.targets second
    · exact hkept hne.symm hsecond
    · have hthen : (link.retarget first none).2.link.targets second = true := by
        rw [targets_retarget_none_of_ne hne.symm, hsecond]
      have hthen' : (link.retarget second none).2.link.targets first = true := by
        rw [targets_retarget_none_of_ne hne, hfirst]
      rw [retarget_none_link hthen, retarget_none_link hthen', retarget_none_link hfirst,
        retarget_none_link hsecond]
      dsimp only
      rw [LinkState.without_comm]
      rfl

/-- A stub that keeps some case says how many it lost. -/
theorem retarget_none_of_rest {stub : Stub} (hstate : link.state = .polymorphic stub)
    (h : link.targets code = true) (hrest : ∃ case ∈ stub.cases, case.target.block ≠ code) :
    (link.retarget code none).1
        = .casesDropped (stub.cases.countP fun case => case.target.block == code) ∧
      (link.retarget code none).2.link.mode = .polymorphic := by
  have hkept : ¬ (stub.withoutTarget code).cases.isEmpty = true := by
    obtain ⟨case, hcase, hother⟩ := hrest
    rw [List.isEmpty_iff]
    exact List.ne_nil_of_mem (List.mem_filter.mpr ⟨hcase, bne_iff_ne.mpr hother⟩)
  have hretarget : link.retarget code none
      = (.casesDropped (stub.size - (stub.withoutTarget code).size),
        { link with state := .polymorphic (stub.withoutTarget code) }.repatch
          (.stub (stub.withoutTarget code))) := by
    unfold retarget
    rw [h, hstate]
    exact if_neg hkept
  rw [hretarget, stub.size_withoutTarget]
  exact ⟨rfl, rfl⟩

/-- A link of which nothing is left is taken away. -/
theorem retarget_none_of_no_rest (h : link.targets code = true)
    (hrest : ∀ stub, link.state = .polymorphic stub →
      ∀ case ∈ stub.cases, case.target.block = code) :
    (link.retarget code none).1 = .unlinked ∧ (link.retarget code none).2.link.mode = .init := by
  have hretarget : link.retarget code none = (.unlinked, link.unlink) := by
    unfold retarget
    rw [h]
    rcases hstate : link.state with _ | ⟨callee, target⟩ | stub | _ | ⟨executable, target⟩ <;>
      simp only [targets, hstate, LinkState.targets, Bool.false_eq_true] at h
    · rfl
    · have hempty : (stub.withoutTarget code).cases = [] :=
        List.filter_eq_nil_iff.mpr fun case hcase => by simp [hrest stub hstate case hcase]
      exact if_pos (List.isEmpty_iff.mpr hempty)
    · rfl
  rw [hretarget, mode, unlink_link_state]
  exact ⟨rfl, rfl⟩

/-- The blocks that a link goes to change as those who retarget it expect. A link that does not go
to the old block is left alone, and no other. With a replacement the link keeps its mode and goes to
the replacement in place of the old block. Without one, a stub that keeps some case says how many it
lost, any other link is taken away, and the old block is the only one that is no longer reached. To
do the same again does nothing. Several blocks can be discarded in any order: the record is the
same, down to the number of times that its slot was patched. -/
theorem retargeting_exact (link : Link) (old : CodeId) :
    (∀ new, (link.retarget old new).1 = .unaffected ∧ (link.retarget old new).2 = { link } ↔
      link.targets old = false) ∧
    (link.targets old = true → ∀ new : CodePointer, new.block ≠ old →
      let after := (link.retarget old (some new)).2.link
      (link.retarget old (some new)).1 = .upgraded ∧ after.mode = link.mode ∧
        after.targets new.block = true ∧ after.targets old = false ∧
        ∀ code, code ≠ old → code ≠ new.block → after.targets code = link.targets code) ∧
    (link.targets old = true →
      let outcome := (link.retarget old none).1
      let after := (link.retarget old none).2.link
      (∀ stub, link.state = .polymorphic stub → (∃ case ∈ stub.cases, case.target.block ≠ old) →
        outcome = .casesDropped (stub.cases.countP fun case => case.target.block == old) ∧
          after.mode = .polymorphic) ∧
      ((∀ stub, link.state = .polymorphic stub → ∀ case ∈ stub.cases, case.target.block = old) →
        outcome = .unlinked ∧ after.mode = .init) ∧
      after.targets old = false ∧
      ∀ code, code ≠ old → after.targets code = link.targets code) ∧
    (∀ new : Option CodePointer, (∀ pointer ∈ new, pointer.block ≠ old) →
      let after := (link.retarget old new).2.link
      after.retarget old new = (.unaffected, { link := after })) ∧
    ∀ other, other ≠ old →
      ((link.retarget old none).2.link.retarget other none).2.link
        = ((link.retarget other none).2.link.retarget old none).2.link := by
  have hgone : ∀ new : Option CodePointer, (∀ pointer ∈ new, pointer.block ≠ old) →
      (link.retarget old new).2.link.targets old = false := by
    intro new hnew
    rw [Bool.eq_false_iff]
    rcases new with _ | pointer
    · simp [targets_retarget_none_iff]
    · simp [targets_retarget_some_iff, hnew pointer rfl]
  refine ⟨fun new => ⟨?_, fun htargets => ?_⟩, fun htargets new hnew => ?_, fun htargets => ?_,
    fun new hnew => retarget_of_not_targets new (hgone new hnew),
    fun other hother => retarget_none_comm hother.symm⟩
  · rintro ⟨houtcome, -⟩
    exact (retarget_unaffected_iff new).mp houtcome
  · rw [retarget_of_not_targets new htargets]
    exact ⟨rfl, rfl⟩
  · exact ⟨(retarget_of_targets new htargets).1, mode_retarget_some htargets,
      targets_retarget_some htargets, hgone (some new) (by simpa using hnew),
      fun code => targets_retarget_some_of_ne⟩
  · exact ⟨fun stub hstate => retarget_none_of_rest hstate htargets,
      retarget_none_of_no_rest htargets, hgone none (by simp),
      fun code => targets_retarget_none_of_ne⟩

end Link

end InlineCache
