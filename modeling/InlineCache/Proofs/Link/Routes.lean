import InlineCache.Link.Retarget
import InlineCache.Link.WeakVisit
import InlineCache.Proofs.Stub

/-!
# The routes of a link

A link sends calls to code. Each way it can send one is a route: a guard that the callee must pass
and the pointer that the call then goes to. A monomorphic link has one route, a stub one for each of
its cases, a direct link one without a test.

Every change of a link is a simple change of its list of routes: retargeting maps it, discarded code
and dead cells filter it, and only linking makes new routes. The dispatch slot of a record always
says the same as its link state, which is what `Agrees` states.
-/

namespace InlineCache

/-- What a callee must pass to be sent along a route. -/
inductive Guard where
  /-- The callee is the cell. -/
  | callee (callee : WeakRef)
  /-- The callee is accepted by a case of a stub. -/
  | case (variant : Variant)
  /-- Any callee; the link was made for the executable. -/
  | direct (executable : WeakRef)
deriving DecidableEq, Repr

namespace Guard

/-- The cells that a guard names. -/
def cells : Guard → List Cell
  | .callee cell => cell.target.toList
  | .case variant => variant.cells
  | .direct cell => cell.target.toList

def isLive (guard : Guard) (isLive : Cell → Bool) : Bool := guard.cells.all isLive

theorem isLive_callee (cell : WeakRef) (isLive : Cell → Bool) :
    (Guard.callee cell).isLive isLive = !(cell.visit isLive).1 := by
  rcases cell with ⟨_ | cell⟩
  · rfl
  · rcases hlive : isLive cell <;> simp [Guard.isLive, cells, WeakRef.visit, hlive]

theorem isLive_direct (cell : WeakRef) (isLive : Cell → Bool) :
    (Guard.direct cell).isLive isLive = !(cell.visit isLive).1 :=
  isLive_callee cell isLive

end Guard

/-- The routes of a link state, in the order in which a call tries them. -/
def LinkState.routes : LinkState → List (Guard × CodePointer)
  | .monomorphic callee target => [(.callee callee, target)]
  | .polymorphic stub => stub.routes.map fun route => (.case route.1, route.2)
  | .direct executable target => [(.direct executable, target)]
  | .unlinked => []
  | .virtual => []

/-- What the slot of a site in this state holds. A guard that has lost its callee lets no call
pass. -/
def LinkState.slot : LinkState → Target
  | .unlinked => .slowPath
  | .monomorphic callee target => callee.target.elim .slowPath (.guarded · target)
  | .polymorphic stub => .stub stub
  | .virtual => .virtual
  | .direct _ target => .direct target

theorem LinkState.targets_iff {state : LinkState} {code : CodeId} :
    state.targets code = true ↔ ∃ route ∈ state.routes, route.2.block = code := by
  cases state with
  | unlinked => simp [targets, routes]
  | virtual => simp [targets, routes]
  | monomorphic callee target => simp [targets, routes]
  | direct executable target => simp [targets, routes]
  | polymorphic stub =>
      rw [targets, Stub.targets_iff, routes]
      constructor
      · rintro ⟨route, hroute, hblock⟩
        exact ⟨_, List.mem_map_of_mem hroute, hblock⟩
      · rintro ⟨_, hmem, hblock⟩
        obtain ⟨route, hroute, rfl⟩ := List.mem_map.mp hmem
        exact ⟨route, hroute, hblock⟩

namespace Link

def routes (link : Link) : List (Guard × CodePointer) := link.state.routes

theorem targets_iff {link : Link} {code : CodeId} :
    link.targets code = true ↔ ∃ route ∈ link.routes, route.2.block = code :=
  LinkState.targets_iff

/-- The dispatch slot says what the link state says. Only direct sites are linked directly. -/
def Agrees (link : Link) : Prop :=
  match link.state with
  | .unlinked => link.site.target = .slowPath
  | .monomorphic callee target =>
      link.isDirect = false ∧
        ∃ cell, callee = .ofCell cell ∧ link.site.target = .guarded cell target
  | .polymorphic stub => link.isDirect = false ∧ link.site.target = .stub stub
  | .virtual => link.site.target = .virtual
  | .direct executable target =>
      link.isDirect = true ∧ (∃ cell, executable = .ofCell cell) ∧
        link.site.target = .direct target

/-- The code that a slot can send calls to is the code of the routes. -/
theorem Agrees.pointers_target {link : Link} (h : link.Agrees) :
    link.site.target.pointers = link.routes.map Prod.snd := by
  unfold Agrees at h
  rw [routes]
  rcases hstate : link.state with _ | ⟨callee, target⟩ | stub | _ | ⟨executable, target⟩ <;>
    rw [hstate] at h
  · simp [h, Target.pointers, LinkState.routes]
  · obtain ⟨_, cell, _, htarget⟩ := h
    simp [htarget, Target.pointers, LinkState.routes]
  · simp [h.2, Target.pointers, LinkState.routes, Stub.routes, Case.route]
  · simp [h, Target.pointers, LinkState.routes]
  · simp [h.2.2, Target.pointers, LinkState.routes]

/-! ### A fresh record -/

theorem routes_fresh (descriptor : SiteDescriptor) (locations : Locations) (ceiling : Nat) :
    (fresh descriptor locations ceiling).routes = [] := rfl

theorem agrees_fresh (descriptor : SiteDescriptor) (locations : Locations) (ceiling : Nat) :
    (fresh descriptor locations ceiling).Agrees := rfl

/-! ### The profile -/

/-- What a call at a site changes in its record without linking it. -/
inductive Profiled (link : Link) : Link → Prop where
  | slowPath (callee : Cell) : Profiled link (link.recordSlowPath callee)
  | varargs (count : Nat) : Profiled link (link.noteVarargs count)
  | hit (callee executable : Cell) : Profiled link (link.hitStub callee executable)

namespace Profiled

variable {link after : Link}

theorem callType_eq (h : Profiled link after) : after.callType = link.callType := by
  cases h <;> rfl

theorem routes_eq (h : Profiled link after) : after.routes = link.routes := by
  cases h with
  | slowPath callee => rfl
  | varargs count => rfl
  | hit callee executable =>
      rw [routes, routes, hitStub]
      rcases link.state with _ | ⟨callee, target⟩ | stub | _ | ⟨executable, target⟩
      · rfl
      · rfl
      · simp only [LinkState.routes, Stub.routes_hit]
      · rfl
      · rfl

theorem agrees (h : Profiled link after) (hagrees : link.Agrees) : after.Agrees := by
  cases h with
  | slowPath callee => exact hagrees
  | varargs count => exact hagrees
  | hit callee executable =>
      unfold Agrees at hagrees
      rw [Agrees, hitStub]
      rcases hstate : link.state with _ | ⟨cached, target⟩ | stub | _ | ⟨cached, target⟩ <;>
        rw [hstate] at hagrees
      · simp [hagrees]
      · obtain ⟨hdirect, cell, hcell, htarget⟩ := hagrees
        exact ⟨hdirect, cell, hcell, by simp [htarget]⟩
      · exact ⟨hagrees.1, by simp [hagrees.2]⟩
      · simp [hagrees]
      · exact ⟨hagrees.1, hagrees.2.1, by simp [hagrees.2.2]⟩

end Profiled

/-! ### Taking links away -/

theorem unlink_link_state (link : Link) : link.unlink.link.state = .unlinked := by
  rw [unlink]
  rcases hstate : link.state with _ | _ | _ | _ | _
  · by_cases hslow : link.site.target.isSlowPath = true
    · simp [hslow, hstate]
    · simp [hslow, hstate, repatch]
  all_goals rfl

theorem unlink_link_target (link : Link) : link.unlink.link.site.target = .slowPath := by
  rw [unlink]
  rcases hstate : link.state with _ | _ | _ | _ | _
  · rcases htarget : link.site.target with _ | _ | _ | _ | _ <;>
      simp [htarget, Target.isSlowPath, repatch, CallSite.repatch]
  all_goals rfl

theorem unlink_link_callType (link : Link) : link.unlink.link.callType = link.callType := by
  rw [unlink]
  rcases link.state with _ | _ | _ | _ | _
  · dsimp only
    split <;> rfl
  all_goals rfl

theorem routes_unlink (link : Link) : link.unlink.link.routes = [] := by
  rw [routes, unlink_link_state, LinkState.routes]

theorem agrees_unlink (link : Link) : link.unlink.link.Agrees := by
  rw [Agrees, unlink_link_state]
  exact unlink_link_target link

theorem routes_setVirtual (link : Link) : link.setVirtual.link.routes = [] := by
  rw [setVirtual]
  split
  · rename_i hmode
    rw [mode] at hmode
    rw [routes]
    rcases hstate : link.state with _ | _ | _ | _ | _ <;> rw [hstate] at hmode
    · rfl
    · cases hmode
    · cases hmode
    · rfl
    · cases hmode
  · rfl

theorem agrees_setVirtual {link : Link} (h : link.Agrees) : link.setVirtual.link.Agrees := by
  rw [setVirtual]
  split
  · exact h
  · rfl

theorem setVirtual_link_callType (link : Link) :
    link.setVirtual.link.callType = link.callType := by
  rw [setVirtual]
  split <;> rfl

/-- Forbidding stubs leaves the routes as they are, or takes all of them. -/
theorem disallowStubs_cases (link : Link) :
    link.disallowStubs.link = { link with stubsAllowed := false } ∨
      link.disallowStubs.link = ({ link with stubsAllowed := false } : Link).setVirtual.link := by
  rw [disallowStubs]
  split
  · exact Or.inr rfl
  · exact Or.inl rfl

theorem disallowStubs_link_callType (link : Link) :
    link.disallowStubs.link.callType = link.callType := by
  rcases disallowStubs_cases link with h | h <;> rw [h]
  exact setVirtual_link_callType _

theorem routes_disallowStubs_subset (link : Link) :
    ∀ route ∈ link.disallowStubs.link.routes, route ∈ link.routes := by
  intro route hroute
  rcases disallowStubs_cases link with h | h <;> rw [h] at hroute
  · exact hroute
  · rw [routes_setVirtual] at hroute
    cases hroute

theorem agrees_disallowStubs {link : Link} (h : link.Agrees) : link.disallowStubs.link.Agrees := by
  rcases disallowStubs_cases link with heq | heq <;> rw [heq]
  · exact h
  · exact agrees_setVirtual h

theorem routes_revert (link : Link) : link.revert.link.routes = [] := by
  rw [revert, mode]
  rcases hstate : link.state with _ | _ | _ | _ | _
  · simp [LinkState.mode, routes, hstate, LinkState.routes]
  · exact routes_unlink link
  · exact routes_unlink link
  · simp [LinkState.mode, routes, hstate, LinkState.routes]
  · exact routes_unlink link

theorem agrees_revert {link : Link} (h : link.Agrees) : link.revert.link.Agrees := by
  rw [revert]
  rcases link.mode with _ | _ | _ | _ | _
  · exact h
  · exact agrees_unlink link
  · exact agrees_unlink link
  · exact h
  · exact agrees_unlink link

theorem revert_link_callType (link : Link) : link.revert.link.callType = link.callType := by
  rw [revert]
  rcases link.mode with _ | _ | _ | _ | _
  · rfl
  · exact unlink_link_callType link
  · exact unlink_link_callType link
  · rfl
  · exact unlink_link_callType link

/-! ### When code goes away -/

theorem retarget_of_not_targets {link : Link} {old : CodeId} (new : Option CodePointer)
    (h : link.targets old = false) : link.retarget old new = (.unaffected, { link }) := by
  unfold retarget
  rw [h]
  rfl

/-- A link that goes to replaced code is sent to the new code, in the same mode. -/
theorem retarget_of_targets {link : Link} {old : CodeId} (new : CodePointer)
    (h : link.targets old = true) :
    (link.retarget old (some new)).1 = .upgraded ∧
      (link.retarget old (some new)).2.link.callType = link.callType := by
  unfold retarget
  rw [h]
  rcases hstate : link.state with _ | ⟨⟨_ | _⟩, target⟩ | stub | _ | ⟨executable, target⟩
  · simp [targets, hstate, LinkState.targets] at h
  · exact ⟨rfl, rfl⟩
  · exact ⟨rfl, rfl⟩
  · exact ⟨rfl, rfl⟩
  · simp [targets, hstate, LinkState.targets] at h
  · exact ⟨rfl, rfl⟩

/-- A link that goes to discarded code loses what went there. -/
theorem retarget_none_of_targets {link : Link} {old : CodeId} (h : link.targets old = true) :
    (link.retarget old none).1 ≠ .unaffected ∧
      (link.retarget old none).2.link.callType = link.callType := by
  unfold retarget
  rw [h]
  rcases hstate : link.state with _ | ⟨callee, target⟩ | stub | _ | ⟨executable, target⟩
  · simp [targets, hstate, LinkState.targets] at h
  · exact ⟨by simp, unlink_link_callType link⟩
  · simp only [Bool.not_true, Bool.false_eq_true, if_false]
    split
    · exact ⟨by simp, unlink_link_callType link⟩
    · exact ⟨by simp, rfl⟩
  · simp [targets, hstate, LinkState.targets] at h
  · exact ⟨by simp, unlink_link_callType link⟩

theorem retarget_link_callType (link : Link) (old : CodeId) (new : Option CodePointer) :
    (link.retarget old new).2.link.callType = link.callType := by
  rcases htargets : link.targets old
  · rw [retarget_of_not_targets new htargets]
  · rcases new with _ | pointer
    · exact (retarget_none_of_targets htargets).2
    · exact (retarget_of_targets pointer htargets).2

theorem routes_retarget_some (link : Link) (old : CodeId) (new : CodePointer) :
    (link.retarget old (some new)).2.link.routes
      = link.routes.map fun route => if route.2.block = old then (route.1, new) else route := by
  rcases htargets : link.targets old
  · have hnone : ∀ route ∈ link.routes, ¬ route.2.block = old := by
      intro route hroute heq
      rw [targets_iff.mpr ⟨route, hroute, heq⟩] at htargets
      cases htargets
    rw [retarget_of_not_targets _ htargets, eq_comm]
    exact (List.map_congr_left fun route hroute => if_neg (hnone route hroute)).trans
      (List.map_id _)
  · unfold retarget
    rw [htargets, routes, routes]
    rcases hstate : link.state with _ | ⟨callee, target⟩ | stub | _ | ⟨executable, target⟩ <;>
      simp only [targets, hstate, LinkState.targets, Bool.false_eq_true, beq_iff_eq] at htargets
    · rcases callee with ⟨_ | cell⟩ <;> simp [LinkState.routes, repatch, htargets]
    · simp only [Bool.not_true, Bool.false_eq_true, if_false, repatch, LinkState.routes,
        Stub.routes_retargeted, List.map_map]
      apply List.map_congr_left
      intro route _
      by_cases hold : route.2.block = old <;> simp [hold]
    · simp [LinkState.routes, repatch, htargets]

theorem routes_retarget_none (link : Link) (old : CodeId) :
    (link.retarget old none).2.link.routes
      = link.routes.filter fun route => route.2.block != old := by
  rcases htargets : link.targets old
  · rw [retarget_of_not_targets _ htargets, eq_comm, List.filter_eq_self]
    intro route hroute
    rw [bne_iff_ne]
    intro heq
    rw [targets_iff.mpr ⟨route, hroute, heq⟩] at htargets
    cases htargets
  · unfold retarget
    rw [htargets]
    rcases hstate : link.state with _ | ⟨callee, target⟩ | stub | _ | ⟨executable, target⟩ <;>
      simp only [targets, hstate, LinkState.targets, Bool.false_eq_true, beq_iff_eq] at htargets
    · simpa [routes, hstate, LinkState.routes, htargets] using routes_unlink link
    · have hrest : (LinkState.polymorphic stub).routes.filter (fun route => route.2.block != old)
          = (LinkState.polymorphic (stub.withoutTarget old)).routes := by
        rw [LinkState.routes, LinkState.routes, Stub.routes_withoutTarget, List.filter_map]
        rfl
      rw [routes, routes, hstate, hrest]
      simp only [Bool.not_true, Bool.false_eq_true, if_false]
      split
      · rename_i hempty
        have hnil := List.isEmpty_iff.mp hempty
        rw [unlink_link_state]
        simp [LinkState.routes, Stub.routes, hnil]
      · rfl
    · simpa [routes, hstate, LinkState.routes, htargets] using routes_unlink link

theorem agrees_retarget {link : Link} (h : link.Agrees) (old : CodeId)
    (new : Option CodePointer) : (link.retarget old new).2.link.Agrees := by
  rcases htargets : link.targets old
  · rwa [retarget_of_not_targets new htargets]
  · unfold Agrees at h
    unfold retarget
    rw [htargets]
    rcases hstate : link.state with _ | ⟨callee, target⟩ | stub | _ | ⟨executable, target⟩ <;>
      simp only [targets, hstate, LinkState.targets, Bool.false_eq_true] at htargets <;>
      rw [hstate] at h <;>
      rcases new with _ | pointer
    · exact agrees_unlink link
    · obtain ⟨hdirect, cell, rfl, _⟩ := h
      exact ⟨hdirect, cell, rfl, rfl⟩
    · simp only [Bool.not_true, Bool.false_eq_true, if_false]
      split
      · exact agrees_unlink link
      · exact ⟨h.1, rfl⟩
    · exact ⟨h.1, rfl⟩
    · exact agrees_unlink link
    · exact ⟨h.1, h.2.1, rfl⟩

/-! ### When cells die -/

theorem forgetDeadCallee_link (link : Link) (isLive : Cell → Bool) :
    ∃ lastCallee, (link.forgetDeadCallee isLive).link = { link with lastCallee } := by
  rw [forgetDeadCallee]
  rcases link.lastCallee.visit isLive with ⟨_ | _, cleared⟩
  · exact ⟨link.lastCallee, rfl⟩
  · exact ⟨cleared, rfl⟩

theorem visitState_link_callType (link : Link) (isLive : Cell → Bool) :
    (link.visitState isLive).2.link.callType = link.callType := by
  rw [visitState]
  rcases link.state with _ | ⟨callee, target⟩ | stub | _ | ⟨executable, target⟩
  · rfl
  · dsimp only
    rcases callee.visit isLive with ⟨_ | _, _⟩
    · rfl
    · exact unlink_link_callType _
  · dsimp only
    split
    · rfl
    · split
      · exact unlink_link_callType link
      · rfl
  · rfl
  · dsimp only
    rcases executable.visit isLive with ⟨_ | _, _⟩
    · rfl
    · exact unlink_link_callType _

theorem visitWeak_link_callType (link : Link) (isLive : Cell → Bool) :
    (link.visitWeak isLive).2.link.callType = link.callType := by
  obtain ⟨lastCallee, hforgotten⟩ := forgetDeadCallee_link link isLive
  change ((link.forgetDeadCallee isLive).link.visitState isLive).2.link.callType = _
  rw [visitState_link_callType, hforgotten]

theorem routes_unlinkDead (link : Link) : link.unlinkDead.2.link.routes = [] :=
  routes_unlink link

theorem routes_visitState (link : Link) (isLive : Cell → Bool) :
    (link.visitState isLive).2.link.routes
      = link.routes.filter fun route => route.1.isLive isLive := by
  have hroutes : link.routes = link.state.routes := rfl
  unfold visitState
  rcases hstate : link.state with _ | ⟨callee, target⟩ | stub | _ | ⟨executable, target⟩ <;>
    rw [hstate] at hroutes <;> dsimp only
  · simp [hroutes, LinkState.routes]
  · have hlive := Guard.isLive_callee callee isLive
    rcases hvisit : callee.visit isLive with ⟨_ | _, cleared⟩ <;> rw [hvisit] at hlive
    · simp [hroutes, LinkState.routes, hlive]
    · simp [routes_unlinkDead, hroutes, LinkState.routes, hlive]
  · have hrest : link.routes.filter (fun route => route.1.isLive isLive)
        = (LinkState.polymorphic (stub.pruned isLive)).routes := by
      rw [hroutes, LinkState.routes, LinkState.routes, Stub.routes_pruned, List.filter_map]
      rfl
    rw [hrest]
    split
    · rename_i hall
      rw [hroutes, Stub.pruned, List.filter_eq_self.mpr (by simpa using hall)]
    · split
      · rename_i hempty
        have hnil := List.isEmpty_iff.mp hempty
        simp [routes_unlinkDead, LinkState.routes, Stub.routes, hnil]
      · rfl
  · simp [hroutes, LinkState.routes]
  · have hlive := Guard.isLive_direct executable isLive
    rcases hvisit : executable.visit isLive with ⟨_ | _, cleared⟩ <;> rw [hvisit] at hlive
    · simp [hroutes, LinkState.routes, hlive]
    · simp [routes_unlinkDead, hroutes, LinkState.routes, hlive]

theorem routes_visitWeak (link : Link) (isLive : Cell → Bool) :
    (link.visitWeak isLive).2.link.routes
      = link.routes.filter fun route => route.1.isLive isLive := by
  obtain ⟨lastCallee, hforgotten⟩ := forgetDeadCallee_link link isLive
  change ((link.forgetDeadCallee isLive).link.visitState isLive).2.link.routes = _
  rw [routes_visitState, hforgotten]
  rfl

theorem agrees_unlinkDead (link : Link) : link.unlinkDead.2.link.Agrees :=
  agrees_unlink link

theorem agrees_visitState {link : Link} (h : link.Agrees) (isLive : Cell → Bool) :
    (link.visitState isLive).2.link.Agrees := by
  rw [visitState]
  rcases hstate : link.state with _ | ⟨callee, target⟩ | stub | _ | ⟨executable, target⟩
  · exact h
  · dsimp only
    rcases callee.visit isLive with ⟨_ | _, _⟩
    · exact h
    · exact agrees_unlinkDead _
  · dsimp only
    split
    · exact h
    · split
      · exact agrees_unlinkDead _
      · unfold Agrees at h
        rw [hstate] at h
        exact ⟨h.1, rfl⟩
  · exact h
  · dsimp only
    rcases executable.visit isLive with ⟨_ | _, _⟩
    · exact h
    · exact agrees_unlinkDead _

theorem agrees_visitWeak {link : Link} (h : link.Agrees) (isLive : Cell → Bool) :
    (link.visitWeak isLive).2.link.Agrees := by
  obtain ⟨lastCallee, hforgotten⟩ := forgetDeadCallee_link link isLive
  have hagrees : (link.forgetDeadCallee isLive).link.Agrees := by
    rw [hforgotten]
    exact h
  exact agrees_visitState hagrees isLive

end Link

end InlineCache
