import InlineCache.Proofs.Link.Linking

/-!
# The stubs that links hold

Growing a stub gives it its shape. No other change of a link makes a stub: it keeps the variants of
the stub that is there, or drops some of them and leaves at least one.
-/

namespace InlineCache

namespace Link

/-- The stub that the link holds is well shaped, if there is one. -/
def Shaped (capacity : Nat) (link : Link) : Prop :=
  ∀ stub, link.state = .polymorphic stub → stub.WellShaped capacity

variable {link after : Link} {capacity : Nat}

theorem Shaped.of_unlinked (h : link.state = .unlinked) : link.Shaped capacity := by
  intro stub hstub
  rw [h] at hstub
  cases hstub

theorem shaped_of_profiled (h : Profiled link after) (hshaped : link.Shaped capacity) :
    after.Shaped capacity := by
  cases h with
  | slowPath callee => exact hshaped
  | varargs count => exact hshaped
  | hit callee executable =>
      intro stub hstub
      rw [hitStub] at hstub
      rcases hstate : link.state with _ | _ | before | _ | _ <;> rw [hstate] at hstub <;>
        cases hstub
      exact (hshaped before hstate).of_variants
        (Stub.variants_eq_of_routes (before.routes_hit callee executable))

theorem shaped_unlink (link : Link) : link.unlink.link.Shaped capacity :=
  .of_unlinked (unlink_link_state link)

theorem shaped_setVirtual (hshaped : link.Shaped capacity) :
    link.setVirtual.link.Shaped capacity := by
  rw [setVirtual]
  split
  · exact hshaped
  · intro stub hstub
    cases hstub

theorem shaped_disallowStubs (hshaped : link.Shaped capacity) :
    link.disallowStubs.link.Shaped capacity := by
  have hbarred : ({ link with stubsAllowed := false } : Link).Shaped capacity := hshaped
  rcases disallowStubs_cases link with heq | heq <;> rw [heq]
  · exact hbarred
  · exact shaped_setVirtual hbarred

theorem shaped_revert (hshaped : link.Shaped capacity) : link.revert.link.Shaped capacity := by
  rw [revert]
  split
  · exact hshaped
  · exact hshaped
  · exact shaped_unlink link
  · exact shaped_unlink link
  · exact shaped_unlink link

theorem shaped_retarget (hshaped : link.Shaped capacity) (old : CodeId)
    (new : Option CodePointer) : (link.retarget old new).2.link.Shaped capacity := by
  rcases htargets : link.targets old
  · rwa [retarget_of_not_targets new htargets]
  · unfold retarget
    rw [htargets]
    rcases hstate : link.state with _ | ⟨⟨_ | cell⟩, target⟩ | before | _ | ⟨executable, target⟩ <;>
      simp only [targets, hstate, LinkState.targets, Bool.false_eq_true] at htargets <;>
      rcases new with _ | pointer
    · exact shaped_unlink link
    · rintro _ ⟨⟩
    · exact shaped_unlink link
    · rintro _ ⟨⟩
    · simp only [Bool.not_true, Bool.false_eq_true, if_false]
      split
      · exact shaped_unlink link
      · rename_i hsome
        intro stub hstub
        obtain rfl : before.withoutTarget old = stub := LinkState.polymorphic.inj hstub
        exact (hshaped before hstate).filter _ rfl (Bool.not_eq_true _ ▸ hsome)
    · intro stub hstub
      obtain rfl : before.retargeted old pointer = stub := LinkState.polymorphic.inj hstub
      refine (hshaped before hstate).of_variants ?_
      rw [Stub.retargeted, List.map_map]
      refine List.map_congr_left fun case _ => ?_
      dsimp only [Function.comp]
      split <;> rfl
    · exact shaped_unlink link
    · rintro _ ⟨⟩

theorem shaped_visitState (hshaped : link.Shaped capacity) (isLive : Cell → Bool) :
    (link.visitState isLive).2.link.Shaped capacity := by
  rw [visitState]
  rcases hstate : link.state with _ | ⟨callee, target⟩ | before | _ | ⟨executable, target⟩
  · exact hshaped
  · dsimp only
    rcases callee.visit isLive with ⟨_ | _, _⟩
    · exact hshaped
    · exact shaped_unlink _
  · dsimp only
    split
    · exact hshaped
    · split
      · exact shaped_unlink link
      · rename_i hsome
        intro stub hstub
        obtain rfl : before.pruned isLive = stub := LinkState.polymorphic.inj hstub
        exact (hshaped before hstate).filter _ rfl (Bool.not_eq_true _ ▸ hsome)
  · exact hshaped
  · dsimp only
    rcases executable.visit isLive with ⟨_ | _, _⟩
    · exact hshaped
    · exact shaped_unlink _

theorem shaped_visitWeak (hshaped : link.Shaped capacity) (isLive : Cell → Bool) :
    (link.visitWeak isLive).2.link.Shaped capacity := by
  obtain ⟨lastCallee, hforgotten⟩ := forgetDeadCallee_link link isLive
  have hsame : (link.forgetDeadCallee isLive).link.Shaped capacity := by
    rw [hforgotten]
    exact hshaped
  exact shaped_visitState hsame isLive

/-- Linking a call makes a stub only by growing it. -/
theorem shaped_of_installs {heap : Heap Entity} {owner : Cell} {callee : Resolved}
    {codes : List CodeId} (h : Installs heap owner capacity callee link after codes)
    (hshaped : link.Shaped capacity) : after.Shaped capacity := by
  cases h with
  | kept => exact hshaped
  | gaveUp => exact shaped_setVirtual hshaped
  | monomorphic hset =>
      intro stub hstub
      rw [(setMonomorphic_ok hset).2.2.2.1] at hstub
      cases hstub
  | polymorphic hgrow hset =>
      intro stub hstub
      rw [(setStub_ok hset).2.2.1] at hstub
      rw [← LinkState.polymorphic.inj hstub]
      exact Stub.wellShaped_of_grow hgrow
  | direct arity hset =>
      intro stub hstub
      have hstate : (Link.setArity _ arity).state = _ := (setDirect_ok hset).2.2.1
      rw [hstate] at hstub
      cases hstub

end Link

end InlineCache
