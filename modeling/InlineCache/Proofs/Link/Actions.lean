import InlineCache.Proofs.Link.Linking

/-!
# A record and its operations

A record says what is cached at a site twice: in the link state, which relinking and the collector
read, and in the dispatch slot, which calls read. Both are changed by a dozen operations, some of
which are refused in some modes. Whatever is done with a fresh record, in whatever order, the two
say the same, and the flags of the record say what happened to it.

An operation that does not link the site leaves it in its mode or takes a link away. That is all
that the flags depend on.
-/

namespace InlineCache

namespace Link

/-- What can be done with a record. -/
inductive Action where
  | setMonomorphic (owner callee : Cell) (target : CodePointer)
  | setStub (owner : Cell) (stub : Stub)
  | setVirtual
  | setDirect (owner executable : Cell) (target : CodePointer)
  | disallowStubs
  | retarget (old : CodeId) (new : Option CodePointer)
  | revert
  | visitWeak (isLive : Cell → Bool)
  | recordSlowPath (callee : Cell)
  | noteVarargs (count : Nat)
  | setArity (count : Nat)
  /-- A call takes a case of the stub. -/
  | hitStub (callee executable : Cell)

/-- What an action makes of a record, unless it is refused. -/
def edit (link : Link) : Action → Except LinkError Edit
  | .setMonomorphic owner callee target => link.setMonomorphic owner callee target
  | .setStub owner stub => link.setStub owner stub
  | .setVirtual => .ok link.setVirtual
  | .setDirect owner executable target => link.setDirect owner executable target
  | .disallowStubs => .ok link.disallowStubs
  | .retarget old new => .ok (link.retarget old new).2
  | .revert => .ok link.revert
  | .visitWeak isLive => .ok (link.visitWeak isLive).2
  | .recordSlowPath callee => .ok { link := link.recordSlowPath callee }
  | .noteVarargs count => .ok { link := link.noteVarargs count }
  | .setArity count => .ok { link := link.setArity count }
  | .hitStub callee executable => .ok { link := link.hitStub callee executable }

/-- The record after an action. A refused action leaves it as it is. -/
def act (link : Link) (action : Action) : Link :=
  match link.edit action with
  | .ok edit => edit.link
  | .error _ => link

def run (link : Link) (actions : List Action) : Link :=
  actions.foldl act link

/-- The second record comes about from the first. -/
def Becomes (link after : Link) : Prop := ∃ actions, link.run actions = after

theorem Becomes.refl (link : Link) : link.Becomes link := ⟨[], rfl⟩

theorem Becomes.trans {link middle after : Link} (hleft : link.Becomes middle)
    (hright : middle.Becomes after) : link.Becomes after := by
  obtain ⟨first, rfl⟩ := hleft
  obtain ⟨second, rfl⟩ := hright
  exact ⟨first ++ second, List.foldl_append⟩

theorem Becomes.single {link : Link} (action : Action) {edit : Edit}
    (h : link.edit action = .ok edit) : link.Becomes edit.link := by
  refine ⟨[action], ?_⟩
  show link.act action = edit.link
  rw [act, h]

/-- What every action keeps is kept by what comes about. -/
theorem Becomes.preserves {link after : Link} (property : Link → Prop)
    (hact : ∀ link action, property link → property (link.act action))
    (h : link.Becomes after) (hlink : property link) : property after := by
  obtain ⟨actions, rfl⟩ := h
  induction actions generalizing link with
  | nil => exact hlink
  | cons action rest ih => exact ih (hact link action hlink)

/-! ### Operations that do not link -/

/-- The record is in its mode, or a link was taken away from it. -/
structure Loosens (link after : Link) : Prop where
  callType_eq : after.callType = link.callType
  stubsAllowed_eq : after.stubsAllowed = link.stubsAllowed
  wentVirtual_eq : after.wentVirtual = link.wentVirtual
  mode : after.mode = link.mode ∧ after.clearedByCollector = link.clearedByCollector ∨
    after.mode = .init ∧ link.mode ≠ .virtual

variable {link after : Link}

theorem Loosens.refl (link : Link) : link.Loosens link :=
  ⟨rfl, rfl, rfl, .inl ⟨rfl, rfl⟩⟩

theorem Loosens.trans {middle : Link} (hleft : link.Loosens middle)
    (hright : middle.Loosens after) : link.Loosens after where
  callType_eq := hright.callType_eq.trans hleft.callType_eq
  stubsAllowed_eq := hright.stubsAllowed_eq.trans hleft.stubsAllowed_eq
  wentVirtual_eq := hright.wentVirtual_eq.trans hleft.wentVirtual_eq
  mode := by
    rcases hleft.mode with ⟨hmode, hcleared⟩ | ⟨hmode, hlinked⟩ <;>
      rcases hright.mode with ⟨hsame, hkept⟩ | ⟨hinit, hmiddle⟩
    · exact .inl ⟨hsame.trans hmode, hkept.trans hcleared⟩
    · exact .inr ⟨hinit, hmode ▸ hmiddle⟩
    · exact .inr ⟨hsame.trans hmode, hlinked⟩
    · exact .inr ⟨hinit, hlinked⟩

/-- Another state of the same mode, and another slot. -/
theorem Loosens.of_mode {state : LinkState} {site : CallSite} (hmode : state.mode = link.mode) :
    link.Loosens { link with state, site } :=
  ⟨rfl, rfl, rfl, .inl ⟨hmode, rfl⟩⟩

theorem unlink_link (link : Link) :
    ∃ site, link.unlink.link = { link with state := .unlinked, site } := by
  rw [unlink]
  rcases hstate : link.state with _ | _ | _ | _ | _
  · dsimp only
    split
    · exact ⟨link.site, by rw [← hstate]⟩
    · exact ⟨_, by rw [← hstate]; rfl⟩
  all_goals exact ⟨_, rfl⟩

theorem unlink_loosens (hmode : link.mode ≠ .virtual) : link.Loosens link.unlink.link := by
  obtain ⟨site, hunlinked⟩ := unlink_link link
  rw [hunlinked]
  exact ⟨rfl, rfl, rfl, .inr ⟨rfl, hmode⟩⟩

theorem unlinkDead_loosens (hmode : link.mode ≠ .virtual) :
    link.Loosens link.unlinkDead.2.link :=
  have hunlinked := unlink_loosens hmode
  ⟨hunlinked.callType_eq, hunlinked.stubsAllowed_eq, hunlinked.wentVirtual_eq,
    .inr ⟨by rw [mode]; exact congrArg LinkState.mode (unlink_link_state link), hmode⟩⟩

theorem Profiled.loosens (h : link.Profiled after) : link.Loosens after := by
  cases h with
  | slowPath callee => exact ⟨rfl, rfl, rfl, .inl ⟨rfl, rfl⟩⟩
  | varargs count => exact ⟨rfl, rfl, rfl, .inl ⟨rfl, rfl⟩⟩
  | hit callee executable =>
      refine .of_mode ?_
      rw [mode]
      rcases link.state with _ | _ | _ | _ | _ <;> rfl

theorem revert_loosens (link : Link) : link.Loosens link.revert.link := by
  rw [revert]
  rcases hmode : link.mode with _ | _ | _ | _ | _
  · exact .refl link
  · exact unlink_loosens (by simp [hmode])
  · exact unlink_loosens (by simp [hmode])
  · exact .refl link
  · exact unlink_loosens (by simp [hmode])

theorem retarget_loosens (link : Link) (old : CodeId) (new : Option CodePointer) :
    link.Loosens (link.retarget old new).2.link := by
  rcases htargets : link.targets old
  · rw [retarget_of_not_targets new htargets]
    exact .refl link
  · have hmode : link.mode = link.state.mode := rfl
    unfold retarget
    rw [htargets]
    rcases hstate : link.state with _ | ⟨⟨_ | cell⟩, target⟩ | stub | _ | ⟨executable, target⟩ <;>
      rw [hstate] at hmode <;>
      simp only [targets, hstate, LinkState.targets, Bool.false_eq_true] at htargets <;>
      rcases new with _ | pointer
    · exact unlink_loosens (by simp [hmode, LinkState.mode])
    · exact .of_mode hmode.symm
    · exact unlink_loosens (by simp [hmode, LinkState.mode])
    · exact .of_mode hmode.symm
    · simp only [Bool.not_true, Bool.false_eq_true, if_false]
      split
      · exact unlink_loosens (by simp [hmode, LinkState.mode])
      · exact .of_mode hmode.symm
    · exact .of_mode hmode.symm
    · exact unlink_loosens (by simp [hmode, LinkState.mode])
    · exact .of_mode hmode.symm

theorem visitState_loosens (link : Link) (isLive : Cell → Bool) :
    link.Loosens (link.visitState isLive).2.link := by
  have hmode : link.mode = link.state.mode := rfl
  rw [visitState]
  rcases hstate : link.state with _ | ⟨callee, target⟩ | stub | _ | ⟨executable, target⟩ <;>
    rw [hstate] at hmode <;> dsimp only
  · exact .refl link
  · rcases callee.visit isLive with ⟨_ | _, cleared⟩
    · exact .refl link
    · exact (Loosens.of_mode hmode.symm).trans (unlinkDead_loosens (by simp [mode, LinkState.mode]))
  · split
    · exact .refl link
    · split
      · exact unlinkDead_loosens (by simp [hmode, LinkState.mode])
      · exact .of_mode hmode.symm
  · exact .refl link
  · rcases executable.visit isLive with ⟨_ | _, cleared⟩
    · exact .refl link
    · exact (Loosens.of_mode hmode.symm).trans (unlinkDead_loosens (by simp [mode, LinkState.mode]))

theorem visitWeak_loosens (link : Link) (isLive : Cell → Bool) :
    link.Loosens (link.visitWeak isLive).2.link := by
  obtain ⟨lastCallee, hforgotten⟩ := forgetDeadCallee_link link isLive
  have hsame : link.Loosens (link.forgetDeadCallee isLive).link := by
    rw [hforgotten]
    exact ⟨rfl, rfl, rfl, .inl ⟨rfl, rfl⟩⟩
  exact hsame.trans (visitState_loosens _ isLive)

/-! ### What an operation can do -/

/-- A link was made at a site that has not gone virtual. -/
structure Tightens (link after : Link) : Prop where
  callType_eq : after.callType = link.callType
  stubsAllowed_eq : after.stubsAllowed = link.stubsAllowed
  wentVirtual_eq : after.wentVirtual = link.wentVirtual
  notVirtual : link.mode ≠ .virtual
  linked : after.mode ≠ .virtual
  /-- The first link of a site, or one more callee for it. -/
  cleared : after.clearedByCollector = false ∨
    link.mode ≠ .init ∧ after.clearedByCollector = link.clearedByCollector
  stubs : after.mode = .polymorphic → link.stubsAllowed = true

inductive Alters (link : Link) : Link → Prop where
  | loosens {after : Link} (h : link.Loosens after) : Alters link after
  | tightens {after : Link} (h : link.Tightens after) : Alters link after
  | gaveUp : Alters link link.setVirtual.link
  | barred : Alters link link.disallowStubs.link

variable {owner : Cell} {edit : Edit}

theorem setMonomorphic_tightens {callee : Cell} {target : CodePointer}
    (h : link.setMonomorphic owner callee target = .ok edit) : link.Tightens edit.link := by
  have hmode := (setMonomorphic_ok h).1
  rw [setMonomorphic] at h
  split at h
  · cases h
  · rw [← Except.ok.inj h]
    exact ⟨rfl, rfl, rfl, by simp [hmode], by rintro ⟨⟩, .inl rfl, by rintro ⟨⟩⟩

theorem setDirect_tightens {executable : Cell} {target : CodePointer}
    (h : link.setDirect owner executable target = .ok edit) : link.Tightens edit.link := by
  rw [setDirect] at h
  split at h
  · cases h
  · rename_i hallowed
    rw [not_or, not_not] at hallowed
    rw [← Except.ok.inj h]
    exact ⟨rfl, rfl, rfl, by simp [hallowed.2], by rintro ⟨⟩, .inl rfl, by rintro ⟨⟩⟩

theorem setStub_tightens {stub : Stub} (h : link.setStub owner stub = .ok edit) :
    link.Tightens edit.link := by
  have hmode := (setStub_ok h).1
  rw [setStub] at h
  split at h
  · cases h
  · split at h
    · cases h
    · rename_i hstubs
      rw [Bool.not_eq_true, Bool.not_eq_false'] at hstubs
      rw [← Except.ok.inj h]
      refine ⟨rfl, rfl, rfl, ?_, by rintro ⟨⟩, .inr ⟨?_, rfl⟩, fun _ => hstubs⟩ <;>
        rcases hmode with hmode | hmode <;> simp [hmode]

theorem edit_alters {action : Action} (h : link.edit action = .ok edit) :
    link.Alters edit.link := by
  cases action with
  | setMonomorphic owner callee target => exact .tightens (setMonomorphic_tightens h)
  | setStub owner stub => exact .tightens (setStub_tightens h)
  | setDirect owner executable target => exact .tightens (setDirect_tightens h)
  | setVirtual =>
      obtain rfl := Except.ok.inj h
      exact .gaveUp
  | disallowStubs =>
      obtain rfl := Except.ok.inj h
      exact .barred
  | retarget old new =>
      obtain rfl := Except.ok.inj h
      exact .loosens (retarget_loosens link old new)
  | revert =>
      obtain rfl := Except.ok.inj h
      exact .loosens (revert_loosens link)
  | visitWeak isLive =>
      obtain rfl := Except.ok.inj h
      exact .loosens (visitWeak_loosens link isLive)
  | recordSlowPath callee =>
      obtain rfl := Except.ok.inj h
      exact .loosens (Profiled.slowPath callee).loosens
  | noteVarargs count =>
      obtain rfl := Except.ok.inj h
      exact .loosens (Profiled.varargs count).loosens
  | setArity count =>
      obtain rfl := Except.ok.inj h
      exact .loosens ⟨rfl, rfl, rfl, .inl ⟨rfl, rfl⟩⟩
  | hitStub callee executable =>
      obtain rfl := Except.ok.inj h
      exact .loosens (Profiled.hit callee executable).loosens

theorem act_alters (link : Link) (action : Action) : link.Alters (link.act action) := by
  rw [act]
  split
  · rename_i edit hedit
    exact edit_alters hedit
  · exact .loosens (.refl link)

/-! ### What every operation keeps -/

theorem setVirtual_link_mode (link : Link) : link.setVirtual.link.mode = .virtual := by
  rw [setVirtual]
  split
  · assumption
  · rfl

theorem setVirtual_of_mode (hmode : link.mode = .virtual) : link.setVirtual = { link } :=
  if_pos hmode

theorem Alters.callType_eq (h : link.Alters after) : after.callType = link.callType := by
  cases h with
  | loosens h => exact h.callType_eq
  | tightens h => exact h.callType_eq
  | gaveUp => exact setVirtual_link_callType link
  | barred => exact disallowStubs_link_callType link

/-- A site that has gone virtual stays virtual. -/
theorem Alters.mode_virtual (h : link.Alters after) (hmode : link.mode = .virtual) :
    after.mode = .virtual := by
  cases h with
  | loosens h =>
      rcases h.mode with ⟨hsame, _⟩ | ⟨_, hlinked⟩
      · exact hsame.trans hmode
      · exact absurd hmode hlinked
  | tightens h => exact absurd hmode h.notVirtual
  | gaveUp => exact setVirtual_link_mode link
  | barred =>
      rcases disallowStubs_cases link with hbarred | hbarred <;> rw [hbarred]
      · exact hmode
      · exact setVirtual_link_mode _

theorem Becomes.callType_eq (h : link.Becomes after) : after.callType = link.callType :=
  h.preserves (·.callType = link.callType)
    (fun link action hlink => (act_alters link action).callType_eq.trans hlink) rfl

theorem Becomes.mode_virtual (h : link.Becomes after) (hmode : link.mode = .virtual) :
    after.mode = .virtual :=
  h.preserves (·.mode = .virtual) (fun link action => (act_alters link action).mode_virtual) hmode

/-- The flags of a record say what happened to it. -/
structure Flagged (link : Link) : Prop where
  virtual : link.wentVirtual = true ↔ link.mode = .virtual
  cleared : link.clearedByCollector = true → link.mode = .init ∨ link.mode = .virtual
  stubs : link.mode = .polymorphic → link.stubsAllowed = true

theorem flagged_fresh (descriptor : SiteDescriptor) (locations : Locations) (ceiling : Nat) :
    (fresh descriptor locations ceiling).Flagged :=
  ⟨by simp [fresh, mode, LinkState.mode], nofun, fun _ => rfl⟩

namespace Flagged

theorem loosens (hflags : link.Flagged) (h : link.Loosens after) : after.Flagged := by
  rcases h.mode with ⟨hmode, hcleared⟩ | ⟨hinit, hlinked⟩
  · refine ⟨?_, ?_, ?_⟩
    · rw [h.wentVirtual_eq, hmode]
      exact hflags.virtual
    · rw [hcleared, hmode]
      exact hflags.cleared
    · rw [h.stubsAllowed_eq, hmode]
      exact hflags.stubs
  · refine ⟨?_, fun _ => .inl hinit, ?_⟩
    · rw [h.wentVirtual_eq, hinit, hflags.virtual]
      simp [hlinked]
    · simp [hinit]

theorem tightens (hflags : link.Flagged) (h : link.Tightens after) : after.Flagged := by
  refine ⟨?_, fun hafter => ?_, fun hmode => h.stubsAllowed_eq.trans (h.stubs hmode)⟩
  · rw [h.wentVirtual_eq, hflags.virtual]
    exact iff_of_false h.notVirtual h.linked
  · rcases h.cleared with hcleared | ⟨hlinked, hcleared⟩
    · rw [hcleared] at hafter
      cases hafter
    · rcases hflags.cleared (hcleared.symm.trans hafter) with hinit | hvirtual
      · exact absurd hinit hlinked
      · exact absurd hvirtual h.notVirtual

theorem setVirtual (hflags : link.Flagged) : link.setVirtual.link.Flagged := by
  by_cases hmode : link.mode = .virtual
  · rw [setVirtual_of_mode hmode]
    exact hflags
  · rw [Link.setVirtual, if_neg hmode]
    exact ⟨iff_of_true rfl rfl, fun _ => .inr rfl, by rintro ⟨⟩⟩

theorem disallowStubs (hflags : link.Flagged) : link.disallowStubs.link.Flagged := by
  rw [Link.disallowStubs]
  split
  · rename_i hmode
    -- The mode that needs stubs is left at once, so the flag is free to be taken away.
    rw [Link.setVirtual, if_neg (by simp [hmode])]
    exact ⟨iff_of_true rfl rfl, fun _ => .inr rfl, by rintro ⟨⟩⟩
  · rename_i hmode
    exact ⟨hflags.virtual, hflags.cleared, fun hpolymorphic => absurd hpolymorphic hmode⟩

theorem alters (hflags : link.Flagged) (h : link.Alters after) : after.Flagged := by
  cases h with
  | loosens h => exact hflags.loosens h
  | tightens h => exact hflags.tightens h
  | gaveUp => exact hflags.setVirtual
  | barred => exact hflags.disallowStubs

theorem becomes (hflags : link.Flagged) (h : link.Becomes after) : after.Flagged :=
  h.preserves Flagged (fun link action hlink => hlink.alters (act_alters link action)) hflags

end Flagged

/-! ### The state and the slot -/

theorem edit_agrees {action : Action} (h : link.edit action = .ok edit) (hagrees : link.Agrees) :
    edit.link.Agrees := by
  cases action with
  | setMonomorphic owner callee target => exact agrees_setMonomorphic h
  | setStub owner stub => exact agrees_setStub hagrees h
  | setDirect owner executable target => exact agrees_setDirect h
  | setVirtual =>
      obtain rfl := Except.ok.inj h
      exact agrees_setVirtual hagrees
  | disallowStubs =>
      obtain rfl := Except.ok.inj h
      exact agrees_disallowStubs hagrees
  | retarget old new =>
      obtain rfl := Except.ok.inj h
      exact agrees_retarget hagrees old new
  | revert =>
      obtain rfl := Except.ok.inj h
      exact agrees_revert hagrees
  | visitWeak isLive =>
      obtain rfl := Except.ok.inj h
      exact agrees_visitWeak hagrees isLive
  | recordSlowPath callee =>
      obtain rfl := Except.ok.inj h
      exact hagrees
  | noteVarargs count =>
      obtain rfl := Except.ok.inj h
      exact hagrees
  | setArity count =>
      obtain rfl := Except.ok.inj h
      exact hagrees
  | hitStub callee executable =>
      obtain rfl := Except.ok.inj h
      exact (Profiled.hit callee executable).agrees hagrees

theorem act_agrees (action : Action) (hagrees : link.Agrees) : (link.act action).Agrees := by
  rw [act]
  split
  · rename_i edit hedit
    exact edit_agrees hedit hagrees
  · exact hagrees

theorem Becomes.agrees (h : link.Becomes after) (hagrees : link.Agrees) : after.Agrees :=
  h.preserves Agrees (fun _ action => act_agrees action) hagrees

/-! ### Records in use -/

theorem Profiled.becomes (h : link.Profiled after) : link.Becomes after := by
  cases h with
  | slowPath callee => exact .single (.recordSlowPath callee) rfl
  | varargs count => exact .single (.noteVarargs count) rfl
  | hit callee executable => exact .single (.hitStub callee executable) rfl

theorem Installs.becomes {heap : Heap Entity} {capacity : Nat} {callee : Resolved}
    {codes : List CodeId} (h : link.Installs heap owner capacity callee after codes) :
    link.Becomes after := by
  cases h with
  | kept => exact .refl link
  | gaveUp => exact .single .setVirtual rfl
  | monomorphic hset => exact .single (.setMonomorphic _ _ _) hset
  | polymorphic hgrow hset => exact .single (.setStub _ _) hset
  | direct arity hset =>
      have hlinked : link.Becomes _ := .single (.setDirect _ _ _) hset
      exact hlinked.trans (.single (.setArity arity) rfl)

theorem Agrees.isDirect_of_mode (h : link.Agrees) (hmode : link.mode = .linkedDirect) :
    link.isDirect = true := by
  unfold Agrees at h
  rw [mode] at hmode
  rcases hstate : link.state with _ | _ | _ | _ | _ <;>
    simp only [hstate, LinkState.mode, reduceCtorEq] at hmode
  rw [hstate] at h
  exact h.1

/-- Whatever is done with a fresh record, its slot says what its state says, a direct site is linked
directly and no other site is, and a site that has gone virtual stays so. The flags of the record
say that it has gone virtual, that the collector took its last link, and that it may have a stub. -/
theorem run_fresh_consistent (descriptor : SiteDescriptor) (locations : Locations) (ceiling : Nat)
    (actions : List Action) :
    let link := (fresh descriptor locations ceiling).run actions
    link.Agrees ∧
      (descriptor.callType.isDirect = true →
        link.mode ≠ .monomorphic ∧ link.mode ≠ .polymorphic) ∧
      (descriptor.callType.isDirect = false → link.mode ≠ .linkedDirect) ∧
      (link.mode = .virtual → ∀ more, (link.run more).mode = .virtual) ∧
      (link.wentVirtual = true ↔ link.mode = .virtual) ∧
      (link.clearedByCollector = true → link.mode = .init ∨ link.mode = .virtual) ∧
      (link.mode = .polymorphic → link.stubsAllowed = true) := by
  intro link
  have hbecomes : (fresh descriptor locations ceiling).Becomes link := ⟨actions, rfl⟩
  have hagrees : link.Agrees := hbecomes.agrees (agrees_fresh descriptor locations ceiling)
  have hflags : link.Flagged := (flagged_fresh descriptor locations ceiling).becomes hbecomes
  have hdirect : link.isDirect = descriptor.callType.isDirect :=
    congrArg CallType.isDirect hbecomes.callType_eq
  refine ⟨hagrees, fun htype => ⟨fun hmode => ?_, fun hmode => ?_⟩, fun htype hmode => ?_,
    fun hmode more => ?_, hflags.virtual, hflags.cleared, hflags.stubs⟩
  · have hguarded := hagrees.not_direct_of_mode (.inl hmode)
    rw [hdirect, htype] at hguarded
    cases hguarded
  · have hguarded := hagrees.not_direct_of_mode (.inr hmode)
    rw [hdirect, htype] at hguarded
    cases hguarded
  · have hlinked := hagrees.isDirect_of_mode hmode
    rw [hdirect, htype] at hlinked
    cases hlinked
  · exact Becomes.mode_virtual ⟨more, rfl⟩ hmode

end Link

end InlineCache
