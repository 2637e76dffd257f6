import InlineCache.Linker
import InlineCache.Proofs.Link.Routes

/-!
# What linking installs

A call that took the slow path changes the record of its site in one of five ways, and says which
blocks the site goes to from then on. The linker is never refused by the record: it asks only for
changes that the mode of the link allows.
-/

namespace InlineCache

/-- The blocks that a linked site now goes to. -/
def LinkOutcome.codes : LinkOutcome → List CodeId
  | .linked targets => targets
  | .virtualized => []
  | .unchanged => []

namespace Link

/-- The ways in which linking a call to `callee` can leave the record of its site, each with the
blocks that the site is then reported to go to. -/
inductive Installs (heap : Heap Entity) (owner : Cell) (capacity : Nat) (callee : Resolved)
    (link : Link) : Link → List CodeId → Prop where
  | kept : Installs heap owner capacity callee link link []
  | gaveUp : Installs heap owner capacity callee link link.setVirtual.link []
  | monomorphic {edit : Edit}
      (hset : link.setMonomorphic owner callee.callee callee.target = .ok edit) :
      Installs heap owner capacity callee link edit.link [callee.target.block]
  | polymorphic {id : StubId} {stub : Stub} {widened : Bool} {edit : Edit}
      (hgrow : Stub.grow id (Linker.existingCases heap link)
        (.function callee.callee callee.executable) callee.target capacity = .built stub widened)
      (hset : link.setStub owner stub = .ok edit) :
      Installs heap owner capacity callee link edit.link
        (stub.cases.map fun case => case.target.block)
  | direct {edit : Edit} (arity : Nat)
      (hset : link.setDirect owner callee.executable callee.target = .ok edit) :
      Installs heap owner capacity callee link (edit.link.setArity arity) [callee.target.block]

variable {link after : Link} {owner : Cell} {edit : Edit}

theorem setMonomorphic_ok {callee : Cell} {target : CodePointer}
    (h : link.setMonomorphic owner callee target = .ok edit) :
    link.mode = .init ∧ link.isDirect = false ∧ edit.link.callType = link.callType ∧
      edit.link.state = .monomorphic (.ofCell callee) target ∧
      edit.link.site.target = .guarded callee target := by
  rw [setMonomorphic] at h
  split at h
  · cases h
  · rename_i hallowed
    rw [not_or, not_not, Bool.not_eq_true] at hallowed
    rw [← Except.ok.inj h]
    exact ⟨hallowed.1, hallowed.2, rfl, rfl, rfl⟩

theorem setMonomorphic_of_mode (hmode : link.mode = .init) (hdirect : link.isDirect = false)
    (owner callee : Cell) (target : CodePointer) :
    ∃ edit, link.setMonomorphic owner callee target = .ok edit := by
  rw [setMonomorphic, if_neg]
  · exact ⟨_, rfl⟩
  · simp [hmode, hdirect]

theorem setStub_of_mode (hmode : link.mode = .monomorphic ∨ link.mode = .polymorphic)
    (hallowed : link.stubsAllowed = true) (owner : Cell) (stub : Stub) :
    ∃ edit, link.setStub owner stub = .ok edit := by
  rw [setStub, if_neg, if_neg]
  · exact ⟨_, rfl⟩
  · simp [hallowed]
  · rcases hmode with hmode | hmode <;> simp [hmode]

theorem setStub_ok {stub : Stub} (h : link.setStub owner stub = .ok edit) :
    (link.mode = .monomorphic ∨ link.mode = .polymorphic) ∧ edit.link.callType = link.callType ∧
      edit.link.state = .polymorphic stub ∧ edit.link.site.target = .stub stub := by
  rw [setStub] at h
  split at h
  · cases h
  · rename_i hmode
    split at h
    · cases h
    · rw [← Except.ok.inj h]
      refine ⟨?_, rfl, rfl, rfl⟩
      rcases hlink : link.mode with _ | _ | _ | _ | _ <;> simp [hlink] at hmode ⊢

theorem setDirect_ok {executable : Cell} {target : CodePointer}
    (h : link.setDirect owner executable target = .ok edit) :
    link.isDirect = true ∧ edit.link.callType = link.callType ∧
      edit.link.state = .direct (.ofCell executable) target ∧
      edit.link.site.target = .direct target := by
  rw [setDirect] at h
  split at h
  · cases h
  · rename_i hallowed
    rw [not_or, Bool.not_eq_true, Bool.not_eq_false'] at hallowed
    rw [← Except.ok.inj h]
    exact ⟨hallowed.1, rfl, rfl, rfl⟩

/-- Only sites that are not direct are linked through a guard or a stub. -/
theorem Agrees.not_direct_of_mode (h : link.Agrees)
    (hmode : link.mode = .monomorphic ∨ link.mode = .polymorphic) : link.isDirect = false := by
  unfold Agrees at h
  rw [mode] at hmode
  rcases hstate : link.state with _ | _ | _ | _ | _ <;>
    simp only [hstate, LinkState.mode, reduceCtorEq, or_self, or_false, or_true] at hmode <;>
    rw [hstate] at h
  · exact h.1
  · exact h.1

theorem agrees_setMonomorphic {callee : Cell} {target : CodePointer}
    (h : link.setMonomorphic owner callee target = .ok edit) : edit.link.Agrees := by
  obtain ⟨_, hdirect, htype, hstate, htarget⟩ := setMonomorphic_ok h
  rw [Agrees, hstate]
  exact ⟨by rw [isDirect, htype]; exact hdirect, callee, rfl, htarget⟩

theorem agrees_setStub {stub : Stub} (hagrees : link.Agrees)
    (h : link.setStub owner stub = .ok edit) : edit.link.Agrees := by
  obtain ⟨hmode, htype, hstate, htarget⟩ := setStub_ok h
  rw [Agrees, hstate]
  exact ⟨by rw [isDirect, htype]; exact hagrees.not_direct_of_mode hmode, htarget⟩

theorem agrees_setDirect {executable : Cell} {target : CodePointer}
    (h : link.setDirect owner executable target = .ok edit) : edit.link.Agrees := by
  obtain ⟨hdirect, htype, hstate, htarget⟩ := setDirect_ok h
  rw [Agrees, hstate]
  exact ⟨by rw [isDirect, htype]; exact hdirect, ⟨executable, rfl⟩, htarget⟩

namespace Installs

variable {heap : Heap Entity} {capacity : Nat} {callee : Resolved} {codes : List CodeId}

theorem callType_eq (h : Installs heap owner capacity callee link after codes) :
    after.callType = link.callType := by
  cases h with
  | kept => rfl
  | gaveUp => exact setVirtual_link_callType link
  | monomorphic hset => exact (setMonomorphic_ok hset).2.2.1
  | polymorphic hgrow hset => exact (setStub_ok hset).2.1
  | direct arity hset => exact (setDirect_ok hset).2.1

theorem agrees (h : Installs heap owner capacity callee link after codes)
    (hagrees : link.Agrees) : after.Agrees := by
  cases h with
  | kept => exact hagrees
  | gaveUp => exact agrees_setVirtual hagrees
  | monomorphic hset => exact agrees_setMonomorphic hset
  | polymorphic hgrow hset => exact agrees_setStub hagrees hset
  | direct arity hset => exact agrees_setDirect hset

end Installs

end Link

/-! ### What guards say about their callees -/

/-- The callees that pass the guard are closures of the executable. A direct route has no guard, but
it was made for the executable. -/
def Guard.Names (heap : Heap Entity) (executable : Cell) : Guard → Prop
  | .callee ref => ∃ cell, ref = .ofCell cell ∧ heap.executableOf? cell = some executable
  | .case variant => variant.executable = executable ∧
      ∀ callee, variant.callee? = some callee → heap.executableOf? callee = some executable
  | .direct ref => ref = .ofCell executable

/-- The one callee that passes the guard, if it asks for one. -/
def Guard.callee? : Guard → Option Cell
  | .callee ref => ref.target
  | .case variant => variant.callee?
  | .direct _ => none

theorem Guard.mem_cells_of_callee? {guard : Guard} {callee : Cell}
    (h : guard.callee? = some callee) : callee ∈ guard.cells := by
  rcases guard with ref | (⟨expected, executable⟩ | executable) | ref
  · exact Option.mem_toList.mpr h
  · rw [← Option.some.inj h]
    exact List.mem_cons_self
  · cases h
  · cases h

/-- What a guard says depends on the cells that it names. -/
theorem Guard.Names.congr {before after : Heap Entity} {guard : Guard} {executable : Cell}
    (hcells : ∀ cell ∈ guard.cells, before.executableOf? cell = some executable →
      after.executableOf? cell = some executable)
    (h : guard.Names before executable) : guard.Names after executable := by
  rcases guard with ref | variant | ref
  · obtain ⟨cell, rfl, hcell⟩ := h
    exact ⟨cell, rfl, hcells cell (List.mem_singleton_self _) hcell⟩
  · exact ⟨h.1, fun callee hcallee =>
      hcells callee (Guard.mem_cells_of_callee? hcallee) (h.2 callee hcallee)⟩
  · exact h

namespace Link

variable {link after : Link} {owner : Cell}

/-- A case that a stub starts from goes where the link went before, for the same callee and the same
executable. -/
theorem route_of_mem_existingCases {heap : Heap Entity} {case : Case}
    (h : case ∈ Linker.existingCases heap link) :
    ∃ route ∈ link.routes, route.2 = case.target ∧
      case.variant.callee? = route.1.callee? ∧ ∀ executable, route.1.Names heap executable →
        (Guard.case case.variant).Names heap executable := by
  unfold Linker.existingCases at h
  rw [routes]
  rcases hstate : link.state with _ | ⟨callee, target⟩ | stub | _ | ⟨executable, target⟩ <;>
    rw [hstate] at h <;> dsimp only at h
  · cases h
  · refine ⟨_, List.mem_singleton_self _, ?_⟩
    rcases hcallee : callee.get? heap.contains with _ | cell <;> rw [hcallee] at h <;>
      dsimp only at h
    · cases h
    · rcases hexecutable : heap.executableOf? cell with _ | executable <;>
        rw [hexecutable] at h <;> dsimp only at h
      · cases h
      · rw [List.mem_singleton.mp h]
        refine ⟨rfl, (Option.filter_eq_some_iff.mp hcallee).1.symm, ?_⟩
        rintro _ ⟨expected, rfl, hnamed⟩
        obtain rfl : expected = cell := Option.some.inj (Option.filter_eq_some_iff.mp hcallee).1
        obtain rfl := Option.some.inj (hexecutable.symm.trans hnamed)
        refine ⟨rfl, fun callee heq => ?_⟩
        rw [← Option.some.inj heq]
        exact hnamed
  · refine ⟨(.case case.variant, case.target), ?_, rfl, rfl, fun _ hnames => hnames⟩
    rw [LinkState.routes]
    exact List.mem_map.mpr ⟨case.route, Stub.mem_routes.mpr ⟨case, h, rfl⟩, rfl⟩
  · cases h
  · cases h

namespace Installs

variable {heap : Heap Entity} {capacity : Nat} {callee : Resolved} {codes : List CodeId}

/-- Linking sends calls to the code of the callee, or where the link went before, for the same
executable. It asks for this callee and for those that the link asked for. -/
theorem route_cases (h : Installs heap owner capacity callee link after codes)
    {route : Guard × CodePointer} (hroute : route ∈ after.routes) :
    (route.2 = callee.target ∧ (∀ cell, route.1.callee? = some cell → cell = callee.callee) ∧
      (heap.executableOf? callee.callee = some callee.executable →
        route.1.Names heap callee.executable)) ∨
    ∃ before ∈ link.routes, before.2 = route.2 ∧
      (∀ cell, route.1.callee? = some cell → before.1.callee? = some cell) ∧
      ∀ executable, before.1.Names heap executable → route.1.Names heap executable := by
  cases h with
  | kept => exact .inr ⟨route, hroute, rfl, fun _ hcell => hcell, fun _ hnames => hnames⟩
  | gaveUp =>
      rw [routes_setVirtual] at hroute
      cases hroute
  | monomorphic hset =>
      rw [routes, (setMonomorphic_ok hset).2.2.2.1, LinkState.routes, List.mem_singleton] at hroute
      rw [hroute]
      exact .inl ⟨rfl, fun _ hcell => (Option.some.inj hcell).symm,
        fun hclosure => ⟨callee.callee, rfl, hclosure⟩⟩
  | polymorphic hgrow hset =>
      rw [routes, (setStub_ok hset).2.2.1, LinkState.routes] at hroute
      obtain ⟨_, hmem, rfl⟩ := List.mem_map.mp hroute
      obtain ⟨case, hcase, rfl⟩ := Stub.mem_routes.mp hmem
      obtain ⟨before, hbefore, htarget, hexecutable, hcallee⟩ :=
        Stub.origin_of_grow hgrow case hcase
      -- a grown case has the executable of the case it stands for, and its callee or none
      have hasks : ∀ cell, case.variant.callee? = some cell →
          before.variant.callee? = some cell := by
        intro cell hcell
        rcases hcallee with hnone | hsame
        · exact absurd (hnone.symm.trans hcell) (by simp)
        · exact hsame.symm.trans hcell
      have hnames : ∀ executable, (Guard.case before.variant).Names heap executable →
          (Guard.case case.variant).Names heap executable :=
        fun executable hnames => ⟨hexecutable.trans hnames.1, fun cell hcell =>
          hnames.2 cell (hasks cell hcell)⟩
      rcases List.mem_append.mp hbefore with hold | hnew
      · obtain ⟨found, hfound, heq, hsame, hfrom⟩ := route_of_mem_existingCases hold
        exact .inr ⟨found, hfound, heq.trans htarget.symm,
          fun cell hcell => hsame.symm.trans (hasks cell hcell),
          fun executable hnamed => hnames executable (hfrom executable hnamed)⟩
      · rw [List.mem_singleton.mp hnew] at htarget hasks hnames
        refine .inl ⟨htarget, fun cell hcell => (Option.some.inj (hasks cell hcell)).symm,
          fun hclosure => hnames _ ⟨rfl, fun cell hcell => ?_⟩⟩
        rw [← Option.some.inj hcell]
        exact hclosure
  | direct arity hset =>
      have hstate : (Link.setArity _ arity).state = _ := (setDirect_ok hset).2.2.1
      rw [routes, hstate, LinkState.routes, List.mem_singleton] at hroute
      rw [hroute]
      exact .inl ⟨rfl, by rintro _ ⟨⟩, fun _ => rfl⟩

/-- Linking reports every block that the site goes to, unless it leaves the link alone. -/
theorem block_mem (h : Installs heap owner capacity callee link after codes)
    {route : Guard × CodePointer} (hroute : route ∈ after.routes) :
    route ∈ link.routes ∨ route.2.block ∈ codes := by
  cases h with
  | kept => exact Or.inl hroute
  | gaveUp =>
      rw [routes_setVirtual] at hroute
      cases hroute
  | monomorphic hset =>
      rw [routes, (setMonomorphic_ok hset).2.2.2.1, LinkState.routes, List.mem_singleton] at hroute
      exact Or.inr (by simp [hroute])
  | polymorphic hgrow hset =>
      rw [routes, (setStub_ok hset).2.2.1, LinkState.routes] at hroute
      obtain ⟨_, hmem, rfl⟩ := List.mem_map.mp hroute
      obtain ⟨case, hcase, rfl⟩ := Stub.mem_routes.mp hmem
      exact Or.inr (List.mem_map.mpr ⟨case, hcase, rfl⟩)
  | direct arity hset =>
      have hstate : (Link.setArity _ arity).state = _ := (setDirect_ok hset).2.2.1
      rw [routes, hstate, LinkState.routes, List.mem_singleton] at hroute
      exact Or.inr (by simp [hroute])

end Installs

end Link

/-! ### The linker -/

namespace Linker

open Link

variable (linker : Linker) (heap : Heap Entity) (owner : Cell) (capacity : Nat) (callee : Resolved)

theorem goVirtual_link (reason : VirtualReason) :
    (linker.goVirtual reason).link = linker.link.setVirtual.link := by
  rw [goVirtual]
  split
  · rename_i hmode
    rw [setVirtual, if_pos hmode]
  · rfl

theorem linkPolymorphic_installs (hmode : linker.link.mode = .monomorphic ∨
    linker.link.mode = .polymorphic) :
    ∃ outcome, (linker.linkPolymorphic heap owner capacity callee).1 = .ok outcome ∧
      Installs heap owner capacity callee linker.link
        (linker.linkPolymorphic heap owner capacity callee).2.link outcome.codes := by
  rw [linkPolymorphic]
  split
  · refine ⟨.virtualized, rfl, ?_⟩
    rw [goVirtual_link]
    exact .gaveUp
  · rename_i hallowed
    dsimp only
    rcases hgrow : Stub.grow linker.lastStub.next (existingCases heap linker.link)
      (.function callee.callee callee.executable) callee.target capacity with ⟨stub, widened⟩ | _
    · obtain ⟨edit, hset⟩ := setStub_of_mode hmode (by simpa using hallowed) owner stub
      dsimp only
      rw [hset]
      refine ⟨_, rfl, ?_⟩
      exact .polymorphic hgrow hset
    · refine ⟨.virtualized, rfl, ?_⟩
      dsimp only
      rw [goVirtual_link]
      exact .gaveUp

theorem linkDirect_installs (hdirect : linker.link.isDirect = true) :
    ∃ outcome, (linker.linkDirect owner callee).1 = .ok outcome ∧
      Installs heap owner capacity callee linker.link
        (linker.linkDirect owner callee).2.link outcome.codes := by
  rw [linkDirect]
  split
  · exact ⟨.unchanged, rfl, .kept⟩
  · rename_i hmode
    have hset : ∃ edit, linker.link.setDirect owner callee.executable callee.target = .ok edit := by
      rw [setDirect, if_neg]
      · exact ⟨_, rfl⟩
      · rw [not_or, hdirect]
        exact ⟨by simp, hmode⟩
    obtain ⟨edit, hset⟩ := hset
    rw [hset]
    exact ⟨.linked [callee.target.block], rfl, .direct _ hset⟩

/-- Linking a call succeeds, and leaves the record in one of the five ways. -/
theorem linkCall_installs :
    ∃ outcome, (linker.linkCall heap owner capacity callee).1 = .ok outcome ∧
      Installs heap owner capacity callee linker.link
        (linker.linkCall heap owner capacity callee).2.link outcome.codes := by
  unfold linkCall
  split
  · rename_i hdirect
    exact linkDirect_installs linker heap owner capacity callee hdirect
  · rename_i hdirect
    rcases hmode : linker.link.mode with _ | _ | _ | _ | _ <;> dsimp only
    · obtain ⟨edit, hset⟩ := setMonomorphic_of_mode hmode (by simpa using hdirect) owner
        callee.callee callee.target
      rw [hset]
      exact ⟨.linked [callee.target.block], rfl, .monomorphic hset⟩
    · exact linkPolymorphic_installs linker heap owner capacity callee (Or.inl hmode)
    · exact linkPolymorphic_installs linker heap owner capacity callee (Or.inr hmode)
    · exact ⟨.unchanged, rfl, .kept⟩
    · exact ⟨.unchanged, rfl, .kept⟩

end Linker

end InlineCache
