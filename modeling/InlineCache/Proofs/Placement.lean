import InlineCache.Proofs.Code.Incoming
import InlineCache.Proofs.Provenance

/-!
# Where routes go

A route goes to the start of a block. What else holds between the kind of call that its site makes,
its guard and the block is left open here.

Linking a call adds a route to the current code of its callee, guarded by the callee or by its
executable. Replacing a block leaves no route to it behind: all of them go to the new block.
-/

namespace InlineCache

namespace CodeTable

/-- Every route goes to the start of a block, and its guard fits the block for the calls of its
site. -/
structure Placed (fits : Specialization → Guard → Block → Prop) (table : CodeTable) : Prop where
  block : ∀ {site link}, table.link? site = some link → ∀ route ∈ link.routes,
    ∃ block, table.get? route.2.block = some block ∧ block.pointer = route.2 ∧
      fits link.callType.specialization route.1 block

variable {fits' : Specialization → Guard → Block → Prop} {before after : CodeTable}

theorem Placed.of_earlier (fits : Specialization → Guard → Block → Prop)
    (hnumbered : before.Numbered) (hevolves : before.Evolves after) (hlinked : after.Linked)
    (hearlier : ∀ {site link}, after.link? site = some link → ∀ route ∈ link.routes,
      ∃ block, before.get? route.2.block = some block ∧ block.pointer = route.2 ∧
        fits link.callType.specialization route.1 block)
    (hfits : ∀ {kind guard origin found}, before.get? origin.id = some origin →
      after.get? found.id = some found → found.bare = origin.bare → fits kind guard origin →
      fits' kind guard found) : after.Placed fits' := by
  refine ⟨fun hlink route hroute => ?_⟩
  obtain ⟨origin, horigin, hpointer, horiginFits⟩ := hearlier hlink route hroute
  obtain ⟨found, hfound, _⟩ := hlinked.incoming hlink route hroute
  have hgiven := hnumbered.bounded origin (mem_of_get? horigin)
  rw [id_of_get? horigin] at hgiven
  obtain ⟨same, hsame, hbare⟩ := hevolves.block hfound hgiven
  rw [horigin] at hsame
  obtain rfl := Option.some.inj hsame
  obtain ⟨_, _, _, _, hpointer'⟩ := Block.eq_of_bare hbare
  refine ⟨found, hfound, hpointer'.trans hpointer, ?_⟩
  refine hfits ?_ ?_ hbare horiginFits
  · rwa [id_of_get? horigin]
  · rwa [id_of_get? hfound]

theorem Placed.keep {fits : Specialization → Guard → Block → Prop}
    {step : Guard × CodePointer → Guard × CodePointer → Prop} (h : before.Placed fits)
    (hnumbered : before.Numbered) (hevolves : before.Evolves after) (hlinked : after.Linked)
    (hfollows : before.Follows step after)
    (hstep : ∀ {source route}, step source route → source = route)
    (hfits : ∀ {kind guard pointer origin found}, step (guard, pointer) (guard, pointer) →
      before.get? origin.id = some origin → after.get? found.id = some found →
      found.bare = origin.bare → fits kind guard origin → fits' kind guard found) :
    after.Placed fits' := by
  refine .of_earlier (fun kind guard block =>
    (∃ pointer, step (guard, pointer) (guard, pointer)) ∧ fits kind guard block)
    hnumbered hevolves hlinked ?_ ?_
  · intro site link hlink route hroute
    obtain ⟨origin, horigin, htype, source, hsource, htaken⟩ := hfollows.route hlink hroute
    obtain rfl := hstep htaken
    obtain ⟨block, hblock, hpointer, hfit⟩ := h.block horigin source hsource
    rw [← htype] at hfit
    exact ⟨block, hblock, hpointer, ⟨source.2, htaken⟩, hfit⟩
  · rintro kind guard origin found horigin hfound hbare ⟨⟨pointer, htaken⟩, hfit⟩
    exact hfits htaken horigin hfound hbare hfit

end CodeTable

/-! ### The slot of a site -/

theorem Guard.Names.executableOf? {guard : Guard} {heap : Heap Entity} {callee owner : Cell}
    (h : guard.Names heap owner) (hcallee : guard.callee? = some callee) :
    heap.executableOf? callee = some owner := by
  rcases guard with ref | variant | ref
  · obtain ⟨cell, rfl, hcell⟩ := h
    rwa [← Option.some.inj hcallee]
  · exact h.2 callee hcallee
  · cases hcallee

/-- A call that a slot sends somewhere goes along a route whose guard asks for its callee, or for
any closure of its executable. -/
theorem Link.Agrees.guard_of_fast? {link : Link} {heap : Heap Entity} {callee : Cell}
    {pointer : CodePointer} (h : link.Agrees) (hdirect : link.isDirect = false)
    (hfast : link.site.target.fast? heap callee = some pointer) :
    ∃ guard, (guard, pointer) ∈ link.routes ∧ (guard.callee? = some callee ∨
      ∃ executable, heap.executableOf? callee = some executable ∧
        guard = .case (.closure executable)) := by
  unfold Link.Agrees at h
  rw [Link.routes]
  rcases hstate : link.state with _ | ⟨ref, target⟩ | stub | _ | ⟨ref, target⟩ <;>
    rw [hstate] at h <;> dsimp only at h
  · rw [h] at hfast
    cases hfast
  · obtain ⟨_, cell, rfl, htarget⟩ := h
    rw [htarget, Target.fast?, Option.ite_none_right_eq_some] at hfast
    obtain ⟨rfl, hpointer⟩ := hfast
    rw [← Option.some.inj hpointer]
    exact ⟨_, List.mem_singleton_self _, .inl rfl⟩
  · rw [h.2, Target.fast?, Option.bind_eq_some_iff] at hfast
    obtain ⟨executable, hcallee, hdispatch⟩ := hfast
    obtain ⟨variant, hroute, haccepts⟩ := Stub.route_of_dispatch? hdispatch
    refine ⟨.case variant, List.mem_map.mpr ⟨_, hroute, rfl⟩, ?_⟩
    rcases variant with ⟨expected, _⟩ | expected
    · exact .inl (congrArg some (beq_iff_eq.mp haccepts))
    · exact .inr ⟨executable, hcallee, by rw [beq_iff_eq.mp haccepts]⟩
  · rw [h] at hfast
    cases hfast
  · rw [h.1] at hdirect
    cases hdirect

theorem Link.Agrees.route_of_fast? {link : Link} {heap : Heap Entity} {callee : Cell}
    {pointer : CodePointer} (h : link.Agrees) (hdirect : link.isDirect = false)
    (hfast : link.site.target.fast? heap callee = some pointer) :
    ∃ guard, (guard, pointer) ∈ link.routes ∧
      ∀ owner, guard.Names heap owner → heap.executableOf? callee = some owner := by
  obtain ⟨guard, hroute, hcallee | ⟨executable, hexecutable, rfl⟩⟩ := h.guard_of_fast? hdirect hfast
  · exact ⟨guard, hroute, fun owner hnames => hnames.executableOf? hcallee⟩
  · refine ⟨_, hroute, fun owner hnames => ?_⟩
    rw [hexecutable]
    exact congrArg some hnames.1

theorem Link.Agrees.state_of_stub {link : Link} {stub : Stub} (h : link.Agrees)
    (hstub : link.site.target = .stub stub ∨ link.state = .polymorphic stub) :
    link.state = .polymorphic stub := by
  rcases hstub with htarget | hstate
  · unfold Link.Agrees at h
    rcases hstate : link.state with _ | _ | held | _ | _ <;> rw [hstate, htarget] at h <;>
      dsimp only at h
    · cases h
    · obtain ⟨_, _, _, heq⟩ := h
      cases heq
    · rw [Target.stub.inj h.2]
    · cases h
    · cases h.2.2
  · exact hstate

/-! ### Linking a call -/

theorem Machine.closure?_replaced (machine : Machine) (block : Block) (executable : Executable)
    (entry : Entry) (tier : Tier) (labels : List Locations) (cell : Cell) :
    (machine.replaced block executable entry tier labels).heap.closure? cell
      = machine.heap.closure? cell := by
  have hbarriers := machine.replaced_barriers block executable entry tier labels
  rw [Heap.closure?, hbarriers.get?]
  exact Heap.closure?_setCode

theorem Guard.Names.replaced {machine : Machine} {block : Block} {executable : Executable}
    {entry : Entry} {tier : Tier} {labels : List Locations} {guard : Guard} {owner : Cell}
    (h : guard.Names machine.heap owner) :
    guard.Names (machine.replaced block executable entry tier labels).heap owner := by
  refine h.congr fun cell _ hcell => ?_
  rwa [Heap.executableOf?, machine.closure?_replaced]

namespace Machine

open CodeTable

variable {machine before : Machine} {site : SiteRef} {link changed : Link} {owner : Cell}
  {resolved : Resolved} {codes : List CodeId} {kind : Specialization}

/-- A guard speaks of the callees that it spoke of before, or of the callee that was resolved. -/
theorem install_placed {fits : Specialization → Guard → Block → Prop}
    (hbare : ∀ {kind guard origin found}, found.bare = origin.bare → fits kind guard origin →
      fits kind guard found)
    (hguard : ∀ {kind} {guard guard' : Guard} {block}, (∀ executable,
      guard.Names before.heap executable → guard'.Names before.heap executable) →
      fits kind guard block → fits kind guard' block)
    (hserves : ∀ {guard : Guard} {block executable}, guard.Names before.heap executable →
      before.code.get? block.id = some block →
      before.Serves executable link.callType.specialization block.id →
      fits link.callType.specialization guard block)
    (h : before.code.Placed fits) (hnumbered : before.code.Numbered)
    (hlink : before.code.link? site = some link)
    (hresolves : before.Resolves link.callType.specialization resolved)
    (hinstalls : link.Installs before.heap owner before.config.polymorphicCapacity resolved
      changed codes)
    (hevolves : before.code.Evolves ((before.code.setLink site changed).noteIncoming codes site))
    (hlinked : ((before.code.setLink site changed).noteIncoming codes site).Linked) :
    ((before.code.setLink site changed).noteIncoming codes site).Placed fits := by
  refine .of_earlier fits hnumbered hevolves hlinked
    (fun {elsewhere found} hfound route hroute => ?_) fun _ _ => hbare
  rw [link?_noteIncoming] at hfound
  by_cases heq : elsewhere = site
  · rw [heq, link?_setLink_self changed hlink] at hfound
    obtain rfl := Option.some.inj hfound
    rw [hinstalls.callType_eq]
    rcases hinstalls.route_cases hroute with
      ⟨htarget, _, hnames⟩ | ⟨source, hsource, htarget, _, hnames⟩
    · obtain ⟨block, hblock, hpointer, hblockServes⟩ := hresolves.serves
      rw [htarget]
      refine ⟨block, hblock, hpointer, hserves (hnames hresolves.closure) ?_ hblockServes⟩
      rwa [id_of_get? hblock]
    · obtain ⟨block, hblock, hpointer, hfit⟩ := h.block hlink source hsource
      rw [← htarget]
      exact ⟨block, hblock, hpointer, hguard hnames hfit⟩
  · rw [link?_setLink_of_ne changed heq] at hfound
    exact h.block hfound route hroute

theorem install_shaped (h : ∀ {site link}, before.code.link? site = some link →
      link.Shaped before.config.polymorphicCapacity)
    (hlink : before.code.link? site = some link)
    (hinstalls : link.Installs before.heap owner before.config.polymorphicCapacity resolved
      changed codes) {elsewhere : SiteRef} {found : Link}
    (hfound : ((before.code.setLink site changed).noteIncoming codes site).link? elsewhere
      = some found) : found.Shaped before.config.polymorphicCapacity := by
  rw [link?_noteIncoming] at hfound
  by_cases heq : elsewhere = site
  · rw [heq, link?_setLink_self changed hlink] at hfound
    rw [← Option.some.inj hfound]
    exact Link.shaped_of_installs hinstalls (h hlink)
  · rw [link?_setLink_of_ne changed heq] at hfound
    exact h hfound

/-! ### Replacing -/

theorem upgradeSite_incoming {old id : CodeId} {new : CodePointer} {block : Block}
    (hne : new.block ≠ id) (h : machine.code.get? id = some block) :
    ∃ after, (machine.upgradeSite old site new).code.get? id = some after ∧
      after.incoming = block.incoming := by
  rw [upgradeSite_code]
  rcases machine.code.link? site with _ | link
  · exact ⟨block, h, rfl⟩
  · dsimp only
    split
    · obtain ⟨set, hset, hincoming⟩ := get?_setLink_incoming
        (link.retarget old (some new)).2.link h
      refine ⟨set, ?_, hincoming⟩
      rw [get?_update_of_ne (fun _ => Block.addIncoming_id _ _) hne.symm, hset]
    · exact get?_setLink_incoming link h

theorem foldl_upgradeSite_incoming {old id : CodeId} {new : CodePointer} {block : Block}
    (hne : new.block ≠ id) (sites : List SiteRef) (h : machine.code.get? id = some block) :
    ∃ after,
      (sites.foldl (fun machine site => machine.upgradeSite old site new) machine).code.get? id
        = some after ∧ after.incoming = block.incoming := by
  induction sites generalizing machine block with
  | nil => exact ⟨block, h, rfl⟩
  | cons site rest ih =>
      have hmoved : ∃ after, (machine.upgradeSite old site new).code.get? id = some after ∧ _ :=
        upgradeSite_incoming hne h
      obtain ⟨after, hafter, hincoming⟩ := hmoved
      rw [← hincoming]
      exact ih hafter

theorem replaced_incoming_old {block : Block} (executable : Executable) (entry : Entry)
    (tier : Tier) (labels : List Locations) (hnumbered : machine.code.Numbered)
    (hblock : machine.code.get? block.id = some block) :
    ∃ found, (machine.replaced block executable entry tier labels).code.get? block.id = some found ∧
      found.incoming = [] := by
  have hcleared : ((machine.compiled (block.replacement executable entry tier) labels).clearIncoming
      block.id).code.get? block.id = some { block with incoming := [] } := by
    have hold : (machine.compiled (block.replacement executable entry tier) labels).code.get?
        block.id = some block := get?_append_of_some hnumbered rfl hblock
    rw [clearIncoming, get?_update_self, hold, Option.map_some]
    exact fun _ => rfl
  rw [replaced, upgradeSites_eq_foldl]
  exact foldl_upgradeSite_incoming (nextCode_ne_of_get? hnumbered hblock) _ hcleared

theorem replaced_leaves_none {block : Block} (executable : Executable) (entry : Entry) (tier : Tier)
    (labels : List Locations) (hnumbered : machine.code.Numbered)
    (hblock : machine.code.get? block.id = some block) (hlinked : machine.code.Linked)
    (hlink : (machine.replaced block executable entry tier labels).code.link? site = some link)
    {route : Guard × CodePointer} (hroute : route ∈ link.routes) : route.2.block ≠ block.id := by
  intro heq
  obtain ⟨found, hfound, hnone⟩ :=
    replaced_incoming_old executable entry tier labels hnumbered hblock
  have hafter := replaced_linked executable entry tier labels hnumbered hblock hlinked
  obtain ⟨target, htarget, hentry⟩ := hafter.incoming hlink route hroute
  rw [heq, hfound] at htarget
  have hknown := hentry.resolve_right not_false
  rw [← Option.some.inj htarget, hnone] at hknown
  cases hknown

/-- Replacing a block keeps routes in place: a route stays with a block other than the replaced one,
or goes to the new block with the guard that it had. -/
theorem replaced_placed {fits fits' : Specialization → Guard → Block → Prop} {block : Block}
    (executable : Executable) (entry : Entry) (tier : Tier) (labels : List Locations)
    (hnumbered : machine.code.Numbered) (hblock : machine.code.get? block.id = some block)
    (hlinked : machine.code.Linked)
    (hkept : ∀ {kind guard origin found}, origin.id ≠ block.id →
      machine.code.get? origin.id = some origin → found.bare = origin.bare →
      fits kind guard origin → fits' kind guard found)
    (hmoved : ∀ {kind guard found}, found.bare
      = (machine.assembled (block.replacement executable entry tier) labels).bare →
      fits kind guard block → fits' kind guard found)
    (h : machine.code.Placed fits) :
    (machine.replaced block executable entry tier labels).code.Placed fits' := by
  have hcompiled :
      (machine.compiled (block.replacement executable entry tier) labels).code.Numbered :=
    hnumbered.append rfl
  have hnew : (machine.compiled (block.replacement executable entry tier) labels).code.get?
      machine.nextCode
        = some (machine.assembled (block.replacement executable entry tier) labels) :=
    hnumbered.get?_append_self rfl
  -- once the new block is there, every route has its block
  refine .of_earlier (fun kind guard found =>
      (found.id ≠ block.id ∧ machine.code.get? found.id = some found ∧ fits kind guard found) ∨
        found = machine.assembled (block.replacement executable entry tier) labels ∧
          fits kind guard block)
    hcompiled (replaced_evolves_compiled machine block executable entry tier labels)
    (replaced_linked executable entry tier labels hnumbered hblock hlinked) ?_ ?_
  · intro site link hlink route hroute
    have hne :=
      replaced_leaves_none executable entry tier labels hnumbered hblock hlinked hlink hroute
    obtain ⟨origin, horigin, htype, source, hsource, hstep⟩ :=
      (replaced_follows executable entry tier labels hnumbered).route hlink hroute
    obtain ⟨target, htarget, hpointer, hfit⟩ := h.block horigin source hsource
    have hid := id_of_get? htarget
    rw [← htype] at hfit
    rcases hstep with rfl | ⟨hold, rfl⟩
    · refine ⟨target, get?_append_of_some hnumbered rfl htarget, hpointer, .inl ⟨?_, ?_, hfit⟩⟩
      · rwa [hid]
      · rwa [hid]
    · rw [hold, hblock] at htarget
      obtain rfl := Option.some.inj htarget
      exact ⟨_, hnew, rfl, .inr ⟨rfl, hfit⟩⟩
  · rintro kind guard origin found _ _ hbare (⟨hne, horigin, hfit⟩ | ⟨rfl, hfit⟩)
    · exact hkept hne horigin hbare hfit
    · exact hmoved hbare hfit

end Machine

end InlineCache
