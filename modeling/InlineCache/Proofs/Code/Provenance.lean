import InlineCache.Proofs.Code.Evolution
import InlineCache.Proofs.Link.Shape

/-!
# Where routes come from

Only linking makes routes. Whatever else is done to a record or to a table of code, a route that a
site has afterwards goes back to a route that the same site had before.
-/

namespace InlineCache

variable {step : Guard × CodePointer → Guard × CodePointer → Prop}

/-- A record comes from an earlier one without linking: each of its routes comes from a route that
was there, by one step, and its stub is still well shaped. -/
structure Link.Follows (step : Guard × CodePointer → Guard × CodePointer → Prop)
    (origin link : Link) : Prop where
  callType_eq : link.callType = origin.callType
  route : ∀ route ∈ link.routes, ∃ source ∈ origin.routes, step source route
  shaped : ∀ {capacity}, origin.Shaped capacity → link.Shaped capacity

namespace Link.Follows

variable {link middle after : Link}

theorem trans (htrans : ∀ {first second third}, step first second → step second third →
      step first third)
    (hleft : link.Follows step middle) (hright : middle.Follows step after) :
    link.Follows step after where
  callType_eq := hright.callType_eq.trans hleft.callType_eq
  route := by
    intro route hroute
    obtain ⟨via, hvia, hsecond⟩ := hright.route route hroute
    obtain ⟨source, hsource, hfirst⟩ := hleft.route via hvia
    exact ⟨source, hsource, htrans hfirst hsecond⟩
  shaped := fun hshaped => hright.shaped (hleft.shaped hshaped)

/-- A step that leaves routes alone comes before any other. -/
theorem after_eq (hleft : link.Follows Eq middle) (hright : middle.Follows step after) :
    link.Follows step after where
  callType_eq := hright.callType_eq.trans hleft.callType_eq
  route := by
    intro route hroute
    obtain ⟨via, hvia, hstep⟩ := hright.route route hroute
    obtain ⟨source, hsource, rfl⟩ := hleft.route via hvia
    exact ⟨source, hsource, hstep⟩
  shaped := fun hshaped => hright.shaped (hleft.shaped hshaped)

theorem of_subset (hrefl : ∀ route, step route route) (htype : after.callType = link.callType)
    (hroutes : ∀ route ∈ after.routes, route ∈ link.routes)
    (hshaped : ∀ {capacity}, link.Shaped capacity → after.Shaped capacity) :
    link.Follows step after :=
  ⟨htype, fun route hroute => ⟨route, hroutes route hroute, hrefl route⟩, hshaped⟩

theorem mono {weaker : Guard × CodePointer → Guard × CodePointer → Prop}
    (hstep : ∀ {source route}, step source route → weaker source route)
    (h : link.Follows step after) : link.Follows weaker after where
  callType_eq := h.callType_eq
  route := by
    intro route hroute
    obtain ⟨source, hsource, htaken⟩ := h.route route hroute
    exact ⟨source, hsource, hstep htaken⟩
  shaped := h.shaped

theorem refl (hrefl : ∀ route, step route route) (link : Link) : link.Follows step link :=
  .of_subset hrefl rfl (fun _ hroute => hroute) fun hshaped => hshaped

end Link.Follows

namespace Link

variable (link : Link)

theorem setVirtual_follows : link.Follows Eq link.setVirtual.link := by
  refine .of_subset (fun _ => rfl) (setVirtual_link_callType link) ?_ shaped_setVirtual
  rw [routes_setVirtual]
  exact fun _ hroute => nomatch hroute

theorem disallowStubs_follows : link.Follows Eq link.disallowStubs.link :=
  .of_subset (fun _ => rfl) (disallowStubs_link_callType link)
    (routes_disallowStubs_subset link) shaped_disallowStubs

theorem revert_follows : link.Follows Eq link.revert.link := by
  refine .of_subset (fun _ => rfl) (revert_link_callType link) ?_ shaped_revert
  rw [routes_revert]
  exact fun _ hroute => nomatch hroute

theorem retarget_none_follows (old : CodeId) :
    link.Follows Eq (link.retarget old none).2.link := by
  refine .of_subset (fun _ => rfl) (retarget_link_callType link old none) ?_ fun hshaped =>
    shaped_retarget hshaped old none
  intro route hroute
  rw [routes_retarget_none] at hroute
  exact List.mem_of_mem_filter hroute

theorem Profiled.follows {link after : Link} (h : Profiled link after) :
    link.Follows Eq after := by
  refine .of_subset (fun _ => rfl) h.callType_eq ?_ (shaped_of_profiled h)
  rw [h.routes_eq]
  exact fun _ hroute => hroute

/-- After a visit the guards of all routes are live. -/
theorem visitWeak_follows (isLive : Cell → Bool) :
    link.Follows (fun source route => source = route ∧ route.1.isLive isLive = true)
      (link.visitWeak isLive).2.link where
  callType_eq := visitWeak_link_callType link isLive
  route := by
    intro route hroute
    rw [routes_visitWeak, List.mem_filter] at hroute
    exact ⟨route, hroute.1, rfl, hroute.2⟩
  shaped := fun hshaped => shaped_visitWeak hshaped isLive

/-- A route stays as it is, or it went to the old code and now goes to the new. -/
def Moves (old : CodeId) (new : CodePointer) (source route : Guard × CodePointer) : Prop :=
  route = source ∨ source.2.block = old ∧ route = (source.1, new)

theorem Moves.refl (old : CodeId) (new : CodePointer) (route : Guard × CodePointer) :
    Moves old new route route :=
  .inl rfl

theorem Moves.trans {old : CodeId} {new : CodePointer} {first second third : Guard × CodePointer}
    (hleft : Moves old new first second) (hright : Moves old new second third) :
    Moves old new first third := by
  rcases hleft with rfl | ⟨hblock, rfl⟩
  · exact hright
  · rcases hright with rfl | ⟨_, rfl⟩
    · exact .inr ⟨hblock, rfl⟩
    · exact .inr ⟨hblock, rfl⟩

theorem retarget_some_follows (old : CodeId) (new : CodePointer) :
    link.Follows (Moves old new) (link.retarget old (some new)).2.link where
  callType_eq := retarget_link_callType link old (some new)
  route := by
    intro route hroute
    rw [routes_retarget_some] at hroute
    obtain ⟨source, hsource, rfl⟩ := List.mem_map.mp hroute
    refine ⟨source, hsource, ?_⟩
    split
    · rename_i hblock
      exact .inr ⟨hblock, rfl⟩
    · exact .inl rfl
  shaped := fun hshaped => shaped_retarget hshaped old (some new)

end Link

/-! ### Tables -/

namespace CodeTable

/-- Each record of `after` comes from the record of the same site in `before`, or from an unlinked
one. -/
structure Follows (step : Guard × CodePointer → Guard × CodePointer → Prop)
    (before after : CodeTable) : Prop where
  origin : ∀ {site link}, after.link? site = some link →
    ∃ origin, (before.link? site = some origin ∨ origin.state = .unlinked) ∧
      origin.Follows step link

variable {table before middle after : CodeTable} {id : CodeId} {site : SiteRef}

theorem Follows.route (h : before.Follows step after) {link : Link}
    (hlink : after.link? site = some link) {route : Guard × CodePointer}
    (hroute : route ∈ link.routes) :
    ∃ origin, before.link? site = some origin ∧ link.callType = origin.callType ∧
      ∃ source ∈ origin.routes, step source route := by
  obtain ⟨origin, horigin, hfollows⟩ := h.origin hlink
  obtain ⟨source, hsource, hstep⟩ := hfollows.route route hroute
  rcases horigin with hsite | hunlinked
  · exact ⟨origin, hsite, hfollows.callType_eq, source, hsource, hstep⟩
  · rw [Link.routes, hunlinked] at hsource
    cases hsource

theorem Follows.shaped (h : before.Follows step after) {capacity : Nat}
    (hbefore : ∀ {site link}, before.link? site = some link → link.Shaped capacity) {link : Link}
    (hlink : after.link? site = some link) : link.Shaped capacity := by
  obtain ⟨origin, hsite | hunlinked, hfollows⟩ := h.origin hlink
  · exact hfollows.shaped (hbefore hsite)
  · exact hfollows.shaped (.of_unlinked hunlinked)

theorem Follows.mono {weaker : Guard × CodePointer → Guard × CodePointer → Prop}
    (hstep : ∀ {source route}, step source route → weaker source route)
    (h : before.Follows step after) : before.Follows weaker after := by
  refine ⟨fun hlink => ?_⟩
  obtain ⟨origin, horigin, hfollows⟩ := h.origin hlink
  exact ⟨origin, horigin, hfollows.mono hstep⟩

theorem Follows.of_eq (hrefl : ∀ route, step route route) (h : before.Follows Eq after) :
    before.Follows step after :=
  h.mono fun {_ route} hsame => by rw [hsame]; exact hrefl route

theorem Follows.trans (htrans : ∀ {first second third}, step first second → step second third →
      step first third)
    (hleft : before.Follows step middle) (hright : middle.Follows step after) :
    before.Follows step after := by
  refine ⟨fun hlink => ?_⟩
  obtain ⟨between, hsite | hunlinked, hsecond⟩ := hright.origin hlink
  · obtain ⟨origin, horigin, hfirst⟩ := hleft.origin hsite
    exact ⟨origin, horigin, hfirst.trans htrans hsecond⟩
  · exact ⟨between, .inr hunlinked, hsecond⟩

theorem Follows.after_eq (hleft : before.Follows Eq middle) (hright : middle.Follows step after) :
    before.Follows step after := by
  refine ⟨fun hlink => ?_⟩
  obtain ⟨between, hsite | hunlinked, hsecond⟩ := hright.origin hlink
  · obtain ⟨origin, horigin, hfirst⟩ := hleft.origin hsite
    exact ⟨origin, horigin, hfirst.after_eq hsecond⟩
  · exact ⟨between, .inr hunlinked, hsecond⟩

theorem Follows.of_link? (h : ∀ site, after.link? site = before.link? site) :
    before.Follows Eq after := by
  refine ⟨fun {site link} hlink => ⟨link, .inl ?_, .refl (fun _ => rfl) link⟩⟩
  rw [← h, hlink]

theorem Follows.refl (table : CodeTable) : table.Follows Eq table :=
  .of_link? fun _ => rfl

theorem Follows.setLink {link changed : Link} (hrefl : ∀ route, step route route)
    (hlink : table.link? site = some link) (hfollows : link.Follows step changed) :
    table.Follows step (table.setLink site changed) := by
  refine ⟨fun {elsewhere found} hfound => ?_⟩
  by_cases heq : elsewhere = site
  · rw [heq, link?_setLink_self changed hlink] at hfound
    rw [heq, ← Option.some.inj hfound]
    exact ⟨link, .inl hlink, hfollows⟩
  · rw [link?_setLink_of_ne changed heq] at hfound
    exact ⟨found, .inl hfound, .refl hrefl found⟩

/-- The sites of a new block are not linked yet. -/
theorem Follows.append {block : Block} (hnumbered : table.Numbered)
    (hid : block.id = ⟨table.lastNumber + 1⟩)
    (hfresh : ∀ link ∈ block.links, link.state = .unlinked) :
    table.Follows Eq (table.append block) := by
  refine ⟨fun {site link} hlink => ⟨link, ?_, .refl (fun _ => rfl) link⟩⟩
  obtain ⟨caller, hcaller, hfound⟩ := link?_eq_some_iff.mp hlink
  by_cases heq : site.caller = ⟨table.lastNumber + 1⟩
  · rw [heq, hnumbered.get?_append_self hid] at hcaller
    obtain rfl := Option.some.inj hcaller
    exact .inr (hfresh link (List.mem_of_getElem? hfound))
  · rw [get?_append_of_ne hid heq] at hcaller
    exact .inl (link?_eq_some_iff.mpr ⟨caller, hcaller, hfound⟩)

theorem Follows.remove (table : CodeTable) (id : CodeId) : table.Follows Eq (table.remove id) := by
  refine ⟨fun {site link} hlink => ⟨link, .inl ?_, .refl (fun _ => rfl) link⟩⟩
  rwa [link?_remove_of_ne (ne_of_link?_remove hlink)] at hlink

/-- Taking the links of a block's own sites away. -/
theorem Follows.revert (table : CodeTable) (id : CodeId) :
    table.Follows Eq (table.update id fun block =>
      { block with links := block.links.map fun link => link.revert.link }) := by
  refine ⟨fun {site link} hlink => ?_⟩
  obtain ⟨caller, hcaller, hfound⟩ := link?_eq_some_iff.mp hlink
  rw [get?_update] at hcaller
  · obtain ⟨origin, horigin, rfl⟩ := Option.map_eq_some_iff.mp hcaller
    split at hfound
    · rw [List.getElem?_map] at hfound
      obtain ⟨linked, hlinked, rfl⟩ := Option.map_eq_some_iff.mp hfound
      exact ⟨linked, .inl (link?_eq_some_iff.mpr ⟨origin, horigin, hlinked⟩),
        linked.revert_follows⟩
    · exact ⟨link, .inl (link?_eq_some_iff.mpr ⟨origin, horigin, hfound⟩),
        .refl (fun _ => rfl) link⟩
  · exact fun _ => rfl

theorem Follows.visitWeak (table : CodeTable) (isLive : Cell → Bool) (stats : Stats) :
    table.Follows (fun source route => source = route ∧ route.1.isLive isLive = true)
      (table.visitWeak isLive stats).1 := by
  refine ⟨fun {site link} hlink => ?_⟩
  rw [link?_visitWeak] at hlink
  obtain ⟨origin, horigin, rfl⟩ := Option.map_eq_some_iff.mp hlink
  exact ⟨origin, .inl horigin, origin.visitWeak_follows isLive⟩

end CodeTable

end InlineCache
