import InlineCache.Proofs.Code.Evolution
import InlineCache.Proofs.Link.Linking

/-!
# Incoming sites

Every site that can go to a block is on the list of incoming sites of that block. Replacing and
discarding a block rely on this list: they empty it and then work through the sites that were on it.
In between, the entries of the sites still to be visited are owed.
-/

namespace InlineCache.CodeTable

/-- Every site that goes to a block is on the incoming list of that block, or its entry is owed. The
blocks that sites go to are there. -/
structure Accounted (table : CodeTable) (owed : CodeId → SiteRef → Prop) : Prop where
  agrees : ∀ {site link}, table.link? site = some link → link.Agrees
  incoming : ∀ {site link}, table.link? site = some link → ∀ route ∈ link.routes,
    ∃ block, table.get? route.2.block = some block ∧
      (site ∈ block.incoming ∨ owed route.2.block site)

/-- Nothing is owed between operations. -/
abbrev Linked (table : CodeTable) : Prop := table.Accounted fun _ _ => False

variable {table : CodeTable} {owed : CodeId → SiteRef → Prop} {id old : CodeId} {site : SiteRef}

theorem Accounted.mono {more : CodeId → SiteRef → Prop} (h : table.Accounted owed)
    (hmore : ∀ {site link}, table.link? site = some link → ∀ route ∈ link.routes,
      owed route.2.block site → more route.2.block site) : table.Accounted more where
  agrees := h.agrees
  incoming := by
    intro site link hlink route hroute
    obtain ⟨block, hblock, hentry⟩ := h.incoming hlink route hroute
    exact ⟨block, hblock, hentry.imp id (hmore hlink route hroute)⟩

theorem get?_setLink_incoming {block : Block} (link : Link) (h : table.get? id = some block) :
    ∃ after, (table.setLink site link).get? id = some after ∧ after.incoming = block.incoming := by
  rw [get?_setLink, h]
  refine ⟨_, rfl, ?_⟩
  dsimp only
  split <;> rfl

/-- A record may be replaced by one all of whose routes are accounted for. -/
theorem Accounted.setLink {link changed : Link} (h : table.Accounted owed)
    (hlink : table.link? site = some link) (hagrees : changed.Agrees)
    (hroutes : ∀ route ∈ changed.routes, ∃ block, table.get? route.2.block = some block ∧
      (site ∈ block.incoming ∨ owed route.2.block site)) :
    (table.setLink site changed).Accounted owed := by
  constructor
  · intro elsewhere found hfound
    by_cases heq : elsewhere = site
    · rw [heq, link?_setLink_self changed hlink] at hfound
      rwa [← Option.some.inj hfound]
    · rw [link?_setLink_of_ne changed heq] at hfound
      exact h.agrees hfound
  · intro elsewhere found hfound route hroute
    have hbefore : ∃ block, table.get? route.2.block = some block ∧
        (elsewhere ∈ block.incoming ∨ owed route.2.block elsewhere) := by
      by_cases heq : elsewhere = site
      · rw [heq, link?_setLink_self changed hlink] at hfound
        rw [heq]
        exact hroutes route (by rwa [Option.some.inj hfound])
      · rw [link?_setLink_of_ne changed heq] at hfound
        exact h.incoming hfound route hroute
    obtain ⟨block, hblock, hentry⟩ := hbefore
    obtain ⟨after, hafter, hsame⟩ := get?_setLink_incoming changed hblock
    exact ⟨after, hafter, by rwa [hsame]⟩

theorem Accounted.setLink_of_subset {link changed : Link} (h : table.Accounted owed)
    (hlink : table.link? site = some link) (hagrees : changed.Agrees)
    (hroutes : ∀ route ∈ changed.routes, route ∈ link.routes) :
    (table.setLink site changed).Accounted owed :=
  h.setLink hlink hagrees fun route hroute => h.incoming hlink route (hroutes route hroute)

/-- Noting a site on blocks pays what is owed for them. -/
theorem Accounted.noteIncoming {codes : List CodeId}
    (h : table.Accounted fun id elsewhere => owed id elsewhere ∨ (elsewhere = site ∧ id ∈ codes)) :
    (table.noteIncoming codes site).Accounted owed := by
  constructor
  · intro elsewhere link hlink
    rw [link?_noteIncoming] at hlink
    exact h.agrees hlink
  · intro elsewhere link hlink route hroute
    rw [link?_noteIncoming] at hlink
    obtain ⟨block, hblock, hentry⟩ := h.incoming hlink route hroute
    have hnote : ∃ after, (table.noteIncoming codes site).get? route.2.block = some after ∧ _ :=
      get?_noteIncoming codes hblock
    obtain ⟨after, hafter, _, hkept, hnoted⟩ := hnote
    refine ⟨after, hafter, ?_⟩
    rcases hentry with hknown | howed | ⟨rfl, hcode⟩
    · exact .inl (hkept elsewhere hknown)
    · exact .inr howed
    · exact .inl (hnoted hcode)

theorem Accounted.addIncoming
    (h : table.Accounted fun code elsewhere =>
      owed code elsewhere ∨ (elsewhere = site ∧ code = id)) :
    (table.update id fun block => block.addIncoming site).Accounted owed := by
  have hcodes : table.Accounted fun code elsewhere =>
      owed code elsewhere ∨ (elsewhere = site ∧ code ∈ [id]) :=
    h.mono fun _ _ _ => Or.imp_right (And.imp_right List.mem_singleton.mpr)
  exact hcodes.noteIncoming

theorem Accounted.append {block : Block} (h : table.Accounted owed) (hnumbered : table.Numbered)
    (hid : block.id = ⟨table.lastNumber + 1⟩)
    (hfresh : ∀ link ∈ block.links, link.Agrees ∧ link.routes = []) :
    (table.append block).Accounted owed := by
  have hlinks : ∀ {site link}, (table.append block).link? site = some link →
      table.link? site = some link ∨ (link.Agrees ∧ link.routes = []) := by
    intro site link hlink
    obtain ⟨caller, hcaller, hindex⟩ := link?_eq_some_iff.mp hlink
    by_cases heq : site.caller = ⟨table.lastNumber + 1⟩
    · rw [heq, hnumbered.get?_append_self hid] at hcaller
      rw [← Option.some.inj hcaller] at hindex
      exact .inr (hfresh link (List.mem_of_getElem? hindex))
    · rw [get?_append_of_ne hid heq] at hcaller
      exact .inl (link?_eq_some_iff.mpr ⟨caller, hcaller, hindex⟩)
  constructor
  · intro site link hlink
    rcases hlinks hlink with hold | hnew
    · exact h.agrees hold
    · exact hnew.1
  · intro site link hlink route hroute
    rcases hlinks hlink with hold | hnew
    · obtain ⟨found, hfound, hentry⟩ := h.incoming hold route hroute
      exact ⟨found, get?_append_of_some hnumbered hid hfound, hentry⟩
    · rw [hnew.2] at hroute
      cases hroute

/-- A block that no site goes to can be taken out. -/
theorem Accounted.remove (h : table.Accounted owed)
    (hgone : ∀ {site link}, table.link? site = some link → ∀ route ∈ link.routes,
      route.2.block ≠ id) : (table.remove id).Accounted owed := by
  constructor
  · intro site link hlink
    rw [link?_remove_of_ne (ne_of_link?_remove hlink)] at hlink
    exact h.agrees hlink
  · intro site link hlink route hroute
    rw [link?_remove_of_ne (ne_of_link?_remove hlink)] at hlink
    rw [get?_remove_of_ne (hgone hlink route hroute)]
    exact h.incoming hlink route hroute

theorem Accounted.map {change : Block → Block} (h : table.Accounted owed)
    (hid : ∀ block, (change block).id = block.id)
    (hincoming : ∀ block, (change block).incoming = block.incoming)
    (hlinks : ∀ block ∈ table.blocks, ∀ (index : Nat) (link : Link),
      (change block).links[index]? = some link →
      ∃ origin : Link, block.links[index]? = some origin ∧ (origin.Agrees → link.Agrees) ∧
        ∀ route ∈ link.routes, route ∈ origin.routes) :
    ({ table with blocks := table.blocks.map change } : CodeTable).Accounted owed := by
  have horigin : ∀ {site link},
      ({ table with blocks := table.blocks.map change } : CodeTable).link? site = some link →
      ∃ origin, table.link? site = some origin ∧ (origin.Agrees → link.Agrees) ∧
        ∀ route ∈ link.routes, route ∈ origin.routes := by
    intro site link hlink
    obtain ⟨caller, hcaller, hindex⟩ := link?_eq_some_iff.mp hlink
    rw [get?_map change hid] at hcaller
    obtain ⟨block, hblock, rfl⟩ := Option.map_eq_some_iff.mp hcaller
    obtain ⟨origin, horigin, hkept⟩ := hlinks block (mem_of_get? hblock) site.index link hindex
    exact ⟨origin, link?_eq_some_iff.mpr ⟨block, hblock, horigin⟩, hkept⟩
  constructor
  · intro site link hlink
    obtain ⟨origin, hfound, hagrees, _⟩ := horigin hlink
    exact hagrees (h.agrees hfound)
  · intro site link hlink route hroute
    obtain ⟨origin, hfound, _, hroutes⟩ := horigin hlink
    obtain ⟨block, hblock, hentry⟩ := h.incoming hfound route (hroutes route hroute)
    refine ⟨change block, ?_, by rwa [hincoming]⟩
    rw [get?_map change hid, hblock, Option.map_some]

theorem Accounted.visitWeak (h : table.Accounted owed) (isLive : Cell → Bool) (stats : Stats) :
    (table.visitWeak isLive stats).1.Accounted owed := by
  rw [visitWeak_eq_map]
  refine h.map (fun _ => rfl) (fun _ => rfl) fun block _ index link hlink => ?_
  rw [Block.visited, List.getElem?_map] at hlink
  obtain ⟨origin, horigin, rfl⟩ := Option.map_eq_some_iff.mp hlink
  refine ⟨origin, horigin, fun hagrees => Link.agrees_visitWeak hagrees isLive, ?_⟩
  intro route hroute
  rw [Link.routes_visitWeak] at hroute
  exact List.mem_of_mem_filter hroute

/-- Pruning drops no entry that is needed. -/
theorem Linked.pruneIncoming (h : table.Linked) : table.pruneIncoming.2.Linked := by
  constructor
  · intro site link hlink
    rw [link?_pruneIncoming] at hlink
    exact h.agrees hlink
  · intro site link hlink route hroute
    rw [link?_pruneIncoming] at hlink
    obtain ⟨block, hblock, hentry⟩ := h.incoming hlink route hroute
    have hknown := hentry.resolve_right id
    refine ⟨_, by rw [get?_pruneIncoming, hblock, Option.map_some], .inl ?_⟩
    refine List.mem_filter.mpr ⟨hknown, ?_⟩
    rw [goesTo, hlink]
    exact Link.targets_iff.mpr ⟨route, hroute, (id_of_get? hblock).symm⟩

end InlineCache.CodeTable
