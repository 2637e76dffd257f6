import InlineCache.Code.Table
import Mathlib.Data.List.Nodup

/-!
# Looking into the table of code

The rest of the theory sees a table through two questions: which block has a number, and which link
record is at a site. For every operation on tables this module says how the answers change. Most
operations rework all blocks without touching their numbers, and `get?_map` covers those at once.
-/

namespace InlineCache

namespace Block

@[simp] theorem addIncoming_id (block : Block) (site : SiteRef) :
    (block.addIncoming site).id = block.id := by
  unfold addIncoming
  split <;> rfl

@[simp] theorem addIncoming_links (block : Block) (site : SiteRef) :
    (block.addIncoming site).links = block.links := by
  unfold addIncoming
  split <;> rfl

theorem mem_addIncoming (block : Block) (site other : SiteRef) :
    other ∈ (block.addIncoming site).incoming ↔ other = site ∨ other ∈ block.incoming := by
  unfold addIncoming
  split
  · rename_i hmem
    constructor
    · exact Or.inr
    · rintro (rfl | hother)
      · exact hmem
      · exact hother
  · simp [or_comm]

/-- A block without its link records and its list of incoming sites: what it was compiled as. -/
def bare (block : Block) : Block := { block with links := [], incoming := [] }

@[simp] theorem bare_addIncoming (block : Block) (site : SiteRef) :
    (block.addIncoming site).bare = block.bare := by
  unfold addIncoming
  split <;> rfl

theorem eq_of_bare {left right : Block} (h : left.bare = right.bare) :
    left.id = right.id ∧ left.owner = right.owner ∧ left.realm = right.realm ∧
      left.kind = right.kind ∧ left.pointer = right.pointer := by
  simp only [bare, Block.mk.injEq] at h
  obtain ⟨hid, howner, hrealm, hkind, _, hentry, _⟩ := h
  refine ⟨hid, howner, hrealm, hkind, ?_⟩
  rw [pointer, pointer, hid, hentry]

/-- A block whose link records have been visited. -/
def visited (block : Block) (isLive : Cell → Bool) : Block :=
  { block with links := block.links.map fun link => (link.visitWeak isLive).2.link }

end Block

namespace CodeTable

variable {table : CodeTable} {id other : CodeId} {block : Block} {site : SiteRef}

/-- Blocks stand in the order of their numbers, and none has a number above the last one given. -/
structure Numbered (table : CodeTable) : Prop where
  sorted : table.blocks.Pairwise fun a b => a.id.number < b.id.number
  bounded : ∀ block ∈ table.blocks, block.id.number ≤ table.lastNumber

theorem id_of_get? (h : table.get? id = some block) : block.id = id := by
  have hfound := List.find?_some h
  simpa using hfound

theorem mem_of_get? (h : table.get? id = some block) : block ∈ table.blocks :=
  List.mem_of_find?_eq_some h

theorem get?_of_nodup (hnodup : (table.blocks.map Block.id).Nodup) (hmem : block ∈ table.blocks) :
    table.get? block.id = some block := by
  rcases hfound : table.get? block.id with _ | found
  · exact absurd (beq_self_eq_true _) (List.find?_eq_none.mp hfound block hmem)
  · rw [List.inj_on_of_nodup_map hnodup (mem_of_get? hfound) hmem (id_of_get? hfound)]

theorem Numbered.nodup (hnumbered : table.Numbered) : (table.blocks.map Block.id).Nodup := by
  refine List.pairwise_map.mpr (hnumbered.sorted.imp fun hlt heq => ?_)
  rw [heq] at hlt
  exact Nat.lt_irrefl _ hlt

theorem Numbered.get?_of_mem (hnumbered : table.Numbered) (hmem : block ∈ table.blocks) :
    table.get? block.id = some block :=
  get?_of_nodup hnumbered.nodup hmem

theorem contains_iff : table.contains id = true ↔ ∃ block, table.get? id = some block := by
  rw [contains, Option.isSome_iff_exists]

theorem link?_eq_some_iff {link : Link} :
    table.link? site = some link ↔
      ∃ caller, table.get? site.caller = some caller ∧ caller.links[site.index]? = some link := by
  rw [link?, Option.bind_eq_some_iff]

/-! ### Reworking all blocks -/

theorem get?_map (change : Block → Block) (hid : ∀ block, (change block).id = block.id) :
    ({ table with blocks := table.blocks.map change } : CodeTable).get? id
      = (table.get? id).map change := by
  simp only [get?, List.find?_map, Function.comp_def, hid]

theorem Numbered.map (hnumbered : table.Numbered) (change : Block → Block)
    (hid : ∀ block, (change block).id = block.id) :
    ({ table with blocks := table.blocks.map change } : CodeTable).Numbered where
  sorted := by
    rw [List.pairwise_map]
    simpa only [hid] using hnumbered.sorted
  bounded := by
    intro block hmem
    obtain ⟨before, hbefore, rfl⟩ := List.mem_map.mp hmem
    rw [hid]
    exact hnumbered.bounded before hbefore

theorem get?_update {change : Block → Block} (hid : ∀ block, (change block).id = block.id) :
    (table.update id change).get? other
      = (table.get? other).map fun block => if block.id = id then change block else block := by
  rw [update, get?_map]
  intro block
  split
  · exact hid block
  · rfl

theorem get?_update_self {change : Block → Block} (hid : ∀ block, (change block).id = block.id) :
    (table.update id change).get? id = (table.get? id).map change := by
  rw [get?_update hid]
  rcases hfound : table.get? id with _ | found
  · rfl
  · simp [id_of_get? hfound]

theorem get?_update_of_ne {change : Block → Block} (hid : ∀ block, (change block).id = block.id)
    (hne : other ≠ id) : (table.update id change).get? other = table.get? other := by
  rw [get?_update hid]
  rcases hfound : table.get? other with _ | found
  · rfl
  · simp [id_of_get? hfound, hne]

theorem Numbered.update (hnumbered : table.Numbered) {change : Block → Block}
    (hid : ∀ block, (change block).id = block.id) : (table.update id change).Numbered := by
  apply hnumbered.map
  intro block
  split
  · exact hid block
  · rfl

/-- Changing blocks without touching their link records leaves every link record in its place. -/
theorem link?_update {change : Block → Block} (hid : ∀ block, (change block).id = block.id)
    (hlinks : ∀ block, (change block).links = block.links) :
    (table.update id change).link? site = table.link? site := by
  rw [link?, link?, get?_update hid]
  rcases table.get? site.caller with _ | caller
  · rfl
  · simp only [Option.map_some, Option.bind_some]
    split
    · rw [hlinks]
    · rfl

/-- What a block was compiled as does not change while the block is there. -/
theorem bare_update {change : Block → Block} (hid : ∀ block, (change block).id = block.id)
    (hbare : ∀ block, (change block).bare = block.bare) :
    ((table.update id change).get? other).map Block.bare = (table.get? other).map Block.bare := by
  rw [get?_update hid]
  rcases table.get? other with _ | found
  · rfl
  · simp only [Option.map_some]
    split
    · rw [hbare]
    · rfl

/-! ### Link records -/

theorem get?_setLink (link : Link) :
    (table.setLink site link).get? other
      = (table.get? other).map fun block =>
          if block.id = site.caller then { block with links := block.links.set site.index link }
          else block :=
  get?_update (fun _ => rfl)

theorem Numbered.setLink (hnumbered : table.Numbered) (link : Link) :
    (table.setLink site link).Numbered :=
  hnumbered.update fun _ => rfl

theorem link?_setLink_self {before : Link} (link : Link) (h : table.link? site = some before) :
    (table.setLink site link).link? site = some link := by
  obtain ⟨caller, hcaller, hlink⟩ := link?_eq_some_iff.mp h
  have hlt : site.index < caller.links.length := (List.getElem?_eq_some_iff.mp hlink).1
  have hset : (table.setLink site link).get? site.caller
      = some { caller with links := caller.links.set site.index link } := by
    rw [get?_setLink, hcaller]
    simp [id_of_get? hcaller]
  rw [link?, hset]
  simp [hlt]

/-- Putting a record where it is changes nothing. -/
theorem Numbered.setLink_self {link : Link} (h : table.Numbered)
    (hlink : table.link? site = some link) : table.setLink site link = table := by
  obtain ⟨caller, hcaller, hindex⟩ := link?_eq_some_iff.mp hlink
  obtain ⟨hlt, rfl⟩ := List.getElem?_eq_some_iff.mp hindex
  have hblocks : table.blocks.map (fun block =>
      if block.id = site.caller then
        { block with links := block.links.set site.index caller.links[site.index] }
      else block) = table.blocks := by
    refine (List.map_congr_left fun block hmem => ?_).trans (List.map_id _)
    split
    · rename_i hid
      have hsame : block = caller := by
        have hfound := h.get?_of_mem hmem
        rw [hid, hcaller] at hfound
        exact (Option.some.inj hfound).symm
      rw [hsame, List.set_getElem_self hlt]
      rfl
    · rfl
  rw [CodeTable.setLink, CodeTable.update, hblocks]

theorem link?_setLink_of_ne {elsewhere : SiteRef} (link : Link) (hne : elsewhere ≠ site) :
    (table.setLink site link).link? elsewhere = table.link? elsewhere := by
  rw [link?, link?, get?_setLink]
  rcases hfound : table.get? elsewhere.caller with _ | caller
  · rfl
  · simp only [Option.map_some, Option.bind_some]
    split
    · rename_i hcaller
      have hindex : elsewhere.index ≠ site.index := by
        intro hindex
        apply hne
        rw [id_of_get? hfound] at hcaller
        cases elsewhere
        cases site
        simp only at hcaller hindex
        rw [hcaller, hindex]
      exact List.getElem?_set_ne hindex.symm
    · rfl

theorem bare_setLink (link : Link) :
    ((table.setLink site link).get? other).map Block.bare = (table.get? other).map Block.bare :=
  bare_update (fun _ => rfl) (fun _ => rfl)

/-! ### New blocks and removed blocks -/

end CodeTable

/-- The block that a compilation makes. -/
def Compilation.assemble (request : Compilation) (id : CodeId) (labels : List Locations)
    (varargsCeiling : Nat) (callCaching : Bool) : Block where
  id
  owner := request.owner
  realm := request.realm
  kind := request.kind
  tier := request.tier
  entry := request.entry
  parameters := request.executable.parameters
  cachesCalls := request.executable.cachesCalls && callCaching
  links := (request.executable.sites.zip labels).map fun (site, locations) =>
    Link.fresh site locations varargsCeiling
  incoming := []

namespace CodeTable

variable {table : CodeTable} {id other : CodeId} {block : Block} {site : SiteRef}

/-- A table with one more block, which takes the next number. -/
def append (table : CodeTable) (block : Block) : CodeTable :=
  { blocks := table.blocks ++ [block], lastNumber := table.lastNumber + 1 }

theorem compile_eq (request : Compilation) (varargsCeiling : Nat) (callCaching : Bool) :
    table.compile request varargsCeiling callCaching
      = (Locations.forBlock request.executable.sites.length).map fun labels =>
          (⟨table.lastNumber + 1⟩, table.append
            (request.assemble ⟨table.lastNumber + 1⟩ labels varargsCeiling callCaching)) := by
  rw [compile]
  rcases Locations.forBlock request.executable.sites.length with _ | labels
  · rfl
  · rfl

theorem Numbered.append (hnumbered : table.Numbered)
    (hid : block.id = ⟨table.lastNumber + 1⟩) : (table.append block).Numbered where
  sorted := by
    rw [CodeTable.append, List.pairwise_append]
    refine ⟨hnumbered.sorted, List.pairwise_singleton _ _, ?_⟩
    intro before hbefore after hafter
    have hle := hnumbered.bounded before hbefore
    rw [List.mem_singleton.mp hafter, hid]
    exact Nat.lt_succ_of_le hle
  bounded := by
    intro found hmem
    rw [CodeTable.append, List.mem_append] at hmem
    rcases hmem with hmem | hmem
    · exact Nat.le_succ_of_le (hnumbered.bounded found hmem)
    · rw [List.mem_singleton.mp hmem, hid]
      exact Nat.le_refl _

theorem Numbered.get?_append_self (hnumbered : table.Numbered)
    (hid : block.id = ⟨table.lastNumber + 1⟩) :
    (table.append block).get? ⟨table.lastNumber + 1⟩ = some block := by
  have hmem : block ∈ (table.append block).blocks := by simp [CodeTable.append]
  have hfound := (hnumbered.append hid).get?_of_mem hmem
  rwa [hid] at hfound

theorem get?_append_of_ne (hid : block.id = ⟨table.lastNumber + 1⟩)
    (hne : other ≠ ⟨table.lastNumber + 1⟩) :
    (table.append block).get? other = table.get? other := by
  have hother : (block.id == other) = false := by
    rw [hid]
    exact beq_false_of_ne hne.symm
  simp [get?, CodeTable.append, List.find?_append, hother]

theorem get?_append_of_some (hnumbered : table.Numbered) (hid : block.id = ⟨table.lastNumber + 1⟩)
    {found : Block} (h : table.get? other = some found) :
    (table.append block).get? other = some found := by
  rw [get?_append_of_ne hid, h]
  intro heq
  have hle := hnumbered.bounded found (mem_of_get? h)
  rw [id_of_get? h, heq] at hle
  exact Nat.not_succ_le_self _ hle

theorem Numbered.remove (hnumbered : table.Numbered) : (table.remove id).Numbered where
  sorted := hnumbered.sorted.filter _
  bounded := fun block hmem => hnumbered.bounded block (List.mem_of_mem_filter hmem)

theorem get?_remove_self : (table.remove id).get? id = none := by
  rw [get?, remove, List.find?_eq_none]
  intro block hmem
  simpa using (List.mem_filter.mp hmem).2

theorem get?_remove_of_ne (hne : other ≠ id) : (table.remove id).get? other = table.get? other := by
  rw [get?, remove, List.find?_filter, get?]
  congr 1
  funext block
  by_cases hblock : block.id = other
  · simp [hblock, hne]
  · simp [hblock]

theorem link?_remove_of_ne (hne : site.caller ≠ id) :
    (table.remove id).link? site = table.link? site := by
  rw [link?, link?, get?_remove_of_ne hne]

theorem ne_of_link?_remove {link : Link} (h : (table.remove id).link? site = some link) :
    site.caller ≠ id := by
  rintro rfl
  obtain ⟨caller, hcaller, _⟩ := link?_eq_some_iff.mp h
  rw [get?_remove_self] at hcaller
  cases hcaller

/-! ### Incoming sites -/

theorem get?_pruneIncoming :
    table.pruneIncoming.2.get? id
      = (table.get? id).map fun block =>
          { block with incoming := block.incoming.filter (table.goesTo block.id) } := by
  rw [pruneIncoming, get?_map]
  intro _
  rfl

theorem link?_pruneIncoming : table.pruneIncoming.2.link? site = table.link? site := by
  rw [link?, link?, get?_pruneIncoming]
  rcases table.get? site.caller with _ | caller <;> rfl

/-- Note on several blocks that a site goes there. -/
def noteIncoming (table : CodeTable) (codes : List CodeId) (site : SiteRef) : CodeTable :=
  codes.foldl (fun table id => table.update id fun block => block.addIncoming site) table

theorem noteIncoming_cons (codes : List CodeId) :
    table.noteIncoming (id :: codes) site
      = (table.update id fun block => block.addIncoming site).noteIncoming codes site := rfl

theorem link?_noteIncoming (codes : List CodeId) (elsewhere : SiteRef) :
    (table.noteIncoming codes site).link? elsewhere = table.link? elsewhere := by
  induction codes generalizing table with
  | nil => rfl
  | cons id codes ih =>
      rw [noteIncoming_cons, ih, link?_update (fun _ => Block.addIncoming_id _ _)]
      exact fun _ => Block.addIncoming_links _ _

theorem lastNumber_noteIncoming (codes : List CodeId) :
    (table.noteIncoming codes site).lastNumber = table.lastNumber := by
  induction codes generalizing table with
  | nil => rfl
  | cons id codes ih => rw [noteIncoming_cons, ih, update]

theorem bare_noteIncoming (codes : List CodeId) :
    ((table.noteIncoming codes site).get? other).map Block.bare
      = (table.get? other).map Block.bare := by
  induction codes generalizing table with
  | nil => rfl
  | cons id codes ih =>
      rw [noteIncoming_cons, ih, bare_update (fun _ => Block.addIncoming_id _ _)]
      exact fun _ => Block.bare_addIncoming _ _

/-- Every block keeps its incoming sites, and those that are named have one more. -/
theorem get?_noteIncoming (codes : List CodeId) (h : table.get? other = some block) :
    ∃ after, (table.noteIncoming codes site).get? other = some after ∧ after.bare = block.bare ∧
      (∀ known ∈ block.incoming, known ∈ after.incoming) ∧
      (other ∈ codes → site ∈ after.incoming) := by
  induction codes generalizing table block with
  | nil => exact ⟨block, h, rfl, fun _ hknown => hknown, fun hmem => by cases hmem⟩
  | cons id codes ih =>
      rw [noteIncoming_cons]
      by_cases hid : other = id
      · subst hid
        have hupdated : (table.update other fun block => block.addIncoming site).get? other
            = (table.get? other).map fun block => block.addIncoming site :=
          get?_update_self fun _ => Block.addIncoming_id _ _
        rw [h, Option.map_some] at hupdated
        obtain ⟨after, hafter, hbare, hkept, _⟩ := ih hupdated
        refine ⟨after, hafter, by rw [hbare, Block.bare_addIncoming], ?_, fun _ => ?_⟩
        · intro known hknown
          exact hkept known ((Block.mem_addIncoming _ _ _).mpr (Or.inr hknown))
        · exact hkept site ((Block.mem_addIncoming _ _ _).mpr (Or.inl rfl))
      · have hupdated : (table.update id fun block => block.addIncoming site).get? other
            = table.get? other :=
          get?_update_of_ne (fun _ => Block.addIncoming_id _ _) hid
        obtain ⟨after, hafter, hbare, hkept, hnoted⟩ := ih (hupdated.trans h)
        refine ⟨after, hafter, hbare, hkept, fun hmem => hnoted ?_⟩
        exact (List.mem_cons.mp hmem).resolve_left hid

/-! ### Visiting weak references -/

theorem visitLink_link (isLive : Cell → Bool) (link : Link) (stats : Stats) :
    (visitLink isLive link stats).1.link = (link.visitWeak isLive).2.link := by
  rw [visitLink]
  rcases link.visitWeak isLive with ⟨_ | _ | _, edit⟩ <;> rfl

theorem visitLinks_eq_map (isLive : Cell → Bool) (links : List Link) (stats : Stats) :
    (visitLinks isLive links stats).1 = links.map fun link => (link.visitWeak isLive).2.link := by
  induction links generalizing stats with
  | nil => rfl
  | cons link rest ih =>
      rw [visitLinks, List.map_cons, ← ih (visitLink isLive link stats).2,
        ← visitLink_link isLive link stats]

theorem visitBlocks_eq_map (isLive : Cell → Bool) (blocks : List Block) (stats : Stats) :
    (visitBlocks isLive blocks stats).1 = blocks.map fun block => block.visited isLive := by
  induction blocks generalizing stats with
  | nil => rfl
  | cons block rest ih =>
      rw [visitBlocks, List.map_cons, ← ih (visitLinks isLive block.links stats).2.2,
        Block.visited, ← visitLinks_eq_map isLive block.links stats]

theorem visitWeak_eq_map (isLive : Cell → Bool) (stats : Stats) :
    (table.visitWeak isLive stats).1
      = { table with blocks := table.blocks.map fun block => block.visited isLive } := by
  rw [visitWeak, ← visitBlocks_eq_map isLive table.blocks stats]

theorem visitLink_fastPathHits (isLive : Cell → Bool) (link : Link) (stats : Stats) :
    (visitLink isLive link stats).2.fastPathHits = stats.fastPathHits := by
  rw [visitLink]
  rcases link.visitWeak isLive with ⟨_ | _ | _, edit⟩ <;> rfl

/-- What the visit of one record leaves of the statistics, the visits of a list leave. -/
theorem visitLinks_view {γ : Type} {view : Stats → γ} {isLive : Cell → Bool}
    (hvisit : ∀ link stats, view (visitLink isLive link stats).2 = view stats)
    (links : List Link) (stats : Stats) :
    view (visitLinks isLive links stats).2.2 = view stats := by
  induction links generalizing stats with
  | nil => rfl
  | cons link rest ih => exact (ih _).trans (hvisit link stats)

theorem visitBlocks_view {γ : Type} {view : Stats → γ} {isLive : Cell → Bool}
    (hvisit : ∀ link stats, view (visitLink isLive link stats).2 = view stats)
    (blocks : List Block) (stats : Stats) :
    view (visitBlocks isLive blocks stats).2.2 = view stats := by
  induction blocks generalizing stats with
  | nil => rfl
  | cons block rest ih => exact (ih _).trans (visitLinks_view hvisit block.links stats)

/-- The collector serves no calls. -/
theorem visitWeak_fastPathHits (isLive : Cell → Bool) (stats : Stats) :
    (table.visitWeak isLive stats).2.2.fastPathHits = stats.fastPathHits :=
  visitBlocks_view (visitLink_fastPathHits isLive) table.blocks stats

theorem get?_visitWeak (isLive : Cell → Bool) (stats : Stats) :
    (table.visitWeak isLive stats).1.get? id
      = (table.get? id).map fun block => block.visited isLive := by
  rw [visitWeak_eq_map, get?_map]
  intro _
  rfl

theorem link?_visitWeak (isLive : Cell → Bool) (stats : Stats) :
    (table.visitWeak isLive stats).1.link? site
      = (table.link? site).map fun link => (link.visitWeak isLive).2.link := by
  rw [link?, link?, get?_visitWeak]
  rcases table.get? site.caller with _ | caller
  · rfl
  · exact List.getElem?_map

end CodeTable

end InlineCache
