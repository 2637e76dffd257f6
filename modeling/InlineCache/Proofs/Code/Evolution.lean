import InlineCache.Proofs.Code.Table
import InlineCache.Proofs.Link.Actions

/-!
# How the table of code evolves

Numbers of blocks are never given twice. A block that is found under a number that had been given
before was there before, compiled as the same thing, and the records of its sites have come about
from those that it had.
-/

namespace InlineCache.CodeTable

/-- The table `after` has come about from `before`. -/
structure Evolves (before after : CodeTable) : Prop where
  numbered : before.Numbered → after.Numbered
  lastNumber_le : before.lastNumber ≤ after.lastNumber
  block : ∀ {id found}, after.get? id = some found → id.number ≤ before.lastNumber →
    ∃ origin, before.get? id = some origin ∧ found.bare = origin.bare
  link : ∀ {site found}, after.link? site = some found → site.caller.number ≤ before.lastNumber →
    ∃ origin, before.link? site = some origin ∧ origin.Becomes found

variable {table before middle after : CodeTable} {id : CodeId} {site : SiteRef}

theorem Evolves.refl (table : CodeTable) : table.Evolves table where
  numbered := id
  lastNumber_le := Nat.le_refl _
  block := fun h _ => ⟨_, h, rfl⟩
  link := fun h _ => ⟨_, h, .refl _⟩

theorem Evolves.trans (hleft : before.Evolves middle) (hright : middle.Evolves after) :
    before.Evolves after where
  numbered := fun h => hright.numbered (hleft.numbered h)
  lastNumber_le := Nat.le_trans hleft.lastNumber_le hright.lastNumber_le
  block := by
    intro id found hfound hgiven
    obtain ⟨between, hbetween, heq⟩ :=
      hright.block hfound (Nat.le_trans hgiven hleft.lastNumber_le)
    obtain ⟨origin, horigin, heq'⟩ := hleft.block hbetween hgiven
    exact ⟨origin, horigin, heq.trans heq'⟩
  link := by
    intro site found hfound hgiven
    obtain ⟨between, hbetween, hlater⟩ :=
      hright.link hfound (Nat.le_trans hgiven hleft.lastNumber_le)
    obtain ⟨origin, horigin, hearlier⟩ := hleft.link hbetween hgiven
    exact ⟨origin, horigin, hearlier.trans hlater⟩

/-- The record of a site that was there before comes about from the one that it had. -/
theorem Evolves.becomes {link found : Link} (h : before.Evolves after)
    (hnumbered : before.Numbered) (hbefore : before.link? site = some link)
    (hafter : after.link? site = some found) : link.Becomes found := by
  obtain ⟨caller, hcaller, _⟩ := link?_eq_some_iff.mp hbefore
  have hgiven := hnumbered.bounded caller (mem_of_get? hcaller)
  rw [id_of_get? hcaller] at hgiven
  obtain ⟨origin, horigin, hbecomes⟩ := h.link hafter hgiven
  rw [hbefore] at horigin
  rwa [Option.some.inj horigin]

/-- A block stays the block that was compiled, for as long as it is there. -/
theorem Evolves.bare_eq {block found : Block} (h : before.Evolves after)
    (hnumbered : before.Numbered) (hbefore : before.get? id = some block)
    (hafter : after.get? id = some found) : found.bare = block.bare := by
  have hgiven := hnumbered.bounded block (mem_of_get? hbefore)
  rw [id_of_get? hbefore] at hgiven
  obtain ⟨origin, horigin, hbare⟩ := h.block hafter hgiven
  rw [hbefore] at horigin
  rwa [Option.some.inj horigin]

/-- The records of a block have come about from those of another, place by place. -/
def LinksBecome (before after : Block) : Prop :=
  ∀ (index : Nat) (found : Link), after.links[index]? = some found →
    ∃ origin, before.links[index]? = some origin ∧ origin.Becomes found

theorem LinksBecome.of_links {before after : Block} (h : after.links = before.links) :
    LinksBecome before after :=
  fun _ found hfound => ⟨found, h ▸ hfound, .refl found⟩

theorem LinksBecome.map {before after : Block} {change : Link → Link}
    (h : after.links = before.links.map change)
    (hchange : ∀ link : Link, link.Becomes (change link)) : LinksBecome before after := by
  intro index found hfound
  rw [h, List.getElem?_map] at hfound
  obtain ⟨origin, horigin, rfl⟩ := Option.map_eq_some_iff.mp hfound
  exact ⟨origin, horigin, hchange origin⟩

/-- Reworking the records of blocks in place. -/
theorem Evolves.map (change : Block → Block) (hbare : ∀ block, (change block).bare = block.bare)
    (hlinks : ∀ block, LinksBecome block (change block)) :
    table.Evolves { table with blocks := table.blocks.map change } := by
  have hid : ∀ block, (change block).id = block.id := fun block =>
    (Block.eq_of_bare (hbare block)).1
  refine ⟨fun h => h.map change hid, Nat.le_refl _, ?_, ?_⟩
  · intro id found hfound _
    rw [get?_map change hid] at hfound
    obtain ⟨origin, horigin, rfl⟩ := Option.map_eq_some_iff.mp hfound
    exact ⟨origin, horigin, hbare origin⟩
  · intro site found hfound _
    obtain ⟨caller, hcaller, hlink⟩ := link?_eq_some_iff.mp hfound
    rw [get?_map change hid] at hcaller
    obtain ⟨origin, horigin, rfl⟩ := Option.map_eq_some_iff.mp hcaller
    obtain ⟨link, hbefore, hbecomes⟩ := hlinks origin site.index found hlink
    exact ⟨link, link?_eq_some_iff.mpr ⟨origin, horigin, hbefore⟩, hbecomes⟩

theorem Evolves.update {change : Block → Block} (hbare : ∀ block, (change block).bare = block.bare)
    (hlinks : ∀ block, LinksBecome block (change block)) :
    table.Evolves (table.update id change) := by
  apply Evolves.map
  · intro block
    split
    · exact hbare block
    · rfl
  · intro block
    split
    · exact hlinks block
    · exact .of_links rfl

theorem Evolves.setLink {link changed : Link} (h : table.link? site = some link)
    (hbecomes : link.Becomes changed) : table.Evolves (table.setLink site changed) where
  numbered := fun hnumbered => hnumbered.setLink changed
  lastNumber_le := Nat.le_refl _
  block := by
    intro id found hfound _
    have hbare : ((table.setLink site changed).get? id).map Block.bare
        = (table.get? id).map Block.bare := bare_setLink changed
    rw [hfound, Option.map_some] at hbare
    obtain ⟨origin, horigin, heq⟩ := Option.map_eq_some_iff.mp hbare.symm
    exact ⟨origin, horigin, heq.symm⟩
  link := by
    intro elsewhere found hfound _
    by_cases heq : elsewhere = site
    · subst heq
      rw [link?_setLink_self changed h] at hfound
      exact ⟨link, h, Option.some.inj hfound ▸ hbecomes⟩
    · rw [link?_setLink_of_ne changed heq] at hfound
      exact ⟨found, hfound, .refl found⟩

theorem Evolves.append {block : Block} (hid : block.id = ⟨table.lastNumber + 1⟩) :
    table.Evolves (table.append block) := by
  have hne : ∀ {id : CodeId}, id.number ≤ table.lastNumber → id ≠ ⟨table.lastNumber + 1⟩ := by
    rintro id hgiven rfl
    exact Nat.not_succ_le_self _ hgiven
  refine ⟨fun h => h.append hid, Nat.le_succ _, ?_, ?_⟩
  · intro id found hfound hgiven
    rw [get?_append_of_ne hid (hne hgiven)] at hfound
    exact ⟨found, hfound, rfl⟩
  · intro site found hfound hgiven
    rw [link?, get?_append_of_ne hid (hne hgiven)] at hfound
    exact ⟨found, hfound, .refl found⟩

theorem Evolves.remove (table : CodeTable) (id : CodeId) : table.Evolves (table.remove id) where
  numbered := fun h => h.remove
  lastNumber_le := Nat.le_refl _
  block := by
    intro other found hfound _
    have hne : other ≠ id := by
      rintro rfl
      rw [get?_remove_self] at hfound
      cases hfound
    rw [get?_remove_of_ne hne] at hfound
    exact ⟨found, hfound, rfl⟩
  link := by
    intro site found hfound _
    rw [link?_remove_of_ne (ne_of_link?_remove hfound)] at hfound
    exact ⟨found, hfound, .refl found⟩

theorem Evolves.addIncoming (table : CodeTable) (id : CodeId) (site : SiteRef) :
    table.Evolves (table.update id fun block => block.addIncoming site) :=
  Evolves.update (fun _ => Block.bare_addIncoming _ _)
    fun _ => .of_links (Block.addIncoming_links _ _)

theorem Evolves.noteIncoming (table : CodeTable) (codes : List CodeId) (site : SiteRef) :
    table.Evolves (table.noteIncoming codes site) := by
  induction codes generalizing table with
  | nil => exact .refl table
  | cons id codes ih => exact (Evolves.addIncoming table id site).trans (ih _)

theorem Evolves.pruneIncoming (table : CodeTable) : table.Evolves table.pruneIncoming.2 :=
  Evolves.map _ (fun _ => rfl) fun _ => .of_links rfl

theorem Evolves.visitWeak (table : CodeTable) (isLive : Cell → Bool) (stats : Stats) :
    table.Evolves (table.visitWeak isLive stats).1 := by
  rw [visitWeak_eq_map]
  exact Evolves.map _ (fun _ => rfl) fun block =>
    .map rfl fun link => .single (.visitWeak isLive) rfl

end InlineCache.CodeTable
