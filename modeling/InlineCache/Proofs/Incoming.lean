import InlineCache.Proofs.Code.Incoming
import InlineCache.Proofs.Execution

/-!
# No call goes to code that is gone

Every change of a machine keeps the lists of incoming sites complete. Where a block is replaced or
discarded, the entries of its sites are owed and paid one after the other. So what a slot points to
is there when a call reads it, and a call never finds a dangling pointer.
-/

namespace InlineCache

namespace CodeTable

variable {table : CodeTable} {id other : CodeId}

theorem contains_update {change : Block → Block} (hid : ∀ block, (change block).id = block.id) :
    (table.update id change).contains other = table.contains other := by
  rw [contains, contains, get?_update hid, Option.isSome_map]

/-- Emptying the incoming list of a block makes its entries owed. -/
theorem Linked.clearIncoming {block : Block} (h : table.Linked)
    (hblock : table.get? id = some block) :
    (table.update id fun block => { block with incoming := [] }).Accounted
      fun code site => code = id ∧ site ∈ block.incoming := by
  have hlink : ∀ site, (table.update id fun block => { block with incoming := [] }).link? site
      = table.link? site := fun site => link?_update (fun _ => rfl) fun _ => rfl
  constructor
  · intro site link hfound
    rw [hlink] at hfound
    exact h.agrees hfound
  · intro site link hfound route hroute
    rw [hlink] at hfound
    obtain ⟨target, htarget, hentry⟩ := h.incoming hfound route hroute
    have hknown := hentry.resolve_right not_false
    by_cases heq : route.2.block = id
    · rw [heq, hblock] at htarget
      rw [← Option.some.inj htarget] at hknown
      refine ⟨{ block with incoming := [] }, ?_, .inr ⟨heq, hknown⟩⟩
      rw [heq, get?_update_self, hblock, Option.map_some]
      exact fun _ => rfl
    · refine ⟨target, ?_, .inl hknown⟩
      rw [get?_update_of_ne _ heq, htarget]
      exact fun _ => rfl

/-- The sites of a new block are not linked. -/
theorem fresh_of_assemble (request : Compilation) (id : CodeId) (labels : List Locations)
    (varargsCeiling : Nat) (callCaching : Bool) :
    ∀ link ∈ (request.assemble id labels varargsCeiling callCaching).links,
      link.Agrees ∧ link.routes = [] := by
  intro link hmem
  obtain ⟨⟨descriptor, locations⟩, _, rfl⟩ := List.mem_map.mp hmem
  exact ⟨Link.agrees_fresh _ _ _, Link.routes_fresh _ _ _⟩

/-- A block whose incoming list is empty can be taken out, with its own sites unlinked. -/
theorem Linked.discard {block : Block} (h : table.Linked) (hblock : table.get? id = some block)
    (hempty : block.incoming = []) :
    ((table.update id fun block =>
      { block with links := block.links.map fun link => link.revert.link }).remove id).Linked := by
  have hreverted : (table.update id fun block =>
      { block with links := block.links.map fun link => link.revert.link }).Linked := by
    refine h.map ?_ ?_ ?_
    · intro block
      split <;> rfl
    · intro block
      split <;> rfl
    · intro block _ index link hlink
      split at hlink
      · rw [List.getElem?_map] at hlink
        obtain ⟨origin, horigin, rfl⟩ := Option.map_eq_some_iff.mp hlink
        refine ⟨origin, horigin, Link.agrees_revert, fun route hroute => ?_⟩
        rw [Link.routes_revert] at hroute
        cases hroute
      · exact ⟨link, hlink, fun hagrees => hagrees, fun _ hroute => hroute⟩
  refine hreverted.remove fun hlink route hroute heq => ?_
  obtain ⟨found, hfound, hentry⟩ := hreverted.incoming hlink route hroute
  rw [heq, get?_update_self, hblock, Option.map_some] at hfound
  · have hknown := hentry.resolve_right not_false
    rw [← Option.some.inj hfound, hempty] at hknown
    cases hknown
  · exact fun _ => rfl

end CodeTable

namespace Machine

open CodeTable

variable {machine : Machine} {old : CodeId} {site : SiteRef} {rest : List SiteRef}

/-! ### Replacing -/

/-- What replacing code does to one site. -/
theorem upgradeSite_code (machine : Machine) (old : CodeId) (site : SiteRef) (new : CodePointer) :
    (machine.upgradeSite old site new).code =
      match machine.code.link? site with
      | none => machine.code
      | some link =>
        if link.targets old then
          (machine.code.setLink site (link.retarget old (some new)).2.link).update new.block
            fun block => block.addIncoming site
        else machine.code.setLink site link := by
  rw [upgradeSite, retargetSite]
  rcases machine.code.link? site with _ | link <;> dsimp only
  rcases htargets : link.targets old
  · rw [Link.retarget_of_not_targets _ htargets]
    rfl
  · have hupgraded := (Link.retarget_of_targets new htargets).1
    rcases hretarget : link.retarget old (some new) with ⟨outcome, edit⟩
    rw [hretarget] at hupgraded
    obtain rfl : outcome = .upgraded := hupgraded
    rfl

theorem upgradeSite_contains (machine : Machine) (old : CodeId) (site : SiteRef)
    (new : CodePointer) (id : CodeId) :
    (machine.upgradeSite old site new).code.contains id = machine.code.contains id := by
  rw [upgradeSite_code]
  rcases machine.code.link? site with _ | link <;> dsimp only
  have hset : ∀ changed : Link,
      (machine.code.setLink site changed).contains id = machine.code.contains id :=
    fun changed => contains_update fun _ => rfl
  split
  · rw [contains_update fun _ => Block.addIncoming_id _ _, hset]
  · exact hset link

/-- Visiting a site pays what is owed for it. -/
theorem upgradeSite_accounted {new : CodePointer} (hne : new.block ≠ old)
    (hnew : machine.code.contains new.block = true)
    (h : machine.code.Accounted fun code elsewhere => code = old ∧ elsewhere ∈ site :: rest) :
    (machine.upgradeSite old site new).code.Accounted
      fun code elsewhere => code = old ∧ elsewhere ∈ rest := by
  rw [upgradeSite_code]
  rcases hlink : machine.code.link? site with _ | link <;> dsimp only
  · refine h.mono fun hfound route hroute howed => ⟨howed.1, ?_⟩
    refine (List.mem_cons.mp howed.2).resolve_left ?_
    rintro rfl
    rw [hlink] at hfound
    cases hfound
  · rcases htargets : link.targets old
    · rw [if_neg (by simp)]
      have hsame := h.setLink_of_subset hlink (h.agrees hlink) fun _ hroute => hroute
      refine hsame.mono fun hfound route hroute howed => ⟨howed.1, ?_⟩
      refine (List.mem_cons.mp howed.2).resolve_left ?_
      rintro rfl
      rw [link?_setLink_self link hlink] at hfound
      rw [← Option.some.inj hfound] at hroute
      rw [Link.targets_iff.mpr ⟨route, hroute, howed.1⟩] at htargets
      cases htargets
    · rw [if_pos rfl]
      obtain ⟨fresh, hfresh⟩ := contains_iff.mp hnew
      have hroutes := Link.routes_retarget_some link old new
      -- every route of the moved record goes to the new block, or went elsewhere all along
      have hmoved : ∀ route ∈ (link.retarget old (some new)).2.link.routes,
          route.2.block = new.block ∨ (route.2.block ≠ old ∧ route ∈ link.routes) := by
        intro route hroute
        rw [hroutes] at hroute
        obtain ⟨before, hbefore, rfl⟩ := List.mem_map.mp hroute
        by_cases heq : before.2.block = old
        · rw [if_pos heq]
          exact .inl rfl
        · rw [if_neg heq]
          exact .inr ⟨heq, hbefore⟩
      have howing : machine.code.Accounted fun code elsewhere =>
          (code = old ∧ elsewhere ∈ site :: rest) ∨ (elsewhere = site ∧ code = new.block) :=
        h.mono fun _ _ _ => .inl
      have hset := howing.setLink hlink (Link.agrees_retarget (h.agrees hlink) old (some new))
        fun route hroute => by
          rcases hmoved route hroute with heq | ⟨_, hbefore⟩
          · exact ⟨fresh, by rw [heq, hfresh], .inr (.inr ⟨rfl, heq⟩)⟩
          · exact howing.incoming hlink route hbefore
      refine Accounted.addIncoming (hset.mono fun hfound route hroute howed => ?_)
      refine howed.imp_left fun ⟨hold, hmem⟩ => ⟨hold, ?_⟩
      refine (List.mem_cons.mp hmem).resolve_left ?_
      rintro rfl
      rw [link?_setLink_self _ hlink] at hfound
      rw [← Option.some.inj hfound] at hroute
      rcases hmoved route hroute with heq | ⟨hother, _⟩
      · exact hne (heq.symm.trans hold)
      · exact hother hold

/-- Visiting all sites pays everything. -/
theorem foldl_upgradeSite_linked {new : CodePointer} (hne : new.block ≠ old)
    (sites : List SiteRef) (machine : Machine) (hnew : machine.code.contains new.block = true)
    (h : machine.code.Accounted fun code elsewhere => code = old ∧ elsewhere ∈ sites) :
    (sites.foldl (fun machine site => machine.upgradeSite old site new) machine).code.Linked := by
  induction sites generalizing machine with
  | nil => exact h.mono fun _ _ _ howed => nomatch howed.2
  | cons site rest ih =>
      refine ih (machine.upgradeSite old site new) ?_ (upgradeSite_accounted hne hnew h)
      rwa [upgradeSite_contains]

theorem nextCode_ne_of_get? {id : CodeId} {block : Block} (hnumbered : machine.code.Numbered)
    (hblock : machine.code.get? id = some block) : machine.nextCode ≠ id := by
  intro heq
  have hgiven := hnumbered.bounded block (mem_of_get? hblock)
  rw [id_of_get? hblock, ← heq] at hgiven
  exact Nat.not_succ_le_self _ hgiven

theorem replaced_linked {block : Block} (executable : Executable) (entry : Entry) (tier : Tier)
    (labels : List Locations) (hnumbered : machine.code.Numbered)
    (hblock : machine.code.get? block.id = some block) (h : machine.code.Linked) :
    (machine.replaced block executable entry tier labels).code.Linked := by
  have happended :
      (machine.compiled (block.replacement executable entry tier) labels).code.Linked :=
    h.append hnumbered rfl (fresh_of_assemble _ _ _ _ _)
  have hold : (machine.compiled (block.replacement executable entry tier) labels).code.get? block.id
      = some block := get?_append_of_some hnumbered rfl hblock
  have hnew : (machine.compiled (block.replacement executable entry tier) labels).code.contains
      machine.nextCode = true := contains_iff.mpr ⟨_, hnumbered.get?_append_self rfl⟩
  rw [replaced, upgradeSites_eq_foldl]
  refine foldl_upgradeSite_linked (nextCode_ne_of_get? hnumbered hblock) _ _ ?_
    (happended.clearIncoming hold)
  rw [← hnew]
  exact contains_update fun _ => rfl

/-! ### Discarding -/

theorem dropSite_code_eq (machine : Machine) (old : CodeId) (site : SiteRef) :
    (machine.dropSite old site).code =
      match machine.code.link? site with
      | none => machine.code
      | some link => machine.code.setLink site (link.retarget old none).2.link := by
  rw [dropSite_code, retargetSite]
  rcases machine.code.link? site with _ | link <;> rfl

/-- No entry of a discarded block is owed for a site once the site has been visited. -/
theorem dropSite_accounted
    (h : machine.code.Accounted fun code elsewhere => code = old ∧ elsewhere ∈ site :: rest) :
    (machine.dropSite old site).code.Accounted
      fun code elsewhere => code = old ∧ elsewhere ∈ rest := by
  rw [dropSite_code_eq]
  rcases hlink : machine.code.link? site with _ | link <;> dsimp only
  · refine h.mono fun hfound route hroute howed => ⟨howed.1, ?_⟩
    refine (List.mem_cons.mp howed.2).resolve_left ?_
    rintro rfl
    rw [hlink] at hfound
    cases hfound
  · have hroutes := Link.routes_retarget_none link old
    have hset := h.setLink_of_subset hlink (Link.agrees_retarget (h.agrees hlink) old none) (by
      intro route hroute
      rw [hroutes] at hroute
      exact List.mem_of_mem_filter hroute)
    refine hset.mono fun hfound route hroute howed => ⟨howed.1, ?_⟩
    refine (List.mem_cons.mp howed.2).resolve_left ?_
    rintro rfl
    rw [link?_setLink_self _ hlink] at hfound
    rw [← Option.some.inj hfound, hroutes] at hroute
    exact bne_iff_ne.mp (List.mem_filter.mp hroute).2 howed.1

theorem dropSite_incoming {id : CodeId} {block : Block} (h : machine.code.get? id = some block) :
    ∃ after, (machine.dropSite old site).code.get? id = some after ∧
      after.incoming = block.incoming := by
  rw [dropSite_code_eq]
  rcases machine.code.link? site with _ | link
  · exact ⟨block, h, rfl⟩
  · exact get?_setLink_incoming _ h

/-- Once all its sites have been visited, nothing goes to a block that is to be discarded. -/
theorem foldl_dropSite_linked (sites : List SiteRef) (machine : Machine)
    (hcleared : ∃ block, machine.code.get? old = some block ∧ block.incoming = [])
    (h : machine.code.Accounted fun code elsewhere => code = old ∧ elsewhere ∈ sites) :
    (∃ block, (sites.foldl (fun machine site => machine.dropSite old site) machine).code.get? old
        = some block ∧ block.incoming = []) ∧
      (sites.foldl (fun machine site => machine.dropSite old site) machine).code.Linked := by
  induction sites generalizing machine with
  | nil => exact ⟨hcleared, h.mono fun _ _ _ howed => nomatch howed.2⟩
  | cons site rest ih =>
      obtain ⟨block, hblock, hempty⟩ := hcleared
      have hdropped : ∃ after, (machine.dropSite old site).code.get? old = some after ∧ _ :=
        dropSite_incoming hblock
      obtain ⟨after, hafter, hsame⟩ := hdropped
      exact ih (machine.dropSite old site) ⟨after, hafter, hsame.trans hempty⟩
        (dropSite_accounted h)

theorem jettison_linked {block : Block} (hnumbered : machine.code.Numbered)
    (hblock : machine.code.get? block.id = some block) (h : machine.code.Linked) :
    (machine.jettison block).code.Linked := by
  have hcleared : (machine.clearIncoming block.id).code.get? block.id
      = some { block with incoming := [] } := by
    rw [clearIncoming, get?_update_self, hblock, Option.map_some]
    exact fun _ => rfl
  obtain ⟨⟨found, hfound, hempty⟩, hdropped⟩ := foldl_dropSite_linked block.incoming
    (machine.clearIncoming block.id) ⟨_, hcleared, rfl⟩ (h.clearIncoming hblock)
  have hstill := ((clearIncoming_evolves machine block.id).trans (foldl_evolves _
    (fun machine site => dropSite_evolves machine block.id site) block.incoming)).numbered hnumbered
  rw [jettison, report]
  dsimp only
  rw [releaseCode_code, revertLinks_code _ _ hstill]
  exact hdropped.discard hfound hempty

/-! ### Every change -/

/-- A resolved callee goes to a block that is there. -/
theorem Resolves.target_live {kind : Specialization} {resolved : Resolved}
    (h : machine.Resolves kind resolved) :
    ∃ block, machine.code.get? resolved.target.block = some block := by
  obtain ⟨_, block, _, _, hblock, htarget, _⟩ := h.code
  exact ⟨block, by rw [← htarget]; exact hblock⟩

theorem Change.linked {may : Work → Prop} {before after : Machine}
    (hnumbered : before.code.Numbered) (h : Change may before after)
    (hlinked : before.code.Linked) : after.code.Linked := by
  cases h with
  | bookkeeping hstore => rwa [show after.code = before.code from congrArg Store.code hstore]
  | allocation => exact hlinked
  | barrier => exact hlinked
  | startMarking => exact hlinked
  | markStep => exact hlinked
  | sweep =>
      rw [sweepHeap_code]
      exact hlinked.visitWeak _ _
  | profile hlink hprofiled =>
      refine hlinked.setLink_of_subset hlink (hprofiled.agrees (hlinked.agrees hlink)) ?_
      rw [hprofiled.routes_eq]
      exact fun _ hroute => hroute
  | giveUp hlink hafter =>
      have hagrees := hlinked.agrees hlink
      rcases hafter with rfl | rfl
      · refine hlinked.setLink_of_subset hlink (Link.agrees_setVirtual hagrees) ?_
        rw [Link.routes_setVirtual]
        exact fun _ hroute => nomatch hroute
      · exact hlinked.setLink_of_subset hlink (Link.agrees_disallowStubs hagrees)
          (Link.routes_disallowStubs_subset _)
  | @install site link changed owner resolved codes hlink hresolves hinstalls =>
      refine Accounted.noteIncoming ?_
      have howing : before.code.Accounted fun id elsewhere =>
          False ∨ (elsewhere = site ∧ id ∈ codes) := hlinked.mono fun _ _ _ => False.elim
      refine howing.setLink hlink (hinstalls.agrees (hlinked.agrees hlink)) fun route hroute => ?_
      rcases hinstalls.block_mem hroute with hkept | hcode
      · exact howing.incoming hlink route hkept
      · rcases hinstalls.route_cases hroute with ⟨heq, _⟩ | ⟨origin, horigin, heq, _⟩
        · obtain ⟨block, hblock⟩ := hresolves.target_live
          exact ⟨block, by rw [heq, hblock], .inr (.inr ⟨rfl, hcode⟩)⟩
        · obtain ⟨block, hblock, _⟩ := hlinked.incoming hlink origin horigin
          exact ⟨block, by rw [← heq, hblock], .inr (.inr ⟨rfl, hcode⟩)⟩
  | compile labels => exact hlinked.append hnumbered rfl (fresh_of_assemble _ _ _ _ _)
  | replace entry tier labels hblock =>
      exact replaced_linked _ entry tier labels hnumbered hblock hlinked
  | jettison hblock => exact jettison_linked hnumbered hblock hlinked
  | prune => exact hlinked.pruneIncoming

theorem Changes.linked {may : Work → Prop} {before after : Machine}
    (h : Changes may before after) (hnumbered : before.code.Numbered)
    (hlinked : before.code.Linked) : after.code.Numbered ∧ after.code.Linked := by
  induction h with
  | refl => exact ⟨hnumbered, hlinked⟩
  | tail _ hlast ih => exact ⟨(hlast.evolves ih.1).numbered ih.1, hlast.linked ih.1 ih.2⟩

end Machine

theorem Machine.linked_of_create {config : Config} {machine : Machine}
    (h : Machine.create config = .ok machine) : machine.code.Linked := by
  rw [Machine.create_eq_ok h]
  exact ⟨fun hlink => (nomatch hlink), fun hlink => (nomatch hlink)⟩

/-- The lists of incoming sites are complete after every run. -/
theorem Execution.linked_run (execution : Execution) (requests : List Request)
    (hnumbered : execution.machine.code.Numbered) (h : execution.machine.code.Linked) :
    (execution.run requests).machine.code.Numbered ∧
      (execution.run requests).machine.code.Linked :=
  Execution.run_preserves (fun machine => machine.code.Linked)
    (fun hnumbered hchange => hchange.linked hnumbered)
    (fun _ _ hlinked => hlinked) execution requests hnumbered h

end InlineCache
