import InlineCache.Proofs.Landing
import InlineCache.Proofs.Machine.Outline
import InlineCache.Proofs.Machine.Steady
import InlineCache.Proofs.Provenance

/-!
# What a collection leaves

A collection visits the links, sweeps the heap, discards code block by block and prunes the lists of
incoming sites. After the sweep there is no marker, so discarding code leaves the heap alone, and
what it does to the table of code is to take blocks out. The links that remain name live cells and
go to live code, so the check at the end of a collection never fails.
-/

namespace InlineCache

/-! ### The cells of a record -/

/-- The cells of a link state are those that the guards of its routes name. -/
theorem LinkState.mem_dependents_iff {state : LinkState} {cell : Cell} :
    cell ∈ state.dependents ↔ ∃ route ∈ state.routes, cell ∈ route.1.cells := by
  cases state with
  | unlinked => simp [dependents, routes]
  | virtual => simp [dependents, routes]
  | monomorphic callee target => simp [dependents, routes, Guard.cells]
  | direct executable target => simp [dependents, routes, Guard.cells]
  | polymorphic stub =>
      simp [dependents, routes, Guard.cells, Stub.dependents, Stub.routes, Case.route]

namespace Link

variable {link : Link} {isLive : Cell → Bool}

/-- The record names live cells only. -/
def Alive (isLive : Cell → Bool) (link : Link) : Prop :=
  ∀ cell ∈ link.dependents, isLive cell = true

theorem alive_iff : link.Alive isLive ↔
    (∀ route ∈ link.routes, route.1.isLive isLive = true) ∧
      ∀ cell ∈ link.lastCallee.target, isLive cell = true := by
  simp only [Alive, dependents, List.mem_append, LinkState.mem_dependents_iff, Guard.isLive,
    List.all_eq_true, Option.mem_toList, routes]
  constructor
  · intro h
    exact ⟨fun route hroute cell hcell => h cell (.inl ⟨route, hroute, hcell⟩),
      fun cell hcell => h cell (.inr hcell)⟩
  · rintro ⟨hroutes, hlast⟩ cell (⟨route, hroute, hcell⟩ | hcell)
    · exact hroutes route hroute cell hcell
    · exact hlast cell hcell

theorem unlink_link_lastCallee (link : Link) : link.unlink.link.lastCallee = link.lastCallee := by
  rw [unlink]
  rcases link.state with _ | _ | _ | _ | _
  · dsimp only
    split <;> rfl
  all_goals rfl

theorem revert_link_lastCallee (link : Link) : link.revert.link.lastCallee = link.lastCallee := by
  rw [revert]
  rcases link.mode with _ | _ | _ | _ | _
  · rfl
  · exact unlink_link_lastCallee link
  · exact unlink_link_lastCallee link
  · rfl
  · exact unlink_link_lastCallee link

theorem retarget_none_link_lastCallee (link : Link) (old : CodeId) :
    (link.retarget old none).2.link.lastCallee = link.lastCallee := by
  rcases htargets : link.targets old
  · rw [retarget_of_not_targets none htargets]
  · unfold retarget
    rw [htargets]
    rcases link.state with _ | ⟨callee, target⟩ | stub | _ | ⟨executable, target⟩
    · rfl
    · exact unlink_link_lastCallee link
    · simp only [Bool.not_true, Bool.false_eq_true, if_false]
      split
      · exact unlink_link_lastCallee link
      · rfl
    · rfl
    · exact unlink_link_lastCallee link

theorem visitState_link_lastCallee (link : Link) (isLive : Cell → Bool) :
    (link.visitState isLive).2.link.lastCallee = link.lastCallee := by
  rw [visitState]
  rcases link.state with _ | ⟨callee, target⟩ | stub | _ | ⟨executable, target⟩
  · rfl
  · dsimp only
    rcases callee.visit isLive with ⟨_ | _, _⟩
    · rfl
    · exact unlink_link_lastCallee _
  · dsimp only
    split
    · rfl
    · split
      · exact unlink_link_lastCallee link
      · rfl
  · rfl
  · dsimp only
    rcases executable.visit isLive with ⟨_ | _, _⟩
    · rfl
    · exact unlink_link_lastCallee _

theorem forgetDeadCallee_live (link : Link) (isLive : Cell → Bool) :
    ∀ cell ∈ (link.forgetDeadCallee isLive).link.lastCallee.target, isLive cell = true := by
  rw [forgetDeadCallee, WeakRef.visit]
  rcases hlast : link.lastCallee.target with _ | last
  · simp [hlast]
  · rcases hlive : isLive last <;> simp [hlast, hlive, WeakRef.empty]

/-- After the visit of the collector a record names no dead cell. -/
theorem alive_visitWeak (link : Link) (isLive : Cell → Bool) :
    (link.visitWeak isLive).2.link.Alive isLive := by
  refine alive_iff.mpr ⟨fun route hroute => ?_, ?_⟩
  · rw [routes_visitWeak] at hroute
    exact (List.mem_filter.mp hroute).2
  · show ∀ cell ∈
      ((link.forgetDeadCallee isLive).link.visitState isLive).2.link.lastCallee.target, _
    rw [visitState_link_lastCallee]
    exact forgetDeadCallee_live link isLive

theorem Alive.retarget_none (h : link.Alive isLive) (old : CodeId) :
    (link.retarget old none).2.link.Alive isLive := by
  obtain ⟨hroutes, hlast⟩ := alive_iff.mp h
  refine alive_iff.mpr ⟨fun route hroute => ?_, ?_⟩
  · rw [routes_retarget_none] at hroute
    exact hroutes route (List.mem_of_mem_filter hroute)
  · rwa [retarget_none_link_lastCallee]

theorem Alive.revert (h : link.Alive isLive) : link.revert.link.Alive isLive := by
  refine alive_iff.mpr ⟨fun route hroute => ?_, ?_⟩
  · rw [routes_revert] at hroute
    cases hroute
  · rw [revert_link_lastCallee]
    exact (alive_iff.mp h).2

end Link

/-- What holds of a record still holds when the record loses links. -/
structure Link.Stable (fits : Link → Prop) : Prop where
  retarget : ∀ {link : Link}, fits link → ∀ old, fits (link.retarget old none).2.link
  revert : ∀ {link : Link}, fits link → fits link.revert.link

theorem Link.stable_alive (isLive : Cell → Bool) : Link.Stable (Link.Alive isLive) :=
  ⟨Link.Alive.retarget_none, Link.Alive.revert⟩

/-! ### Every record of a table -/

namespace CodeTable

variable {table after : CodeTable} {fits : Link → Prop} {site : SiteRef} {id : CodeId}

/-- Something holds of every link record of a table. -/
def Each (fits : Link → Prop) (table : CodeTable) : Prop :=
  ∀ site link, table.link? site = some link → fits link

theorem Each.of_link? (h : table.Each fits) (hlinks : ∀ site, after.link? site = table.link? site) :
    after.Each fits := by
  intro site link hlink
  rw [hlinks] at hlink
  exact h site link hlink

theorem Each.setLink {link changed : Link} (h : table.Each fits)
    (hlink : table.link? site = some link) (hfits : fits changed) :
    (table.setLink site changed).Each fits := by
  intro elsewhere found hfound
  by_cases heq : elsewhere = site
  · rw [heq, link?_setLink_self changed hlink] at hfound
    exact Option.some.inj hfound ▸ hfits
  · rw [link?_setLink_of_ne changed heq] at hfound
    exact h _ _ hfound

theorem Each.mapLinks {change : Link → Link} (h : table.Each fits)
    (hchange : ∀ link, fits link → fits (change link)) :
    (table.update id fun block => { block with links := block.links.map change }).Each fits := by
  intro elsewhere found hfound
  obtain ⟨caller, hcaller, hlink⟩ := link?_eq_some_iff.mp hfound
  rw [get?_update] at hcaller
  · obtain ⟨origin, horigin, rfl⟩ := Option.map_eq_some_iff.mp hcaller
    split at hlink
    · rw [List.getElem?_map] at hlink
      obtain ⟨source, hsource, rfl⟩ := Option.map_eq_some_iff.mp hlink
      exact hchange source (h _ _ (link?_eq_some_iff.mpr ⟨origin, horigin, hsource⟩))
    · exact h _ _ (link?_eq_some_iff.mpr ⟨origin, horigin, hlink⟩)
  · exact fun _ => rfl

theorem Each.remove (h : table.Each fits) : (table.remove id).Each fits := by
  intro elsewhere found hfound
  rw [link?_remove_of_ne (ne_of_link?_remove hfound)] at hfound
  exact h _ _ hfound

end CodeTable

namespace Machine

open CodeTable

variable {machine : Machine} {fits : Link → Prop}

/-- Discarding a block keeps what every record fulfils, if losing links keeps it. -/
theorem jettison_each (block : Block) (hnumbered : machine.code.Numbered)
    (hstable : Link.Stable fits) (h : machine.code.Each fits) :
    (machine.jettison block).code.Each fits := by
  have hcleared : (machine.clearIncoming block.id).code.Each fits :=
    h.of_link? fun site => link?_update (fun _ => rfl) fun _ => rfl
  have hdropped : ∀ (sites : List SiteRef) (machine : Machine), machine.code.Each fits →
      (sites.foldl (fun machine site => machine.dropSite block.id site) machine).code.Each
        fits := by
    intro sites
    induction sites with
    | nil => exact fun _ heach => heach
    | cons site rest ih =>
        refine fun machine heach => ih _ ?_
        rw [dropSite_code_eq]
        rcases hlink : machine.code.link? site with _ | link
        · exact heach
        · exact heach.setLink hlink (hstable.retarget (heach site link hlink) block.id)
  have hstill := ((clearIncoming_evolves machine block.id).trans (foldl_evolves _
    (fun machine site => dropSite_evolves machine block.id site) block.incoming)).numbered hnumbered
  rw [jettison, report]
  dsimp only
  rw [releaseCode_code, revertLinks_code _ _ hstill]
  exact ((hdropped block.incoming _ hcleared).mapLinks fun _ => hstable.revert).remove

/-! ### Discarding code when there is no marker -/

/-- Blocks have been taken out of the table of code. The heap and the frames are as before, and the
records that are left have at most lost links. -/
structure Discards (before : Machine) (codes : List CodeId) (after : Machine) : Prop where
  settled : after.Settled
  heap_eq : after.heap = before.heap
  setting_eq : after.setting = before.setting
  get?_outline : ∀ id, (after.code.get? id).map Block.outline
    = if id ∈ codes then none else (before.code.get? id).map Block.outline
  linked : before.code.Linked → after.code.Linked
  follows : before.code.Follows Eq after.code
  each : ∀ {fits}, Link.Stable fits → before.code.Each fits → after.code.Each fits

theorem Discards.refl (h : machine.Settled) : machine.Discards [] machine :=
  ⟨h, rfl, rfl, fun _ => rfl, id, .refl _, fun _ heach => heach⟩

theorem Discards.trans {before middle after : Machine} {first rest : List CodeId}
    (hleft : before.Discards first middle) (hright : middle.Discards rest after) :
    before.Discards (first ++ rest) after where
  settled := hright.settled
  heap_eq := hright.heap_eq.trans hleft.heap_eq
  setting_eq := hright.setting_eq.trans hleft.setting_eq
  get?_outline id := by
    rw [hright.get?_outline, hleft.get?_outline]
    by_cases hfirst : id ∈ first <;> by_cases hrest : id ∈ rest <;> simp [hfirst, hrest]
  linked h := hright.linked (hleft.linked h)
  follows := hleft.follows.after_eq hright.follows
  each hstable h := hright.each hstable (hleft.each hstable h)

/-- Whether a block can be discarded depends on what it was compiled as. -/
theorem isReclaimable_congr {left right : Machine} {block found : Block}
    (hheap : left.heap = right.heap) (hrunning : left.running = right.running)
    (houtline : block.outline = found.outline) :
    left.isReclaimable block = right.isReclaimable found := by
  obtain ⟨hid, howner, _, hkind, _⟩ := Block.eq_of_outline houtline
  rw [isReclaimable, isReclaimable, hheap, hrunning, hid, howner, hkind]

theorem not_current_of_isReclaimable {block : Block} (h : machine.isReclaimable block = true) :
    machine.currentCode? block.owner block.kind ≠ some block.id := by
  intro hcurrent
  obtain ⟨executable, hexecutable, hcode⟩ := Option.bind_eq_some_iff.mp hcurrent
  rw [isReclaimable, hexecutable] at h
  simp [hcode] at h

theorem jettison_discards {block : Block} (hsettled : machine.Settled)
    (hblock : machine.code.get? block.id = some block)
    (hreclaimable : machine.isReclaimable block = true) :
    machine.Discards [block.id] (machine.jettison block) where
  settled := hsettled.jettison block
  heap_eq := by
    have hheap := congrArg MachineOutline.heap (hsettled.outline_jettison block)
    exact hheap.trans (if_neg (not_current_of_isReclaimable hreclaimable))
  setting_eq := jettison_setting machine block
  get?_outline id := by
    have hcode := congrArg MachineOutline.code (hsettled.outline_jettison block)
    have hremoved : (machine.jettison block).code.outline
        = (machine.code.remove block.id).outline := hcode.trans outline_remove.symm
    rw [get?_of_outline hremoved]
    by_cases hid : id = block.id
    · rw [hid, get?_remove_self, if_pos List.mem_cons_self]
      rfl
    · rw [get?_remove_of_ne hid, if_neg (by simpa using hid)]
  linked h := jettison_linked hsettled.numbered hblock h
  follows := jettison_follows machine block hsettled.numbered
  each hstable h := jettison_each block hsettled.numbered hstable h

end Machine

namespace MachineM

open CodeTable Machine

variable {machine : Machine}

theorem exec_jettisonCode {block : Block} (hblock : machine.code.get? block.id = some block) :
    (jettisonCode block.id).exec machine = (.ok ⟨⟩, machine.jettison block) := by
  rw [jettisonCode, exec_bind, MachineM.block, exec_look, block_eq_ok_iff.mpr hblock]
  rfl

/-- Code that can be discarded is discarded, without fail. -/
theorem forM_jettisonCode_discards (codes : List CodeId) (hnodup : codes.Nodup)
    (hsettled : machine.Settled)
    (hreclaimable : ∀ id ∈ codes, ∃ block, machine.code.get? id = some block ∧
      machine.isReclaimable block = true) :
    ∃ after, (codes.forM jettisonCode).exec machine = (.ok ⟨⟩, after) ∧
      machine.Discards codes after := by
  induction codes generalizing machine with
  | nil => exact ⟨machine, rfl, .refl hsettled⟩
  | cons id rest ih =>
      obtain ⟨hfresh, hrest⟩ := List.nodup_cons.mp hnodup
      obtain ⟨block, hblock, hgone⟩ := hreclaimable id List.mem_cons_self
      obtain rfl := id_of_get? hblock
      have hfirst := jettison_discards hsettled hblock hgone
      -- the blocks that are still to go can be discarded as before
      have hstill : ∀ id ∈ rest, ∃ found, (machine.jettison block).code.get? id = some found ∧
          (machine.jettison block).isReclaimable found = true := by
        intro id hid
        obtain ⟨origin, horigin, hdead⟩ := hreclaimable id (List.mem_cons_of_mem _ hid)
        have hkept := hfirst.get?_outline id
        rw [if_neg, horigin] at hkept
        · obtain ⟨found, hfound, houtline⟩ := Option.map_eq_some_iff.mp hkept
          refine ⟨found, hfound, ?_⟩
          rw [← hdead]
          exact isReclaimable_congr hfirst.heap_eq (congrArg Setting.running hfirst.setting_eq)
            houtline
        · rw [List.mem_singleton]
          rintro rfl
          exact hfresh hid
      obtain ⟨after, hrun, hdiscards⟩ := ih hrest hfirst.settled hstill
      refine ⟨after, ?_, hfirst.trans hdiscards⟩
      show (jettisonCode block.id >>= fun _ => rest.forM jettisonCode).exec machine = _
      rw [exec_bind, exec_jettisonCode hblock]
      exact hrun

end MachineM

/-! ### The whole collection -/

namespace CodeTable

variable {table : CodeTable} {id : CodeId} {block : Block} {site : SiteRef}

theorem outline_visitWeak (isLive : Cell → Bool) (stats : Stats) :
    (table.visitWeak isLive stats).1.outline = table.outline := by
  rw [visitWeak_eq_map]
  refine Prod.ext ?_ rfl
  dsimp only [outline]
  rw [List.map_map]
  refine List.map_congr_left fun block _ => ?_
  have htypes : (block.visited isLive).links.map Link.callType
      = block.links.map Link.callType := by
    rw [Block.visited, List.map_map]
    exact List.map_congr_left fun link _ => Link.visitWeak_link_callType link isLive
  dsimp only [Function.comp]
  rw [Block.outline, Block.outline, htypes]
  rfl

/-- After the pruning, the list of incoming sites of a block is exact. -/
theorem Linked.mem_incoming_iff (h : table.Linked)
    (hblock : table.pruneIncoming.2.get? id = some block) :
    site ∈ block.incoming ↔
      ∃ link, table.pruneIncoming.2.link? site = some link ∧ link.targets id = true := by
  rw [get?_pruneIncoming] at hblock
  obtain ⟨origin, horigin, rfl⟩ := Option.map_eq_some_iff.mp hblock
  obtain rfl := id_of_get? horigin
  have hgoes : table.goesTo origin.id site = true ↔
      ∃ link, table.link? site = some link ∧ link.targets origin.id = true := by
    rw [goesTo]
    rcases table.link? site with _ | link <;> simp
  rw [link?_pruneIncoming, ← hgoes, List.mem_filter, and_iff_right_of_imp]
  intro htargets
  obtain ⟨link, hlink, hcode⟩ := hgoes.mp htargets
  obtain ⟨route, hroute, hid⟩ := Link.targets_iff.mp hcode
  obtain ⟨target, htarget, hentry⟩ := h.incoming hlink route hroute
  rw [hid, horigin] at htarget
  rw [Option.some.inj htarget]
  exact hentry.resolve_right id

end CodeTable

namespace Machine

open CodeTable Heap

variable {machine before after : Machine}

/-- A collection has finished. -/
structure Collected (before after : Machine) : Prop where
  settled : after.Settled
  heap_eq : after.heap = before.sweepHeap.2.heap
  setting_eq : after.setting = before.setting
  /-- The code that can be discarded is gone, and all other code is there. -/
  get?_outline : ∀ id, (after.code.get? id).map Block.outline
    = ((before.code.get? id).filter fun block => !before.sweepHeap.2.isReclaimable block).map
      Block.outline
  linked : after.code.Linked
  follows : before.code.Follows Eq after.code
  incoming : ∀ {id block}, after.code.get? id = some block → ∀ site, site ∈ block.incoming ↔
    ∃ link, after.code.link? site = some link ∧ link.targets id = true
  alive : after.code.Each (Link.Alive after.heap.contains)
  verified : after.verifyLinks = .ok ()

theorem isReclaimable_eq_false_iff {block : Block} : machine.isReclaimable block = false ↔
    ∃ executable, machine.heap.executable? block.owner = some executable ∧
      (executable.code block.kind = some block.id ∨ machine.running.contains block.id = true) := by
  rw [isReclaimable]
  rcases machine.heap.executable? block.owner with _ | executable
  · simp
  · simp [imp_iff_not_or]

theorem Collected.block {id : CodeId} {block : Block} (h : before.Collected after)
    (hblock : after.code.get? id = some block) :
    ∃ origin, before.code.get? id = some origin ∧ block.outline = origin.outline ∧
      before.sweepHeap.2.isReclaimable origin = false := by
  have hkept := h.get?_outline id
  rw [hblock] at hkept
  obtain ⟨origin, horigin, houtline⟩ := Option.map_eq_some_iff.mp hkept.symm
  obtain ⟨hfound, hreclaimable⟩ := Option.filter_eq_some_iff.mp horigin
  exact ⟨origin, hfound, houtline.symm, by simpa using hreclaimable⟩

/-- What is left of the code after a collection. -/
theorem Collected.contains_iff {id : CodeId} (h : before.Collected after) :
    after.code.contains id = true ↔
      ∃ block executable, before.code.get? id = some block ∧
        after.heap.executable? block.owner = some executable ∧
        (executable.code block.kind = some id ∨ before.running.contains id = true) := by
  have hrunning : before.sweepHeap.2.running = before.running :=
    congrArg Setting.running before.sweepHeap_setting
  constructor
  · intro hcontains
    obtain ⟨found, hfound⟩ := CodeTable.contains_iff.mp hcontains
    obtain ⟨block, hblock, _, hkept⟩ := h.block hfound
    obtain ⟨executable, hexecutable, huse⟩ := isReclaimable_eq_false_iff.mp hkept
    rw [← h.heap_eq] at hexecutable
    rw [hrunning, id_of_get? hblock] at huse
    exact ⟨block, executable, hblock, hexecutable, huse⟩
  · rintro ⟨block, executable, hblock, hexecutable, huse⟩
    rw [h.heap_eq] at hexecutable
    rw [← hrunning, ← id_of_get? hblock] at huse
    have hkept := isReclaimable_eq_false_iff.mpr ⟨executable, hexecutable, huse⟩
    rw [CodeTable.contains, ← Option.isSome_map, h.get?_outline, hblock, Option.filter_some, hkept]
    rfl

/-- The check of the links finds nothing where links go to live code and name live cells. -/
theorem verifyLinks_eq_ok (hnumbered : machine.code.Numbered) (hlinked : machine.code.Linked)
    (halive : machine.code.Each (Link.Alive machine.heap.contains)) :
    machine.verifyLinks = .ok () := by
  rw [verifyLinks]
  rcases hfault : machine.fault? with _ | error
  · rfl
  · obtain ⟨site, link, hlink, herror⟩ := exists_of_fault? hnumbered hfault
    have hcells : (link.dependents.find? fun cell => !machine.heap.contains cell) = none := by
      refine List.find?_eq_none.mpr fun cell hcell => ?_
      simp [halive site link hlink cell hcell]
    have hpointers : (link.site.target.pointers.find? fun pointer =>
        !machine.code.contains pointer.block) = none := by
      refine List.find?_eq_none.mpr fun pointer hpointer => ?_
      simp [contains_of_pointer hlinked hlink hpointer]
    rw [linkFault?, hcells, hpointers] at herror
    cases herror

/-- The blocks that are listed for discarding are those that can be discarded. -/
theorem mem_reclaimable_iff {id : CodeId} (hnumbered : machine.code.Numbered) :
    id ∈ (machine.code.blocks.filter machine.isReclaimable).map Block.id ↔
      ∃ block, machine.code.get? id = some block ∧ machine.isReclaimable block = true := by
  simp only [List.mem_map, List.mem_filter]
  constructor
  · rintro ⟨block, ⟨hmem, hgone⟩, rfl⟩
    exact ⟨block, hnumbered.get?_of_mem hmem, hgone⟩
  · rintro ⟨block, hblock, hgone⟩
    exact ⟨block, ⟨mem_of_get? hblock, hgone⟩, id_of_get? hblock⟩

theorem nodup_reclaimable (hnumbered : machine.code.Numbered) :
    ((machine.code.blocks.filter machine.isReclaimable).map Block.id).Nodup :=
  hnumbered.nodup.sublist (List.filter_sublist.map _)

theorem sweepHeap_change (machine : Machine) : Change anyWork machine machine.sweepHeap.2 :=
  .sweep trivial

theorem sweepHeap_settled (hnumbered : machine.code.Numbered) : machine.sweepHeap.2.Settled where
  idle := by
    rw [sweepHeap_heap]
    rfl
  numbered := machine.sweepHeap_change.evolves hnumbered |>.numbered hnumbered

/-- The sweep leaves records that name live cells, and takes routes from them. -/
theorem sweepHeap_links : machine.sweepHeap.2.code.outline = machine.code.outline ∧
    machine.code.Follows Eq machine.sweepHeap.2.code ∧
    machine.sweepHeap.2.code.Each (Link.Alive machine.sweepHeap.2.heap.contains) := by
  obtain ⟨marked, _, _, hheap, hcode⟩ := machine.sweepHeap_marked
  have hlive : marked.reclaim.2.contains = marked.isMarked := funext fun _ => contains_reclaim
  rw [hheap, hcode, hlive]
  refine ⟨outline_visitWeak _ _, (Follows.visitWeak _ _ _).mono And.left, ?_⟩
  intro site link hlink
  rw [link?_visitWeak] at hlink
  obtain ⟨origin, _, rfl⟩ := Option.map_eq_some_iff.mp hlink
  exact origin.alive_visitWeak marked.isMarked

/-- What is left when the code that can be discarded is taken out after the sweep. -/
theorem sweepHeap_outline (hnumbered : machine.code.Numbered) (id : CodeId) :
    (if id ∈ (machine.sweepHeap.2.code.blocks.filter machine.sweepHeap.2.isReclaimable).map
        Block.id then none else (machine.sweepHeap.2.code.get? id).map Block.outline)
      = ((machine.code.get? id).filter fun block =>
          !machine.sweepHeap.2.isReclaimable block).map Block.outline := by
  have hswept := get?_of_outline machine.sweepHeap_links.1 id
  simp only [mem_reclaimable_iff (machine.sweepHeap_settled hnumbered).numbered]
  rcases hblock : machine.code.get? id with _ | block <;> rw [hblock] at hswept
  · rw [hswept]
    exact ite_self none
  · obtain ⟨found, hfound, hout⟩ := Option.map_eq_some_iff.mp hswept
    have hgone : machine.sweepHeap.2.isReclaimable found
        = machine.sweepHeap.2.isReclaimable block := isReclaimable_congr rfl rfl hout
    rcases hreclaim : machine.sweepHeap.2.isReclaimable block <;>
      simp [Option.filter_some, hfound, hgone, hreclaim, hout]

/-- Swept, rid of the code that can be discarded, and pruned: the machine has been collected. -/
theorem Discards.collected {discarded : Machine} (hnumbered : before.code.Numbered)
    (hlinked : before.code.Linked)
    (hdiscards : before.sweepHeap.2.Discards
      ((before.sweepHeap.2.code.blocks.filter before.sweepHeap.2.isReclaimable).map Block.id)
      discarded)
    (hheap : after.heap = discarded.heap) (hsetting : after.setting = discarded.setting)
    (hcode : after.code = discarded.code.pruneIncoming.2) : before.Collected after := by
  obtain ⟨houtline, hfollows, halive⟩ := before.sweepHeap_links
  have hsettled := before.sweepHeap_settled hnumbered
  have hstill : discarded.code.Linked :=
    hdiscards.linked (before.sweepHeap_change.linked hnumbered hlinked)
  have hlinks : ∀ site, after.code.link? site = discarded.code.link? site := by
    intro site
    rw [hcode, link?_pruneIncoming]
  have hpruned : after.code.Numbered := by
    rw [hcode]
    exact (Evolves.pruneIncoming _).numbered hdiscards.settled.numbered
  have hkept : after.code.Linked := by
    rw [hcode]
    exact hstill.pruneIncoming
  have hnamed : after.code.Each (Link.Alive after.heap.contains) := by
    rw [hheap, hdiscards.heap_eq]
    exact (hdiscards.each (Link.stable_alive _) halive).of_link? hlinks
  refine
    { settled := ⟨?_, hpruned⟩
      heap_eq := hheap.trans hdiscards.heap_eq
      setting_eq := hsetting.trans (hdiscards.setting_eq.trans before.sweepHeap_setting)
      get?_outline := fun id => ?_
      linked := hkept
      follows := (hfollows.after_eq hdiscards.follows).after_eq (.of_link? hlinks)
      incoming := ?_
      alive := hnamed
      verified := verifyLinks_eq_ok hpruned hkept hnamed }
  · rw [hheap]
    exact hdiscards.settled.idle
  · have hsame : (after.code.get? id).map Block.outline
        = (discarded.code.get? id).map Block.outline := by
      rw [hcode, get?_pruneIncoming, Option.map_map]
      rfl
    rw [hsame, hdiscards.get?_outline, sweepHeap_outline hnumbered]
  · intro id block hblock site
    rw [hcode] at hblock ⊢
    exact hstill.mem_incoming_iff hblock

end Machine

namespace MachineM

open Machine

variable {machine : Machine}

/-- A collection always finishes: the check of the links at its end passes. -/
theorem exec_collect (hnumbered : machine.code.Numbered) (hlinked : machine.code.Linked) :
    ∃ after, collect.exec machine = (.ok machine.sweepHeap.1, after) ∧
      machine.Collected after := by
  have hsettled := machine.sweepHeap_settled hnumbered
  obtain ⟨discarded, hrun, hdiscards⟩ := forM_jettisonCode_discards _
    (nodup_reclaimable hsettled.numbered) hsettled
    fun _ hid => (mem_reclaimable_iff hsettled.numbered).mp hid
  have hcollected : ∀ event, machine.Collected
      ({ discarded with code := discarded.code.pruneIncoming.2 }.report event) :=
    fun event => hdiscards.collected hnumbered hlinked rfl rfl rfl
  rw [collect]
  simp only [exec_bind, exec_get, exec_modifyGet, hrun, exec_modify, exec_look]
  rw [(hcollected _).verified]
  exact ⟨_, rfl, hcollected _⟩

end MachineM

end InlineCache
