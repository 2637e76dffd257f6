import InlineCache.Proofs.Consistency
import InlineCache.Proofs.Link.Retargeting
import InlineCache.Proofs.Machine.Counters
import InlineCache.Proofs.Realms

/-!
# Replacing and discarding code

Replacing and discarding a block work through its list of incoming sites. The list is complete and
names no site twice, so every site that goes to the block is visited once, whatever led up to it:
sites of the block itself, sites whose link has changed since they were listed, and sites of blocks
that are gone. A visit changes the record of its site only where it goes to the block.
-/

namespace InlineCache

namespace CodeTable

variable {table : CodeTable} {id : CodeId} {site : SiteRef}

theorem goesTo_eq_true_iff : table.goesTo id site = true ↔
    ∃ link, table.link? site = some link ∧ link.targets id = true := by
  rw [goesTo]
  rcases table.link? site with _ | link <;> simp

theorem goesTo_congr {other : CodeTable} (h : other.link? site = table.link? site) :
    other.goesTo id site = table.goesTo id site := by
  rw [goesTo, goesTo, h]

theorem Linked.mem_incoming {block : Block} (h : table.Linked) (hblock : table.get? id = some block)
    (hgoes : table.goesTo id site = true) : site ∈ block.incoming := by
  obtain ⟨link, hlink, htargets⟩ := goesTo_eq_true_iff.mp hgoes
  obtain ⟨route, hroute, rfl⟩ := Link.targets_iff.mp htargets
  obtain ⟨found, hfound, hentry⟩ := h.incoming hlink route hroute
  rw [hblock] at hfound
  rw [Option.some.inj hfound]
  exact hentry.resolve_right not_false

theorem link?_setLink_map {link : Link} (change : Link → Link) (h : table.link? site = some link)
    (elsewhere : SiteRef) : (table.setLink site (change link)).link? elsewhere =
      if elsewhere = site then (table.link? elsewhere).map change else table.link? elsewhere := by
  split
  · rename_i heq
    rw [heq, link?_setLink_self _ h, h]
    rfl
  · rename_i hne
    exact link?_setLink_of_ne _ hne

theorem link?_map_of_none (change : Link → Link) (h : table.link? site = none)
    (elsewhere : SiteRef) : table.link? elsewhere =
      if elsewhere = site then (table.link? elsewhere).map change else table.link? elsewhere := by
  split
  · rename_i heq
    rw [heq, h]
    rfl
  · rfl

end CodeTable

namespace Machine

open CodeTable

variable {machine : Machine} {block : Block} {old : CodeId} {site : SiteRef} {sites : List SiteRef}
  {step : Machine → SiteRef → Machine} {change : Link → Link}

/-! ### Working through sites -/

/-- A visit of a site changes the record of the site, and no other. -/
def Visits (step : Machine → SiteRef → Machine) (change : Link → Link) : Prop :=
  ∀ (machine : Machine) (site elsewhere : SiteRef), (step machine site).code.link? elsewhere =
    if elsewhere = site then (machine.code.link? elsewhere).map change
    else machine.code.link? elsewhere

theorem upgradeSite_visits (old : CodeId) (new : CodePointer) :
    Visits (fun machine site => machine.upgradeSite old site new)
      fun link => (link.retarget old (some new)).2.link := by
  intro machine site elsewhere
  show (machine.upgradeSite old site new).code.link? elsewhere = _
  rw [upgradeSite_code]
  rcases hlink : machine.code.link? site with _ | link <;> dsimp only
  · exact link?_map_of_none _ hlink elsewhere
  · have hset := link?_setLink_map (fun link => (link.retarget old (some new)).2.link) hlink
      elsewhere
    by_cases htargets : link.targets old = true
    · rw [if_pos htargets, link?_update (fun _ => Block.addIncoming_id _ _)
        fun _ => Block.addIncoming_links _ _]
      exact hset
    · rw [Link.retarget_of_not_targets _ (Bool.eq_false_iff.mpr htargets)] at hset
      rw [if_neg htargets]
      exact hset

theorem dropSite_visits (old : CodeId) :
    Visits (fun machine site => machine.dropSite old site)
      fun link => (link.retarget old none).2.link := by
  intro machine site elsewhere
  show (machine.dropSite old site).code.link? elsewhere = _
  rw [dropSite_code_eq]
  rcases hlink : machine.code.link? site with _ | link <;> dsimp only
  · exact link?_map_of_none _ hlink elsewhere
  · exact link?_setLink_map (fun link => (link.retarget old none).2.link) hlink elsewhere

theorem Visits.link?_foldl (h : Visits step change) (hdistinct : sites.Nodup) (machine : Machine)
    (elsewhere : SiteRef) : (sites.foldl step machine).code.link? elsewhere =
      if elsewhere ∈ sites then (machine.code.link? elsewhere).map change
      else machine.code.link? elsewhere := by
  induction sites generalizing machine with
  | nil => rfl
  | cons site rest ih =>
      obtain ⟨hnew, hrest⟩ := List.nodup_cons.mp hdistinct
      rw [List.foldl_cons, ih hrest, h machine site elsewhere]
      by_cases heq : elsewhere = site
      · rw [if_pos heq, heq, if_neg hnew, if_pos (List.mem_cons_self ..)]
      · rw [if_neg heq]
        simp only [List.mem_cons, heq, false_or]

/-- Sites that are still to be visited go where they went. -/
theorem Visits.filter_goesTo (h : Visits step change) (hnew : site ∉ sites) :
    sites.filter ((step machine site).code.goesTo old)
      = sites.filter (machine.code.goesTo old) := by
  refine List.filter_congr fun elsewhere hmem => goesTo_congr ?_
  rw [h machine site elsewhere, if_neg]
  rintro rfl
  exact hnew hmem

/-- A counter that is ticked at the sites that go to a block. -/
theorem Visits.counter_foldl (h : Visits step change) (counter : Machine → Nat)
    (hstep : ∀ machine site, counter (step machine site) =
      if machine.code.goesTo old site then tick64 (counter machine) else counter machine)
    (hdistinct : sites.Nodup) (machine : Machine) (hlimit : counter machine ≤ word64Max) :
    counter (sites.foldl step machine) = addUpTo word64Max (counter machine)
      (sites.filter (machine.code.goesTo old)).length := by
  induction sites generalizing machine with
  | nil => exact (addUpTo_zero hlimit).symm
  | cons site rest ih =>
      obtain ⟨hnew, hrest⟩ := List.nodup_cons.mp hdistinct
      have hcounter := hstep machine site
      rw [List.foldl_cons, List.filter_cons]
      split at hcounter
      · rw [ih hrest _ (by rw [hcounter]; exact addUpTo_le _ _ _), h.filter_goesTo hnew, hcounter,
          if_pos ‹_›, List.length_cons, tick64, addUpTo_addUpTo, Nat.add_comm]
      · rw [ih hrest _ (by rw [hcounter]; exact hlimit), h.filter_goesTo hnew, hcounter,
          if_neg ‹_›]

/-- A record that does not go to the block is the same after a visit, so it does not matter that
sites that are not listed are not visited. -/
theorem Visits.link?_foldl_incoming (h : Visits step change) (old : CodeId)
    (hchange : ∀ link : Link, link.targets old = false → change link = link)
    (hlisted : ∀ site, machine.code.goesTo old site = true → site ∈ sites)
    (hdistinct : sites.Nodup) (elsewhere : SiteRef) :
    (sites.foldl step machine).code.link? elsewhere
      = (machine.code.link? elsewhere).map change := by
  rw [h.link?_foldl hdistinct]
  split
  · rfl
  · rename_i hmem
    rcases hlink : machine.code.link? elsewhere with _ | link
    · rfl
    · rw [Option.map_some, hchange link]
      refine Bool.eq_false_iff.mpr fun htargets => hmem (hlisted elsewhere ?_)
      exact goesTo_eq_true_iff.mpr ⟨link, hlink, htargets⟩

/-! ### Replacing -/

section Replacing

variable {new : CodePointer}

/-- A site that goes to the replaced code is listed at its replacement. -/
theorem upgradeSite_lists (hblock : machine.code.get? new.block = some block)
    (hnew : site ∉ block.incoming) :
    ∃ found, (machine.upgradeSite old site new).code.get? new.block = some found ∧
      found.incoming =
        block.incoming ++ if machine.code.goesTo old site = true then [site] else [] := by
  rw [upgradeSite_code, goesTo]
  rcases machine.code.link? site with _ | link <;> dsimp only
  · exact ⟨block, hblock, (List.append_nil _).symm⟩
  · split
    · obtain ⟨moved, hmoved, hsame⟩ : ∃ after, (machine.code.setLink site
          (link.retarget old (some new)).2.link).get? new.block = some after ∧ _ :=
        get?_setLink_incoming _ hblock
      refine ⟨moved.addIncoming site, ?_, ?_⟩
      · rw [get?_update_self fun _ => Block.addIncoming_id _ _, hmoved, Option.map_some]
      · rw [Block.addIncoming, if_neg (by rwa [hsame]), hsame]
    · rw [List.append_nil]
      exact get?_setLink_incoming link hblock

theorem foldl_upgradeSite_lists (old : CodeId) (new : CodePointer) (hdistinct : sites.Nodup)
    (hblock : machine.code.get? new.block = some block)
    (hnew : ∀ site ∈ sites, site ∉ block.incoming) :
    ∃ found, (sites.foldl (fun machine site => machine.upgradeSite old site new) machine).code.get?
        new.block = some found ∧
      found.incoming = block.incoming ++ sites.filter (machine.code.goesTo old) := by
  induction sites generalizing machine block with
  | nil => exact ⟨block, hblock, (List.append_nil _).symm⟩
  | cons site rest ih =>
      obtain ⟨hsite, hrest⟩ := List.nodup_cons.mp hdistinct
      obtain ⟨hfirst, hothers⟩ := List.forall_mem_cons.mp hnew
      obtain ⟨middle, hmiddle, hlisted⟩ :
          ∃ found, (machine.upgradeSite old site new).code.get? new.block = some found ∧ _ :=
        upgradeSite_lists hblock hfirst
      obtain ⟨found, hfound, hincoming⟩ := ih hrest hmiddle fun elsewhere hmem hknown => by
        rw [hlisted, List.mem_append] at hknown
        refine hknown.elim (hothers elsewhere hmem) fun hadded => hsite ?_
        split at hadded
        · rwa [← List.mem_singleton.mp hadded]
        · cases hadded
      refine ⟨found, hfound, ?_⟩
      rw [hincoming, hlisted, (upgradeSite_visits old new).filter_goesTo hsite, List.filter_cons,
        List.append_assoc]
      split <;> rfl

variable {request : Compilation} {labels : List Locations}

theorem get?_compiled (hnumbered : machine.code.Numbered) :
    (machine.compiled request labels).code.get? machine.nextCode
      = some (machine.assembled request labels) :=
  hnumbered.get?_append_self rfl

theorem compiled_link?_of_some {link : Link} (hnumbered : machine.code.Numbered)
    (hlink : machine.code.link? site = some link) :
    (machine.compiled request labels).code.link? site = some link := by
  obtain ⟨caller, hcaller, hindex⟩ := link?_eq_some_iff.mp hlink
  exact link?_eq_some_iff.mpr ⟨caller, get?_append_of_some hnumbered rfl hcaller, hindex⟩

/-- The sites of the new code go nowhere yet. -/
theorem compiled_goesTo (hnumbered : machine.code.Numbered) (code : CodeId) (site : SiteRef) :
    (machine.compiled request labels).code.goesTo code site = machine.code.goesTo code site := by
  by_cases hcaller : site.caller = machine.nextCode
  · have hnone : machine.code.goesTo code site = false := by
      refine Bool.eq_false_iff.mpr fun hgoes => ?_
      obtain ⟨link, hlink, _⟩ := goesTo_eq_true_iff.mp hgoes
      obtain ⟨caller, hfound, _⟩ := link?_eq_some_iff.mp hlink
      exact nextCode_ne_of_get? hnumbered hfound hcaller.symm
    rw [hnone, Bool.eq_false_iff]
    intro hgoes
    obtain ⟨link, hlink, htargets⟩ := goesTo_eq_true_iff.mp hgoes
    obtain ⟨caller, hfound, hindex⟩ := link?_eq_some_iff.mp hlink
    rw [hcaller, get?_compiled hnumbered] at hfound
    rw [← Option.some.inj hfound] at hindex
    have hfresh := (fresh_of_assemble _ _ _ _ _ link (List.mem_of_getElem? hindex)).2
    obtain ⟨route, hroute, _⟩ := Link.targets_iff.mp htargets
    rw [hfresh] at hroute
    cases hroute
  · refine goesTo_congr ?_
    rw [link?, link?]
    exact congrArg (Option.bind · _) (get?_append_of_ne rfl hcaller)

/-- The machine in which the sites of a replaced block are visited. -/
def readied (machine : Machine) (block : Block) (executable : Executable) (entry : Entry)
    (tier : Tier) (labels : List Locations) : Machine :=
  (machine.compiled (block.replacement executable entry tier) labels).clearIncoming block.id

variable (executable : Executable) (entry : Entry) (tier : Tier) (labels : List Locations)

theorem replaced_eq_foldl (before : Machine) (block : Block) :
    before.replaced block executable entry tier labels =
      block.incoming.foldl (fun machine site =>
        machine.upgradeSite block.id site ⟨before.nextCode, entry⟩)
        (before.readied block executable entry tier labels) := by
  rw [replaced, upgradeSites_eq_foldl]
  rfl

theorem readied_link? (site : SiteRef) :
    (machine.readied block executable entry tier labels).code.link? site =
      (machine.compiled (block.replacement executable entry tier) labels).code.link? site :=
  link?_update (fun _ => rfl) fun _ => rfl

theorem readied_goesTo (hnumbered : machine.code.Numbered) (code : CodeId) (site : SiteRef) :
    (machine.readied block executable entry tier labels).code.goesTo code site
      = machine.code.goesTo code site :=
  (goesTo_congr (readied_link? executable entry tier labels site)).trans
    (compiled_goesTo hnumbered code site)

/-- Every record that was there is retargeted, whether its site is listed or not. -/
theorem replaced_link? {link : Link} (hnumbered : machine.code.Numbered)
    (hlinked : machine.code.Linked) (hblock : machine.code.get? block.id = some block)
    (hdistinct : block.incoming.Nodup) (hlink : machine.code.link? site = some link) :
    (machine.replaced block executable entry tier labels).code.link? site =
      some (link.retarget block.id (some ⟨machine.nextCode, entry⟩)).2.link := by
  rw [replaced_eq_foldl, (upgradeSite_visits _ _).link?_foldl_incoming block.id ?_ ?_ hdistinct,
    readied_link?, compiled_link?_of_some hnumbered hlink, Option.map_some]
  · intro link htargets
    rw [Link.retarget_of_not_targets _ htargets]
  · intro elsewhere hgoes
    rw [readied_goesTo executable entry tier labels hnumbered] at hgoes
    exact hlinked.mem_incoming hblock hgoes

theorem readied_filter_goesTo (hnumbered : machine.code.Numbered) (sites : List SiteRef) :
    sites.filter ((machine.readied block executable entry tier labels).code.goesTo block.id)
      = sites.filter (machine.code.goesTo block.id) :=
  List.filter_congr fun site _ => readied_goesTo executable entry tier labels hnumbered _ site

/-- The new block lists the sites that went to the replaced one. -/
theorem replaced_incoming_new (hnumbered : machine.code.Numbered)
    (hblock : machine.code.get? block.id = some block) (hdistinct : block.incoming.Nodup) :
    ∃ made, (machine.replaced block executable entry tier labels).code.get? machine.nextCode
        = some made ∧
      made.incoming = block.incoming.filter (machine.code.goesTo block.id) := by
  have hmade : (machine.readied block executable entry tier labels).code.get? machine.nextCode
      = some (machine.assembled (block.replacement executable entry tier) labels) := by
    refine Eq.trans (get?_update_of_ne ?_ (nextCode_ne_of_get? hnumbered hblock))
      (get?_compiled hnumbered)
    exact fun _ => rfl
  rw [replaced_eq_foldl, ← readied_filter_goesTo executable entry tier labels hnumbered]
  exact foldl_upgradeSite_lists block.id ⟨machine.nextCode, entry⟩ hdistinct hmade
    fun _ _ => List.not_mem_nil

theorem replaced_upgrades (hnumbered : machine.code.Numbered) (hdistinct : block.incoming.Nodup)
    (hlimit : machine.stats.upgrades ≤ word64Max) :
    (machine.replaced block executable entry tier labels).stats.upgrades =
      addUpTo word64Max machine.stats.upgrades
        (block.incoming.filter (machine.code.goesTo block.id)).length := by
  rw [replaced_eq_foldl, ← readied_filter_goesTo executable entry tier labels hnumbered]
  refine (upgradeSite_visits _ _).counter_foldl (fun machine => machine.stats.upgrades)
    (fun before site => ?_) hdistinct _ hlimit
  show (before.upgradeSite block.id site _).stats.upgrades = _
  rw [upgradeSite_stats]
  split <;> rfl

end Replacing

/-! ### Discarding -/

/-- The machine once the sites of a block that is to be discarded have been visited. -/
def dropped (machine : Machine) (block : Block) : Machine :=
  block.incoming.foldl (fun machine site => machine.dropSite block.id site)
    (machine.clearIncoming block.id)

theorem dropSite_contains (machine : Machine) (old : CodeId) (site : SiteRef) (id : CodeId) :
    (machine.dropSite old site).code.contains id = machine.code.contains id := by
  rw [dropSite_code_eq]
  rcases machine.code.link? site with _ | link
  · rfl
  · exact contains_update fun _ => rfl

theorem dropped_contains (machine : Machine) (block : Block) (id : CodeId) :
    (machine.dropped block).code.contains id = machine.code.contains id := by
  have hfold : ∀ (sites : List SiteRef) (machine : Machine), (sites.foldl (fun machine site =>
      machine.dropSite block.id site) machine).code.contains id = machine.code.contains id := by
    intro sites
    induction sites with
    | nil => exact fun _ => rfl
    | cons site rest ih => exact fun machine => (ih _).trans (dropSite_contains machine _ site id)
  exact (hfold _ _).trans (contains_update fun _ => rfl)

theorem get?_jettison_of_ne {id : CodeId} (hnumbered : machine.code.Numbered)
    (hne : id ≠ block.id) :
    (machine.jettison block).code.get? id = (machine.dropped block).code.get? id := by
  have hdropped : (machine.dropped block).code.Numbered :=
    ((clearIncoming_evolves machine block.id).trans (foldl_evolves _
      (fun machine site => dropSite_evolves machine block.id site) block.incoming)).numbered
        hnumbered
  show (CodeTable.remove (((machine.dropped block).revertLinks block.id).releaseCode block).code
    block.id).get? id = _
  rw [get?_remove_of_ne hne, releaseCode_code, revertLinks_code _ _ hdropped,
    get?_update_of_ne ?_ hne]
  exact fun _ => rfl

/-- Every record of another block is retargeted, whether its site is listed or not. -/
theorem jettison_link? (hnumbered : machine.code.Numbered) (hlinked : machine.code.Linked)
    (hblock : machine.code.get? block.id = some block) (hdistinct : block.incoming.Nodup)
    (hne : site.caller ≠ block.id) : (machine.jettison block).code.link? site =
      (machine.code.link? site).map fun link => (link.retarget block.id none).2.link := by
  have hcleared : ∀ elsewhere, (machine.clearIncoming block.id).code.link? elsewhere
      = machine.code.link? elsewhere :=
    fun elsewhere => link?_update (fun _ => rfl) fun _ => rfl
  rw [link?, get?_jettison_of_ne hnumbered hne, ← link?, dropped,
    (dropSite_visits _).link?_foldl_incoming block.id ?_ ?_ hdistinct, hcleared]
  · intro link htargets
    rw [Link.retarget_of_not_targets _ htargets]
  · intro elsewhere hgoes
    rw [goesTo_congr (hcleared elsewhere)] at hgoes
    exact hlinked.mem_incoming hblock hgoes

theorem jettison_jettisonUnlinks (hdistinct : block.incoming.Nodup)
    (hlimit : machine.stats.jettisonUnlinks ≤ word64Max) :
    (machine.jettison block).stats.jettisonUnlinks =
      addUpTo word64Max machine.stats.jettisonUnlinks
        (block.incoming.filter (machine.code.goesTo block.id)).length := by
  have hcleared : block.incoming.filter ((machine.clearIncoming block.id).code.goesTo block.id)
      = block.incoming.filter (machine.code.goesTo block.id) :=
    List.filter_congr fun site _ => goesTo_congr (link?_update (fun _ => rfl) fun _ => rfl)
  rw [jettison_stats, ← hcleared]
  refine (dropSite_visits _).counter_foldl (fun machine => machine.stats.jettisonUnlinks)
    (fun before site => ?_) hdistinct _ hlimit
  show (before.dropSite block.id site).stats.jettisonUnlinks = _
  rw [dropSite_stats]
  split <;> rfl

end Machine

namespace MachineM

theorem exec_jettisonCode_of_none {machine : Machine} {id : CodeId}
    (hnone : machine.code.get? id = none) :
    (jettisonCode id).exec machine = (.error (.unknownCode id), machine) := by
  rw [jettisonCode, exec_bind, MachineM.block, exec_look, Machine.block, hnone]

end MachineM

namespace Execution

open Machine MachineM CodeTable

variable {config : Config} {execution : Execution}

/-- The sites that a block lists and that go to it are the sites that go to it. -/
theorem Kept.mem_filter_incoming {id : CodeId} {block : Block} (h : execution.Kept)
    (hblock : execution.machine.code.get? id = some block) (site : SiteRef) :
    site ∈ block.incoming.filter (execution.machine.code.goesTo id) ↔
      execution.machine.code.goesTo id site = true :=
  ⟨fun hmem => (List.mem_filter.mp hmem).2,
    fun hgoes => List.mem_filter.mpr ⟨h.linked.mem_incoming hblock hgoes, hgoes⟩⟩

/-- The next number of a machine has not been given at any time before. -/
theorem Reachable.nextCode_unused {earlier : Execution} {rest : List Request}
    (h : earlier.Reachable config) (hrun : earlier.run rest = execution) :
    earlier.machine.code.contains execution.machine.nextCode = false := by
  have hnumbered := h.kept.numbered
  have hle := (run_evolves earlier rest hnumbered).lastNumber_le
  rw [hrun] at hle
  refine Bool.eq_false_iff.mpr fun hcontains => ?_
  obtain ⟨block, hblock⟩ := contains_iff.mp hcontains
  have hgiven := hnumbered.bounded block (mem_of_get? hblock)
  rw [id_of_get? hblock] at hgiven
  exact Nat.not_succ_le_self _ (Nat.le_trans hgiven hle)

/-- In every state that a new machine can get into, code can be replaced if the block, its
executable and labels for its sites are there; otherwise nothing changes. The new block has a number
of its own and is the current code of the executable. Every site that went to the old block goes to
the new one in the way it went to the old, every other site stays as it is, the new block lists the
sites that moved, and each of them is counted once. -/
theorem replacing_is_complete_and_local (hreachable : execution.Reachable config) (old : CodeId)
    (entry : Entry) (tier : Tier) :
    let before := execution.machine
    let outcome := (replaceCode old entry tier).exec before
    let after := outcome.2
    ((∃ new, outcome.1 = .ok new) ↔ ∃ block executable labels,
      before.code.get? old = some block ∧ before.heap.executable? block.owner = some executable ∧
        Locations.forBlock executable.sites.length = .ok labels) ∧
    (∀ error, outcome.1 = .error error → after = before) ∧
    ∀ new, outcome.1 = .ok new → ∃ block made kept,
      before.code.get? old = some block ∧ after.code.get? new = some made ∧
      after.code.get? old = some kept ∧
      (∀ (earlier : Execution) (rest : List Request), earlier.Reachable config →
        earlier.run rest = execution → earlier.machine.code.contains new = false) ∧
      after.currentCode? block.owner block.kind = some new ∧
      (∀ site link, after.code.link? site = some link → link.targets old = false) ∧
      (∀ site link, before.code.link? site = some link →
        ∃ found, after.code.link? site = some found ∧ link.Redirected old ⟨new, entry⟩ found) ∧
      made.incoming.Nodup ∧
      (∀ site, site ∈ made.incoming ↔ before.code.goesTo old site = true) ∧
      kept.incoming = [] ∧
      after.stats.upgrades = min (before.stats.upgrades + made.incoming.length) word64Max := by
  intro before outcome after
  have hkept := hreachable.kept
  have hcases := replaceCode_cases before old entry tier
  change Replacing before old entry tier (outcome.1, after) at hcases
  generalize outcome.1 = result, after = final at hcases
  cases hcases with
  | failed _ hmissing =>
      refine ⟨iff_of_false ?_ ?_, fun _ _ => rfl, fun _ hok => (by cases hok)⟩
      · rintro ⟨_, hok⟩
        cases hok
      · rintro ⟨block, executable, labels, hblock, hexecutable, hlabels⟩
        exact hmissing block executable labels hblock hexecutable hlabels
  | @replaced block executable labels event hblock hexecutable hlabels =>
      refine ⟨iff_of_true ⟨_, rfl⟩ ⟨block, executable, labels, hblock, hexecutable, hlabels⟩,
        fun _ herror => (by cases herror), fun new hok => ?_⟩
      obtain rfl := Except.ok.inj hok
      obtain rfl := id_of_get? hblock
      have hdistinct := (hkept.wellFormed block (mem_of_get? hblock)).distinct
      obtain ⟨made, hmade, hlists⟩ := replaced_incoming_new executable entry tier labels
        hkept.numbered hblock hdistinct
      obtain ⟨kept, hfound, hempty⟩ := replaced_incoming_old executable entry tier labels
        hkept.numbered hblock
      refine ⟨block, made, kept, hblock, hmade, hfound, fun earlier rest hearlier hrun =>
        hearlier.nextCode_unused hrun, ?_, fun site link hlink => ?_, fun site link hlink => ?_, ?_,
        fun site => ?_, hempty, ?_⟩
      · show (before.replaced block executable entry tier labels).currentCode? _ _ = _
        rw [currentCode?_replaced, if_pos ⟨rfl, rfl⟩, hexecutable]
        rfl
      · refine Bool.eq_false_iff.mpr fun htargets => ?_
        obtain ⟨route, hroute, heq⟩ := Link.targets_iff.mp htargets
        exact replaced_leaves_none executable entry tier labels hkept.numbered hblock hkept.linked
          hlink hroute heq
      · exact ⟨_, replaced_link? executable entry tier labels hkept.numbered hkept.linked hblock
          hdistinct hlink, (hkept.linked.agrees hlink).redirected _ _⟩
      · rw [hlists]
        exact hdistinct.filter _
      · rw [hlists]
        exact hkept.mem_filter_incoming hblock site
      · rw [hlists]
        exact replaced_upgrades executable entry tier labels hkept.numbered hdistinct
          hreachable.within.upgrades_le

/-- A site calls two functions in turn, and gets a stub with a case for each. -/
def callsTwoFunctions : List Request :=
  [.order (.allocateExecutable { name := "f", entry := ⟨0⟩, sites := [⟨.call, 0⟩] }),
   .order (.createClosure ⟨0, 0⟩ {} []),
   .order (.allocateExecutable { name := "g", entry := ⟨1⟩, sites := [] }),
   .order (.createClosure ⟨2, 0⟩ {} []),
   .order (.allocateExecutable { name := "h", entry := ⟨2⟩, sites := [] }),
   .order (.createClosure ⟨4, 0⟩ {} []),
   .hostCall (.cell ⟨1, 0⟩) .undefined [] .call,
   .siteCall ⟨⟨⟨1⟩, 0⟩, .cell ⟨3, 0⟩, .undefined, [], false⟩,
   .finish (.ok .undefined),
   .siteCall ⟨⟨⟨1⟩, 0⟩, .cell ⟨5, 0⟩, .undefined, [], false⟩]

theorem replacing_one_of_two_functions :
    ∃ (execution : Execution) (made : Block), execution.Reachable {} ∧
      let after := ((replaceCode ⟨2⟩ ⟨3⟩ .optimized).exec execution.machine).2
      execution.machine.code.goesTo ⟨2⟩ ⟨⟨1⟩, 0⟩ = true ∧
      execution.machine.code.goesTo ⟨3⟩ ⟨⟨1⟩, 0⟩ = true ∧
      ((replaceCode ⟨2⟩ ⟨3⟩ .optimized).exec execution.machine).1 = .ok ⟨4⟩ ∧
      after.code.goesTo ⟨2⟩ ⟨⟨1⟩, 0⟩ = false ∧ after.code.get? ⟨4⟩ = some made ∧
      ⟨⟨1⟩, 0⟩ ∈ made.incoming ∧ after.currentCode? ⟨2, 0⟩ .call = some ⟨4⟩ := by
  have hreachable : Execution.Reachable {} ((Execution.mk
      { config := {}, heap := { settings := ({} : Config).heapSettings } } []).run
        callsTwoFunctions) :=
    ⟨_, callsTwoFunctions, rfl, rfl⟩
  generalize hexecution : (Execution.mk _ []).run callsTwoFunctions = execution at hreachable
  have hgoes : execution.machine.code.goesTo ⟨2⟩ ⟨⟨1⟩, 0⟩ = true := by
    rw [← hexecution]
    decide +kernel
  have hother : execution.machine.code.goesTo ⟨3⟩ ⟨⟨1⟩, 0⟩ = true := by
    rw [← hexecution]
    decide +kernel
  have hok : ((replaceCode ⟨2⟩ ⟨3⟩ .optimized).exec execution.machine).1 = .ok ⟨4⟩ := by
    have hanswer : ((replaceCode ⟨2⟩ ⟨3⟩ .optimized).exec execution.machine).1.toOption
        = some ⟨4⟩ := by
      rw [← hexecution]
      decide +kernel
    rcases hresult : ((replaceCode ⟨2⟩ ⟨3⟩ .optimized).exec execution.machine).1 with error | new
    · rw [hresult] at hanswer
      cases hanswer
    · rw [hresult] at hanswer
      rw [Option.some.inj hanswer]
  have howner : (execution.machine.code.get? ⟨2⟩).map (fun block => (block.owner, block.kind))
      = some (⟨2, 0⟩, .call) := by
    rw [← hexecution]
    decide +kernel
  obtain ⟨_, _, hreplaced⟩ := replacing_is_complete_and_local hreachable ⟨2⟩ ⟨3⟩ .optimized
  obtain ⟨block, made, kept, hblock, hmade, _, _, hcurrent, hnone, _, _, hlists, _⟩ :=
    hreplaced ⟨4⟩ hok
  rw [hblock, Option.map_some] at howner
  obtain ⟨hcell, hkind⟩ := Prod.mk.inj (Option.some.inj howner)
  refine ⟨execution, made, hreachable, hgoes, hother, hok, ?_, hmade, (hlists _).mpr hgoes, ?_⟩
  · refine Bool.eq_false_iff.mpr fun hstill => ?_
    obtain ⟨link, hlink, htargets⟩ := goesTo_eq_true_iff.mp hstill
    rw [hnone _ link hlink] at htargets
    cases htargets
  · rw [← hcell, ← hkind]
    exact hcurrent

/-- In every state that a new machine can get into, a block that is there can be discarded, and one
that is not there cannot, which changes nothing. A discarded block is gone, with its place as the
current code of its executable if it had it. No site goes there any more: what went there is taken
away from the sites of the other blocks, which else stay as they are. Each site that went there, at
the block itself too, is counted once. -/
theorem discarding_is_complete_and_local (hreachable : execution.Reachable config) (id : CodeId) :
    let before := execution.machine
    let outcome := (jettisonCode id).exec before
    let after := outcome.2
    (before.code.get? id = none → outcome.1 = .error (.unknownCode id) ∧ after = before) ∧
    ∀ block, before.code.get? id = some block →
      outcome.1 = .ok () ∧ after.code.get? id = none ∧
      (∀ other, other ≠ id → after.code.contains other = before.code.contains other) ∧
      (∀ site link, after.code.link? site = some link → link.targets id = false) ∧
      (∀ site link, before.code.link? site = some link → site.caller ≠ id →
        ∃ found, after.code.link? site = some found ∧ link.Deprived id found) ∧
      (∃ sites : List SiteRef, sites.Nodup ∧
        (∀ site, site ∈ sites ↔ before.code.goesTo id site = true) ∧
        after.stats.jettisonUnlinks
          = min (before.stats.jettisonUnlinks + sites.length) word64Max) ∧
      ∀ cell kind, after.currentCode? cell kind =
        if before.currentCode? cell kind = some id ∧ cell = block.owner ∧ kind = block.kind
        then none else before.currentCode? cell kind := by
  intro before outcome after
  have hkept := hreachable.kept
  refine ⟨fun hnone => ?_, fun block hblock => ?_⟩
  · have hrun : outcome = (.error (.unknownCode id), before) := exec_jettisonCode_of_none hnone
    exact ⟨congrArg Prod.fst hrun, congrArg Prod.snd hrun⟩
  · obtain rfl := id_of_get? hblock
    have hrun : outcome = (.ok (), before.jettison block) := exec_jettisonCode hblock
    have hafter : after = before.jettison block := congrArg Prod.snd hrun
    have hdistinct := (hkept.wellFormed block (mem_of_get? hblock)).distinct
    have hgone : (before.jettison block).code.get? block.id = none := get?_remove_self
    have hlinked := jettison_linked hkept.numbered hblock hkept.linked
    rw [hafter]
    refine ⟨congrArg Prod.fst hrun, hgone, fun other hne => ?_, fun site link hlink => ?_,
      fun site link hlink hne => ?_, ⟨_, hdistinct.filter _, hkept.mem_filter_incoming hblock,
        jettison_jettisonUnlinks hdistinct hreachable.within.jettisonUnlinks_le⟩,
      currentCode?_jettison block⟩
    · rw [contains, get?_jettison_of_ne hkept.numbered hne, ← contains, dropped_contains]
    · refine Bool.eq_false_iff.mpr fun htargets => ?_
      obtain ⟨route, hroute, heq⟩ := Link.targets_iff.mp htargets
      obtain ⟨target, htarget, _⟩ := hlinked.incoming hlink route hroute
      rw [heq, hgone] at htarget
      cases htarget
    · rw [jettison_link? hkept.numbered hkept.linked hblock hdistinct hne, hlink, Option.map_some]
      exact ⟨_, rfl, link.deprived block.id⟩

theorem discarding_one_of_two_functions :
    ∃ (execution : Execution) (link found : Link), execution.Reachable {} ∧
      let outcome := (jettisonCode ⟨2⟩).exec execution.machine
      execution.machine.code.link? ⟨⟨1⟩, 0⟩ = some link ∧ link.targets ⟨2⟩ = true ∧
      outcome.1 = .ok () ∧ outcome.2.code.get? ⟨2⟩ = none ∧
      outcome.2.code.link? ⟨⟨1⟩, 0⟩ = some found ∧ link.Deprived ⟨2⟩ found ∧
      found.mode = .polymorphic := by
  have hreachable : Execution.Reachable {} ((Execution.mk
      { config := {}, heap := { settings := ({} : Config).heapSettings } } []).run
        callsTwoFunctions) :=
    ⟨_, callsTwoFunctions, rfl, rfl⟩
  generalize hexecution : (Execution.mk _ []).run callsTwoFunctions = execution at hreachable
  have hgoes : (execution.machine.code.link? ⟨⟨1⟩, 0⟩).any
      (fun link => link.targets ⟨2⟩) = true := by
    rw [← hexecution]
    decide +kernel
  have hlive : (execution.machine.code.get? ⟨2⟩).isSome = true := by
    rw [← hexecution]
    decide +kernel
  have hmode : (((jettisonCode ⟨2⟩).exec execution.machine).2.code.link? ⟨⟨1⟩, 0⟩).map Link.mode
      = some .polymorphic := by
    rw [← hexecution]
    decide +kernel
  rw [Option.any_eq_true] at hgoes
  obtain ⟨link, hlink, htargets⟩ := hgoes
  obtain ⟨block, hblock⟩ := Option.isSome_iff_exists.mp hlive
  obtain ⟨hok, hgone, _, _, hsites, _⟩ :=
    (discarding_is_complete_and_local hreachable ⟨2⟩).2 block hblock
  obtain ⟨found, hfound, hdeprived⟩ := hsites _ link hlink (by decide)
  rw [hfound, Option.map_some] at hmode
  exact ⟨execution, link, found, hreachable, hlink, htargets, hok, hgone, hfound, hdeprived,
    Option.some.inj hmode⟩

end Execution

end InlineCache
