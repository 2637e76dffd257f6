import InlineCache.Proofs.Code.Table
import Mathlib.Data.List.Nodup
import Mathlib.Data.List.Perm.Basic

/-!
# The order in which blocks are visited

A table of code may hand out its blocks in any order. Two walks over all blocks change what they
walk over: the collector's visit of the link records, which also counts, and the pruning of the
lists of incoming sites, which looks at the records of other blocks and works in two passes, one
that finds the stale entries and one that takes them out. Neither depends on the order. A visit
changes only the block that it is at, and counting commutes, also at the limit of a counter. Pruning
reads only link records, which it does not change.
-/

namespace InlineCache

theorem addUpTo_right_comm (limit counter first second : Nat) :
    addUpTo limit (addUpTo limit counter first) second
      = addUpTo limit (addUpTo limit counter second) first := by
  simp only [addUpTo]
  omega

/-- Take a site off the list of a block, wherever it stands there. -/
def Block.strike (block : Block) (site : SiteRef) : Block :=
  { block with incoming := block.incoming.filter (· != site) }

namespace CodeTable

/-! ### The walks -/

/-- The numbers of the blocks. -/
def ids (table : CodeTable) : List CodeId := table.blocks.map Block.id

/-- Visit the link records of the blocks in the given order. -/
def visitWeakIn (table : CodeTable) (isLive : Cell → Bool) :
    List CodeId → Stats → CodeTable × List Effect × Stats
  | [], stats => (table, [], stats)
  | id :: rest, stats =>
    match table.get? id with
    | none => table.visitWeakIn isLive rest stats
    | some block =>
      let (links, here, stats) := visitLinks isLive block.links stats
      let (visited, there, stats) :=
        (table.update id fun block => { block with links }).visitWeakIn isLive rest stats
      (visited, here ++ there, stats)

/-- The stale entries of the lists of incoming sites, each with the block that it is listed at, as a
walk in the given order finds them. -/
def staleIn (table : CodeTable) (order : List CodeId) : List (CodeId × SiteRef) :=
  order.flatMap fun id =>
    match table.get? id with
    | none => []
    | some block => (block.incoming.filter fun site => !table.goesTo id site).map (id, ·)

def strike (table : CodeTable) (entry : CodeId × SiteRef) : CodeTable :=
  table.update entry.1 fun block => block.strike entry.2

/-- Find the stale entries in the given order, then strike them one after the other. -/
def pruneIncomingIn (table : CodeTable) (order : List CodeId) : Nat × CodeTable :=
  ((table.staleIn order).length, (table.staleIn order).foldl strike table)

variable {table : CodeTable} {isLive : Cell → Bool} {stats : Stats}

/-! ### Counting commutes -/

theorem visitLink_stats_comm (isLive : Cell → Bool) (first second : Link) (stats : Stats) :
    (visitLink isLive second (visitLink isLive first stats).2).2
      = (visitLink isLive first (visitLink isLive second stats).2).2 := by
  unfold visitLink
  rcases first.visitWeak isLive with ⟨_ | _ | lost, edit⟩ <;>
    rcases second.visitWeak isLive with ⟨_ | _ | more, other⟩ <;> dsimp only
  rw [addUpTo_right_comm]

theorem visitLinks_stats (isLive : Cell → Bool) (links : List Link) (stats : Stats) :
    (visitLinks isLive links stats).2.2
      = links.foldl (fun stats link => (visitLink isLive link stats).2) stats := by
  induction links generalizing stats with
  | nil => rfl
  | cons link rest ih => exact ih _

theorem visitBlocks_stats (isLive : Cell → Bool) (blocks : List Block) (stats : Stats) :
    (visitBlocks isLive blocks stats).2.2
      = (blocks.flatMap Block.links).foldl (fun stats link => (visitLink isLive link stats).2)
        stats := by
  induction blocks generalizing stats with
  | nil => rfl
  | cons block rest ih =>
      rw [List.flatMap_cons, List.foldl_append, ← visitLinks_stats isLive block.links stats]
      exact ih _

theorem visitBlocks_stats_perm {first second : List Block} (h : first.Perm second)
    (isLive : Cell → Bool) (stats : Stats) :
    (visitBlocks isLive first stats).2.2 = (visitBlocks isLive second stats).2.2 := by
  rw [visitBlocks_stats, visitBlocks_stats]
  exact (h.flatMap_right _).foldl_eq'
    (fun link _ other _ stats => visitLink_stats_comm isLive link other stats) stats

/-- What the visit of a record reports does not depend on what was counted before. -/
theorem visitLink_effects (isLive : Cell → Bool) (link : Link) (stats other : Stats) :
    (visitLink isLive link stats).1 = (visitLink isLive link other).1 := by
  rw [visitLink, visitLink]
  rcases link.visitWeak isLive with ⟨_ | _ | lost, edit⟩ <;> rfl

theorem visitLinks_effects (isLive : Cell → Bool) (links : List Link) (stats : Stats) :
    (visitLinks isLive links stats).2.1
      = links.flatMap fun link => (visitLink isLive link {}).1.effects := by
  induction links generalizing stats with
  | nil => rfl
  | cons link rest ih =>
      rw [List.flatMap_cons, ← ih (visitLink isLive link stats).2,
        visitLink_effects isLive link {} stats]
      rfl

theorem visitBlocks_effects (isLive : Cell → Bool) (blocks : List Block) (stats : Stats) :
    (visitBlocks isLive blocks stats).2.1
      = (blocks.flatMap Block.links).flatMap fun link => (visitLink isLive link {}).1.effects := by
  induction blocks generalizing stats with
  | nil => rfl
  | cons block rest ih =>
      rw [List.flatMap_cons, List.flatMap_append, ← ih (visitLinks isLive block.links stats).2.2,
        ← visitLinks_effects isLive block.links stats]
      rfl

theorem visitBlocks_effects_perm {first second : List Block} (h : first.Perm second)
    (isLive : Cell → Bool) (stats : Stats) :
    (visitBlocks isLive first stats).2.1.Perm (visitBlocks isLive second stats).2.1 := by
  rw [visitBlocks_effects, visitBlocks_effects]
  exact (h.flatMap_right _).flatMap_right _

/-! ### Blocks in some order -/

variable {order : List CodeId} {block : Block} {id : CodeId}

/-- The blocks that a walk comes to are those of the table. -/
theorem filterMap_get?_perm (hkeys : table.ids.Nodup) (horder : order.Perm table.ids) :
    (order.filterMap table.get?).Perm table.blocks := by
  refine (horder.filterMap table.get?).trans (.of_eq ?_)
  rw [ids, List.filterMap_map]
  exact (List.filterMap_congr fun block hmem => get?_of_nodup hkeys hmem).trans List.filterMap_some

theorem ids_update {change : Block → Block} (hid : ∀ block, (change block).id = block.id) :
    (table.update id change).ids = table.ids := by
  rw [ids, ids, update, List.map_map]
  refine List.map_congr_left fun block _ => ?_
  dsimp only [Function.comp]
  split
  · exact hid block
  · rfl

theorem update_visited (hkeys : table.ids.Nodup) {found : Block}
    (hfound : table.get? id = some found) (stats : Stats) :
    (table.update id fun block => { block with links := (visitLinks isLive found.links stats).1 })
      = table.update id fun block => block.visited isLive := by
  rw [update, update]
  congr 1
  refine List.map_congr_left fun block hmem => ?_
  split
  · rename_i hid
    have hsame := get?_of_nodup hkeys hmem
    rw [hid, hfound] at hsame
    rw [Option.some.inj hsame, visitLinks_eq_map]
    rfl
  · rfl

end CodeTable

/-- The block after a walk, which may not have come to it. -/
def Block.visitedIn (block : Block) (isLive : Cell → Bool) (order : List CodeId) : Block :=
  if block.id ∈ order then block.visited isLive else block

theorem Block.visitedIn_cons (block : Block) (isLive : Cell → Bool) {id : CodeId}
    {rest : List CodeId} (hfresh : id ∉ rest) : block.visitedIn isLive (id :: rest)
      = (if block.id = id then block.visited isLive else block).visitedIn isLive rest := by
  split
  · rename_i hid
    have hlater : (block.visited isLive).id ∉ rest := fun hmem => hfresh (hid ▸ hmem)
    rw [visitedIn, if_pos (hid ▸ List.mem_cons_self), visitedIn, if_neg hlater]
  · rename_i hid
    simp only [visitedIn, List.mem_cons, hid, false_or]

namespace CodeTable

variable {table : CodeTable} {isLive : Cell → Bool} {order : List CodeId}

theorem visitWeakIn_eq (hkeys : table.ids.Nodup) (horder : order.Nodup) (stats : Stats) :
    table.visitWeakIn isLive order stats
      = ({ table with blocks := table.blocks.map fun block => block.visitedIn isLive order },
        (visitBlocks isLive (order.filterMap table.get?) stats).2) := by
  induction order generalizing table stats with
  | nil => simp [visitWeakIn, visitBlocks, Block.visitedIn]
  | cons id rest ih =>
      obtain ⟨hfresh, hrest⟩ := List.nodup_cons.mp horder
      rw [visitWeakIn, List.map_congr_left fun block _ => block.visitedIn_cons isLive hfresh]
      rcases hfound : table.get? id with _ | found <;> dsimp only
      · rw [ih hkeys hrest, List.filterMap_cons_none hfound]
        congr 2
        refine List.map_congr_left fun block hmem => ?_
        rw [if_neg]
        rintro rfl
        rw [get?_of_nodup hkeys hmem] at hfound
        cases hfound
      · have hids : (table.update id fun block => block.visited isLive).ids = table.ids :=
          ids_update fun _ => rfl
        have hgets : rest.filterMap (table.update id fun block => block.visited isLive).get?
            = rest.filterMap table.get? :=
          List.filterMap_congr fun other hmem =>
            get?_update_of_ne (fun _ => rfl) (ne_of_mem_of_not_mem hmem hfresh)
        rw [update_visited hkeys hfound, ih (hids ▸ hkeys) hrest, hgets,
          List.filterMap_cons_some hfound, visitBlocks]
        refine Prod.ext ?_ rfl
        show CodeTable.mk _ _ = CodeTable.mk _ _
        rw [update, List.map_map]
        rfl

end CodeTable

/-! ### Striking entries -/

/-- The block without the entries that are named for it. -/
def Block.struck (block : Block) (entries : List (CodeId × SiteRef)) : Block :=
  { block with incoming := block.incoming.filter fun site => (block.id, site) ∉ entries }

theorem Block.struck_cons (block : Block) (entry : CodeId × SiteRef)
    (rest : List (CodeId × SiteRef)) : block.struck (entry :: rest)
      = (if block.id = entry.1 then block.strike entry.2 else block).struck rest := by
  obtain ⟨id, site⟩ := entry
  split
  · rename_i hid
    rw [struck, struck, strike, List.filter_filter]
    congr 2
    funext other
    rw [Bool.eq_iff_iff]
    simp [hid, and_comm]
  · rename_i hid
    rw [struck, struck]
    congr 2
    funext other
    simp [hid]

namespace CodeTable

variable {table : CodeTable} {order : List CodeId} {block : Block} {site : SiteRef}

/-- The second pass leaves the entries that it does not name. -/
theorem foldl_strike (table : CodeTable) (entries : List (CodeId × SiteRef)) :
    entries.foldl strike table
      = { table with blocks := table.blocks.map fun block => block.struck entries } := by
  induction entries generalizing table with
  | nil => simp [Block.struck]
  | cons entry rest ih =>
      rw [List.foldl_cons, ih, strike, update]
      dsimp only
      rw [List.map_map]
      congr 1
      exact List.map_congr_left fun block _ => (block.struck_cons entry rest).symm

/-- The stale entries of one block. -/
def staleAt (table : CodeTable) (block : Block) : List (CodeId × SiteRef) :=
  (block.incoming.filter fun site => !table.goesTo block.id site).map (block.id, ·)

theorem staleIn_eq (table : CodeTable) (order : List CodeId) :
    table.staleIn order = (order.filterMap table.get?).flatMap table.staleAt := by
  induction order with
  | nil => rfl
  | cons id rest ih =>
      rw [staleIn, List.flatMap_cons, ← staleIn, ih]
      rcases hfound : table.get? id with _ | found <;> dsimp only
      · rw [List.filterMap_cons_none hfound, List.nil_append]
      · rw [List.filterMap_cons_some hfound, List.flatMap_cons, staleAt, id_of_get? hfound]

theorem staleIn_perm (hkeys : table.ids.Nodup) (horder : order.Perm table.ids) :
    (table.staleIn order).Perm (table.blocks.flatMap table.staleAt) := by
  rw [staleIn_eq]
  exact (filterMap_get?_perm hkeys horder).flatMap_right _

/-- The first pass finds the entries whose site does not go to the block. -/
theorem mem_staleIn (hkeys : table.ids.Nodup) (horder : order.Perm table.ids)
    (hblock : block ∈ table.blocks) : (block.id, site) ∈ table.staleIn order ↔
      site ∈ block.incoming ∧ table.goesTo block.id site = false := by
  rw [(staleIn_perm hkeys horder).mem_iff, List.mem_flatMap]
  simp only [staleAt, List.mem_map, List.mem_filter, Prod.mk.injEq, Bool.not_eq_true']
  constructor
  · rintro ⟨found, hfound, other, hstale, hid, rfl⟩
    rwa [← List.inj_on_of_nodup_map hkeys hfound hblock hid]
  · intro hstale
    exact ⟨block, hblock, site, hstale, rfl, rfl⟩

/-- The two passes, in whatever order the first one goes, are one look at all blocks. -/
theorem pruneIncomingIn_eq (hkeys : table.ids.Nodup) (horder : order.Perm table.ids) :
    table.pruneIncomingIn order = table.pruneIncoming := by
  rw [pruneIncomingIn, pruneIncoming, foldl_strike]
  refine Prod.ext ?_ ?_
  · show (table.staleIn order).length = _
    rw [(staleIn_perm hkeys horder).length_eq, List.length_flatMap, List.length_flatMap]
    simp only [staleAt, List.length_map]
  · show CodeTable.mk _ _ = CodeTable.mk _ _
    congr 1
    refine List.map_congr_left fun block hmem => ?_
    rw [Block.struck]
    congr 1
    refine List.filter_congr fun site hsite => ?_
    rw [Bool.eq_iff_iff, decide_eq_true_iff, mem_staleIn hkeys horder hmem]
    simp [hsite]

theorem length_pruneIncoming (table : CodeTable) :
    (table.blocks.flatMap Block.incoming).length = table.pruneIncoming.1
      + (table.pruneIncoming.2.blocks.flatMap Block.incoming).length := by
  rw [pruneIncoming, List.flatMap_map]
  -- the table whose records are read stays the same while its blocks are gone through
  generalize table.goesTo = goesTo
  induction table.blocks with
  | nil => rfl
  | cons block rest ih =>
      have hsplit := (List.filter_append_perm (goesTo block.id) block.incoming).length_eq
      simp only [List.flatMap_cons, List.length_append] at ih hsplit ⊢
      omega

/-- Walks over the blocks of a table do not depend on the order in which the blocks come. The visit
of the link records leaves the same blocks and the same statistics, and reports the same up to the
order. Pruning leaves of each list of incoming sites the entries whose site still goes to the block,
in their order, and counts those that it takes away. -/
theorem walks_ignore_order {table : CodeTable} (hkeys : table.ids.Nodup)
    {first second : List CodeId} (hfirst : first.Perm table.ids) (hsecond : second.Perm table.ids)
    (isLive : Cell → Bool) (stats : Stats) :
    (table.visitWeakIn isLive first stats).1 = (table.visitWeakIn isLive second stats).1 ∧
    (table.visitWeakIn isLive first stats).2.2 = (table.visitWeakIn isLive second stats).2.2 ∧
    (table.visitWeakIn isLive first stats).2.1.Perm (table.visitWeakIn isLive second stats).2.1 ∧
    (table.visitWeakIn isLive first stats).1 = (table.visitWeak isLive stats).1 ∧
    (table.visitWeakIn isLive first stats).2.2 = (table.visitWeak isLive stats).2.2 ∧
    table.pruneIncomingIn first = table.pruneIncomingIn second ∧
    table.pruneIncomingIn first = table.pruneIncoming ∧
    (∀ id, (table.pruneIncomingIn first).2.get? id = (table.get? id).map fun block =>
      { block with incoming := block.incoming.filter fun site => table.goesTo block.id site }) ∧
    (table.blocks.flatMap Block.incoming).length = (table.pruneIncomingIn first).1
      + ((table.pruneIncomingIn first).2.blocks.flatMap Block.incoming).length := by
  have hvisit : ∀ {order : List CodeId}, order.Perm table.ids →
      (table.visitWeakIn isLive order stats).1 = (table.visitWeak isLive stats).1 ∧
        (table.visitWeakIn isLive order stats).2.2 = (table.visitWeak isLive stats).2.2 ∧
        (table.visitWeakIn isLive order stats).2.1.Perm (table.visitWeak isLive stats).2.1 := by
    intro order horder
    have hblocks := filterMap_get?_perm hkeys horder
    rw [visitWeakIn_eq hkeys (horder.nodup_iff.mpr hkeys)]
    refine ⟨?_, visitBlocks_stats_perm hblocks isLive stats,
      visitBlocks_effects_perm hblocks isLive stats⟩
    rw [visitWeak_eq_map]
    refine congrArg (CodeTable.mk · table.lastNumber) (List.map_congr_left fun block hmem => ?_)
    exact if_pos (horder.mem_iff.mpr (List.mem_map_of_mem hmem))
  obtain ⟨htable, hstats, heffects⟩ := hvisit hfirst
  obtain ⟨htable', hstats', heffects'⟩ := hvisit hsecond
  have hprune := pruneIncomingIn_eq hkeys hfirst
  refine ⟨htable.trans htable'.symm, hstats.trans hstats'.symm, heffects.trans heffects'.symm,
    htable, hstats, hprune.trans (pruneIncomingIn_eq hkeys hsecond).symm, hprune, ?_, ?_⟩
  · intro id
    rw [hprune, get?_pruneIncoming]
  · rw [hprune]
    exact length_pruneIncoming table

/-- A record that sends one callee to the code of a block. -/
def sendsTo (callee : Cell) (code : CodeId) : Link :=
  { Link.fresh ⟨.call, 0⟩ ⟨0, 24, 24⟩ 255 with
    state := .monomorphic (.ofCell callee) ⟨code, ⟨0⟩⟩
    site := ⟨⟨0, 24, 24⟩, .regular, .guarded callee ⟨code, ⟨0⟩⟩, 1⟩ }

/-- Two blocks that call each other. A site of the first was linked to the second before. -/
def callsEachOther : CodeTable where
  blocks :=
    [⟨⟨1⟩, ⟨0, 0⟩, ⟨0⟩, .call, .baseline, ⟨0⟩, 0, true,
        [sendsTo ⟨3, 0⟩ ⟨2⟩, Link.fresh ⟨.call, 1⟩ ⟨24, 88, 48⟩ 255], [⟨⟨2⟩, 0⟩]⟩,
      ⟨⟨2⟩, ⟨1, 0⟩, ⟨0⟩, .call, .baseline, ⟨0⟩, 0, true,
        [sendsTo ⟨2, 0⟩ ⟨1⟩], [⟨⟨1⟩, 1⟩, ⟨⟨1⟩, 0⟩]⟩]
  lastNumber := 2

/-- Both callees die, and both sites are unlinked, whichever block comes first. One entry is stale
before that. -/
theorem walks_ignore_order_of_callsEachOther :
    let orders : List CodeId × List CodeId := ([⟨1⟩, ⟨2⟩], [⟨2⟩, ⟨1⟩])
    let visit := callsEachOther.visitWeakIn (fun _ => false) orders.1 {}
    let other := callsEachOther.visitWeakIn (fun _ => false) orders.2 {}
    callsEachOther.ids.Nodup ∧ orders.1.Perm callsEachOther.ids ∧
      orders.2.Perm callsEachOther.ids ∧ visit.1 = other.1 ∧ visit.2.2 = other.2.2 ∧
      visit.2.1 ≠ other.2.1 ∧ visit.2.2.collectorUnlinks = 2 ∧
      callsEachOther.pruneIncomingIn orders.1 = callsEachOther.pruneIncomingIn orders.2 ∧
      (callsEachOther.pruneIncomingIn orders.1).1 = 1 ∧
      (callsEachOther.pruneIncomingIn orders.1).2.blocks.map Block.incoming
        = [[⟨⟨2⟩, 0⟩], [⟨⟨1⟩, 0⟩]] := by
  intro orders visit other
  have hkeys : callsEachOther.ids.Nodup := by decide
  have hfirst : orders.1.Perm callsEachOther.ids := by decide
  have hsecond : orders.2.Perm callsEachOther.ids := by decide
  obtain ⟨htable, hstats, _, _, _, hprune, _⟩ :=
    walks_ignore_order hkeys hfirst hsecond (fun _ => false) {}
  exact ⟨hkeys, hfirst, hsecond, htable, hstats, by decide, by decide, hprune, by decide,
    by decide⟩

end CodeTable

end InlineCache
