import InlineCache.Proofs.Code.Table

/-!
# The outline of a table of code

The outline of a table leaves out everything that caching is about: what sites are linked to, which
sites go to a block, and whether the calls of a block are cached. Tables with one outline have the
same blocks, with sites of the same call types.
-/

namespace InlineCache

structure BlockOutline where
  bare : Block
  callTypes : List CallType

def Block.outline (block : Block) : BlockOutline where
  bare := { block.bare with cachesCalls := true }
  callTypes := block.links.map Link.callType

theorem Block.eq_of_outline {left right : Block} (h : left.outline = right.outline) :
    left.id = right.id ∧ left.owner = right.owner ∧ left.realm = right.realm ∧
      left.kind = right.kind ∧ left.pointer = right.pointer := by
  have hid := congrArg (fun outline => outline.bare.id) h
  have howner := congrArg (fun outline => outline.bare.owner) h
  have hrealm := congrArg (fun outline => outline.bare.realm) h
  have hkind := congrArg (fun outline => outline.bare.kind) h
  have hpointer := congrArg (fun outline => outline.bare.pointer) h
  exact ⟨hid, howner, hrealm, hkind, hpointer⟩

namespace CodeTable

def outline (table : CodeTable) : List BlockOutline × Nat :=
  (table.blocks.map Block.outline, table.lastNumber)

variable {table left right : CodeTable} {id : CodeId} {site : SiteRef}

/-! ### What the outline determines -/

theorem get?_of_outline (h : left.outline = right.outline) (id : CodeId) :
    (left.get? id).map Block.outline = (right.get? id).map Block.outline := by
  have hget : ∀ table : CodeTable, (table.get? id).map Block.outline
      = (table.blocks.map Block.outline).find? fun outline => outline.bare.id == id := by
    intro table
    rw [List.find?_map]
    rfl
  rw [hget, hget, (Prod.mk.inj h).1]

theorem numbered_of_outline (h : left.outline = right.outline) (hnumbered : left.Numbered) :
    right.Numbered := by
  obtain ⟨hblocks, hlast⟩ := Prod.mk.inj h
  have hids : left.blocks.map Block.id = right.blocks.map Block.id := by
    have hmap := congrArg (List.map fun outline => outline.bare.id) hblocks
    rw [List.map_map, List.map_map] at hmap
    exact hmap
  constructor
  · have hsorted : (left.blocks.map Block.id).Pairwise fun a b => a.number < b.number :=
      List.pairwise_map.mpr hnumbered.sorted
    rw [hids, List.pairwise_map] at hsorted
    exact hsorted
  · intro block hmem
    have hid : block.id ∈ left.blocks.map Block.id := by
      rw [hids]
      exact List.mem_map_of_mem hmem
    obtain ⟨same, hsame, heq⟩ := List.mem_map.mp hid
    have hbounded := hnumbered.bounded same hsame
    change left.lastNumber = right.lastNumber at hlast
    rwa [heq, hlast] at hbounded

/-! ### What the outline does not see -/

theorem outline_update {change : Block → Block}
    (h : ∀ block ∈ table.blocks, block.id = id → (change block).outline = block.outline) :
    (table.update id change).outline = table.outline := by
  refine Prod.ext ?_ rfl
  dsimp only [outline, update]
  rw [List.map_map]
  refine List.map_congr_left fun block hmem => ?_
  dsimp only [Function.comp]
  split
  · rename_i hid
    exact h block hmem hid
  · rfl

theorem outline_setLink {link changed : Link} (hnumbered : table.Numbered)
    (hlink : table.link? site = some link) (htype : changed.callType = link.callType) :
    (table.setLink site changed).outline = table.outline := by
  refine outline_update fun block hmem hid => ?_
  obtain ⟨caller, hcaller, hfound⟩ := link?_eq_some_iff.mp hlink
  have hsame := hnumbered.get?_of_mem hmem
  rw [hid, hcaller] at hsame
  obtain rfl := Option.some.inj hsame
  have htypes : (caller.links.set site.index changed).map Link.callType
      = caller.links.map Link.callType := by
    refine List.ext_getElem? fun index => ?_
    rw [List.getElem?_map, List.getElem?_map, List.getElem?_set]
    split
    · rename_i heq
      rw [← heq, hfound, if_pos (List.getElem?_eq_some_iff.mp hfound).1]
      exact congrArg some htype
    · rfl
  rw [Block.outline, Block.outline, htypes]
  rfl

theorem outline_addIncoming : (table.update id fun block => block.addIncoming site).outline
    = table.outline := by
  refine outline_update fun block _ _ => ?_
  rw [Block.outline, Block.bare_addIncoming, Block.addIncoming_links, Block.outline]

theorem outline_append (block : Block) : (table.append block).outline
    = (table.outline.1 ++ [block.outline], table.outline.2 + 1) := by
  rw [outline, append, List.map_append]
  rfl

theorem outline_remove : (table.remove id).outline
    = (table.outline.1.filter fun outline => outline.bare.id != id, table.outline.2) := by
  rw [outline, remove, outline, List.filter_map]
  rfl

end CodeTable

/-- Blocks compiled from one request have one outline, cached or not. -/
theorem Compilation.outline_assemble (request : Compilation) (id : CodeId)
    (labels : List Locations) (ceiling other : Nat) (caching otherCaching : Bool) :
    (request.assemble id labels ceiling caching).outline
      = (request.assemble id labels other otherCaching).outline := by
  rw [Block.outline, Block.outline, assemble, assemble, List.map_map, List.map_map]
  rfl

end InlineCache
