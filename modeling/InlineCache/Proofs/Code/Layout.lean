import InlineCache.Proofs.Code.Table
import Mathlib.Order.Interval.Finset.Nat

/-!
# The layout of generated code

The code of a block is cut into regions, a fast path and a slow path for each call site. Regions
that lie end to end share no label and leave none out, so all that has to be known of a block is
where each of its regions starts: the fast paths lie end to end from label 0 to the base of the slow
paths, and the slow paths lie end to end from there on.
-/

namespace InlineCache

/-- The labels from `start` on, up to but not including `stop`. -/
structure Region where
  start : Nat
  stop : Nat
deriving DecidableEq, Repr, Inhabited

namespace Region

def labels (region : Region) : Finset Nat := Finset.Ico region.start region.stop

/-- Regions that lie end to end between two labels. -/
inductive Tiles : Nat → List Region → Nat → Prop
  | nil (label : Nat) : Tiles label [] label
  | cons {region : Region} {rest : List Region} {stop : Nat} (hle : region.start ≤ region.stop)
      (hrest : Tiles region.stop rest stop) : Tiles region.start (region :: rest) stop

/-- Regions of one size, one for each number below `count`. -/
def row (base size count : Nat) : List Region :=
  (List.range count).map fun index => ⟨base + size * index, base + size * (index + 1)⟩

namespace Tiles

variable {start middle stop : Nat} {regions others : List Region}

theorem le (h : Tiles start regions stop) : start ≤ stop := by
  induction h with
  | nil label => exact Nat.le_refl label
  | cons hle _ ih => exact Nat.le_trans hle ih

theorem append (h : Tiles start regions middle) (hothers : Tiles middle others stop) :
    Tiles start (regions ++ others) stop := by
  induction h with
  | nil => exact hothers
  | cons hle _ ih => exact .cons hle (ih hothers)

theorem covers (h : Tiles start regions stop) (label : Nat) :
    (∃ region ∈ regions, label ∈ region.labels) ↔ start ≤ label ∧ label < stop := by
  induction h with
  | nil => simp
  | @cons region rest stop hle hrest ih =>
      have hstop := hrest.le
      simp only [List.mem_cons, exists_eq_or_imp, ih]
      rw [labels, Finset.mem_Ico]
      omega

theorem pairwise_disjoint (h : Tiles start regions stop) :
    regions.Pairwise fun first second => Disjoint first.labels second.labels := by
  induction h with
  | nil => exact .nil
  | @cons region rest stop hle hrest ih =>
      refine .cons (fun later hlater => ?_) ih
      rw [Finset.disjoint_left]
      intro label hlabel hboth
      have hafter := ((hrest.covers label).mp ⟨later, hlater, hboth⟩).1
      have hbefore := (Finset.mem_Ico.mp hlabel).2
      omega

theorem row (base size count : Nat) : Tiles base (row base size count) (base + size * count) := by
  induction count with
  | zero => exact .nil base
  | succ count ih =>
      have hle : base + size * count ≤ base + size * (count + 1) :=
        Nat.add_le_add_left (Nat.mul_le_mul_left size (Nat.le_succ count)) base
      rw [Region.row, List.range_succ, List.map_append]
      exact ih.append (@cons ⟨_, _⟩ [] _ hle (.nil _))

end Tiles

end Region

/-! ### Labels -/

namespace Locations

/-- Where the labels of a site belong in a block that has `count` sites. -/
def placed (count index : Nat) : Locations where
  fastPath := 24 * index
  slowPath := 24 * count + 40 * index
  done := 24 * (index + 1)

def fastRegion (locations : Locations) : Region :=
  ⟨locations.fastPath, locations.fastPath + fastPathSize⟩

def slowRegion (locations : Locations) : Region :=
  ⟨locations.slowPath, locations.slowPath + slowPathSize⟩

variable {count index : Nat}

theorem fastRegion_placed (count index : Nat) :
    (placed count index).fastRegion = ⟨24 * index, 24 * (index + 1)⟩ := by
  simp [fastRegion, placed, fastPathSize, Nat.mul_add]

theorem slowRegion_placed (count index : Nat) : (placed count index).slowRegion
    = ⟨24 * count + 40 * index, 24 * count + 40 * (index + 1)⟩ := by
  simp [slowRegion, placed, slowPathSize, Nat.mul_add, Nat.add_assoc]

/-- The labels of a block that has `count` sites, when each is where it belongs. -/
def inOrder (count : Nat) : List Locations := (List.range count).map (placed count)

@[simp] theorem length_inOrder (count : Nat) : (inOrder count).length = count := by
  rw [inOrder, List.length_map, List.length_range]

theorem getElem?_inOrder (h : index < count) :
    (inOrder count)[index]? = some (placed count index) := by
  rw [inOrder, List.getElem?_map, List.getElem?_range h, Option.map_some]

/-- A site goes on where the next fast path starts, the last one where the slow paths start. -/
theorem done_placed (h : index < count) : (placed count index).done
    = ((inOrder count)[index + 1]?).elim (24 * count) fastPath := by
  rcases Nat.lt_or_ge (index + 1) count with hnext | hlast
  · rw [getElem?_inOrder hnext]
    rfl
  · have hnone : (inOrder count)[index + 1]? = none := by
      rw [List.getElem?_eq_none_iff, length_inOrder]
      exact hlast
    have hend : index + 1 = count := Nat.le_antisymm h hlast
    rw [hnone, placed, hend]
    rfl

theorem mulWord32_of_le {a b : Nat} (h : a * b ≤ word32Max) : mulWord32 a b = .ok (a * b) :=
  if_pos h

theorem addWord32_of_le {a b : Nat} (h : a + b ≤ word32Max) : addWord32 a b = .ok (a + b) :=
  if_pos h

/-- No step overflows at a site of a block that fits: the slow path of the last site ends at
`64 * count`, and no label lies beyond. -/
theorem forSite_of_fits (hfits : 64 * count ≤ word32Max) (hindex : index < count) :
    forSite index (count * fastPathSize) = .ok (placed count index) := by
  have hnumber : index % (word32Max + 1) = index := Nat.mod_eq_of_lt (by omega)
  have hfast : index * fastPathSize ≤ word32Max := by rw [fastPathSize]; omega
  have hoffset : index * slowPathSize ≤ word32Max := by rw [slowPathSize]; omega
  have hslow : count * fastPathSize + index * slowPathSize ≤ word32Max := by
    rw [fastPathSize, slowPathSize]; omega
  have hdone : index * fastPathSize + fastPathSize ≤ word32Max := by rw [fastPathSize]; omega
  have hplaced : placed count index = ⟨index * fastPathSize,
      count * fastPathSize + index * slowPathSize, index * fastPathSize + fastPathSize⟩ := by
    simp only [placed, fastPathSize, slowPathSize, Locations.mk.injEq]
    omega
  simp only [forSite, hnumber, mulWord32_of_le hfast, mulWord32_of_le hoffset,
    addWord32_of_le hslow, addWord32_of_le hdone, hplaced, bind, Except.bind, pure, Except.pure]

theorem forBlock_of_fits (hfits : 64 * count ≤ word32Max) :
    forBlock count = .ok (inOrder count) := by
  have hnumber : count % (word32Max + 1) = count := Nat.mod_eq_of_lt (by omega)
  have hbase : count * fastPathSize ≤ word32Max := by rw [fastPathSize]; omega
  have hsites : ∀ indices : List Nat, (∀ index ∈ indices, index < count) →
      (indices.mapM fun index => forSite index (count * fastPathSize))
        = .ok (indices.map (placed count)) := by
    intro indices hindices
    induction indices with
    | nil => rfl
    | cons first rest ih =>
        have hfirst := forSite_of_fits hfits (hindices first List.mem_cons_self)
        have hrest := ih fun index hindex => hindices index (List.mem_cons_of_mem first hindex)
        rw [List.mapM_cons, hfirst, hrest]
        rfl
  rw [forBlock, hnumber, mulWord32_of_le hbase]
  exact hsites (List.range count) fun index hindex => List.mem_range.mp hindex

end Locations

/-! ### Blocks -/

namespace Block

/-- The labels of the sites of a block, in order. -/
def labels (block : Block) : List Locations := block.links.map fun link => link.site.locations

/-- The regions that the code of a block is cut into. -/
def regions (block : Block) : List Region :=
  block.labels.map Locations.fastRegion ++ block.labels.map Locations.slowRegion

theorem labels_assemble {request : Compilation} {labels : List Locations}
    (h : labels.length = request.executable.sites.length) (id : CodeId) (varargsCeiling : Nat)
    (callCaching : Bool) :
    (request.assemble id labels varargsCeiling callCaching).labels = labels := by
  have hall : (request.executable.sites.zip labels).map Prod.snd = labels :=
    List.map_snd_zip (Nat.le_of_eq h)
  rw [Block.labels, Compilation.assemble, List.map_map]
  exact hall

/-- A block with its labels in place is tiled by its regions. -/
theorem tiles_of_labels {block : Block} {count : Nat} (h : block.labels = Locations.inOrder count) :
    Region.Tiles 0 block.regions (64 * count) := by
  have hfast : block.labels.map Locations.fastRegion = Region.row 0 24 count := by
    rw [h, Locations.inOrder, List.map_map, Region.row]
    refine List.map_congr_left fun index _ => ?_
    rw [Nat.zero_add, Nat.zero_add]
    exact Locations.fastRegion_placed count index
  have hslow : block.labels.map Locations.slowRegion = Region.row (24 * count) 40 count := by
    rw [h, Locations.inOrder, List.map_map]
    exact List.map_congr_left fun index _ => Locations.slowRegion_placed count index
  have hbase : 0 + 24 * count = 24 * count := Nat.zero_add _
  have hend : 24 * count + 40 * count = 64 * count := by omega
  have htiles := Region.Tiles.row 0 24 count
  rw [hbase] at htiles
  have hall := htiles.append (Region.Tiles.row (24 * count) 40 count)
  rwa [hend, ← hfast, ← hslow] at hall

end Block

namespace CodeTable

/-- Compiling an executable whose code fits 32-bit labels never overflows, and cuts the code of the
new block into regions without gap or overlap: site number `index` has its fast path at
`24 * index` and goes on where the next fast path starts, and the slow paths follow the last fast
path in the same order. -/
theorem compile_tiles_code (table : CodeTable) (request : Compilation) (varargsCeiling : Nat)
    (callCaching : Bool) (hfits : 64 * request.executable.sites.length ≤ word32Max) :
    let count := request.executable.sites.length
    ∃ block : Block,
      table.compile request varargsCeiling callCaching = .ok (block.id, table.append block) ∧
      block.labels.length = count ∧
      (∀ index locations, block.labels[index]? = some locations →
        locations.fastRegion = ⟨24 * index, 24 * (index + 1)⟩ ∧
        locations.done = (block.labels[index + 1]?).elim (24 * count) Locations.fastPath ∧
        locations.slowRegion = ⟨24 * count + 40 * index, 24 * count + 40 * (index + 1)⟩) ∧
      block.regions.length = 2 * count ∧
      (block.regions.Pairwise fun first second => Disjoint first.labels second.labels) ∧
      ∀ label, (∃ region ∈ block.regions, label ∈ region.labels) ↔ label < 64 * count := by
  intro count
  obtain ⟨block, hblock⟩ : ∃ block, block = request.assemble ⟨table.lastNumber + 1⟩
      (Locations.inOrder count) varargsCeiling callCaching := ⟨_, rfl⟩
  have hlabels : block.labels = Locations.inOrder count := by
    rw [hblock]
    exact Block.labels_assemble (Locations.length_inOrder count) _ _ _
  have hlength : block.labels.length = count := by rw [hlabels, Locations.length_inOrder]
  have htiles := Block.tiles_of_labels hlabels
  refine ⟨block, ?_, hlength, ?_, ?_, htiles.pairwise_disjoint, fun label => ?_⟩
  · rw [compile_eq, Locations.forBlock_of_fits hfits, hblock]
    rfl
  · intro index locations hlocations
    have hindex : index < count := by
      rw [← hlength]
      exact (List.getElem?_eq_some_iff.mp hlocations).1
    rw [hlabels, Locations.getElem?_inOrder hindex] at hlocations
    obtain rfl := Option.some.inj hlocations
    rw [hlabels]
    exact ⟨Locations.fastRegion_placed count index, Locations.done_placed hindex,
      Locations.slowRegion_placed count index⟩
  · rw [Block.regions, List.length_append, List.length_map, List.length_map, hlength]
    omega
  · rw [htiles.covers]
    exact and_iff_right (Nat.zero_le label)

/-- A function with as many calls as can have labels. -/
def longest : Compilation where
  owner := ⟨0, 0⟩
  executable := { name := "longest", entry := ⟨0⟩, sites := List.replicate 67108863 ⟨.call, 0⟩ }
  realm := ⟨0⟩
  kind := .call
  tier := .baseline
  entry := ⟨0⟩

/-- With the most sites that fit, the last slow path ends 63 labels before the largest word. -/
theorem compile_tiles_code_of_longest :
    64 * longest.executable.sites.length ≤ word32Max ∧
      ∃ block : Block, compile {} longest 255 true = .ok (block.id, append {} block) ∧
        (∃ last, block.labels[67108862]? = some last ∧
          last.slowRegion = ⟨4294967192, 4294967232⟩ ∧ last.done = 1610612712) ∧
        ∀ label, (∃ region ∈ block.regions, label ∈ region.labels) ↔ label < 4294967232 := by
  have hcount : longest.executable.sites.length = 67108863 := List.length_replicate
  have hfits : 64 * longest.executable.sites.length ≤ word32Max := by rw [hcount]; decide
  obtain ⟨block, hcompile, hlength, hsites, _, _, hcovers⟩ :=
    compile_tiles_code {} longest 255 true hfits
  rw [hcount] at hlength hsites hcovers
  have hlast : 67108862 < block.labels.length := by rw [hlength]; decide
  obtain ⟨last, hfound⟩ : ∃ last, block.labels[67108862]? = some last :=
    ⟨_, List.getElem?_eq_getElem hlast⟩
  have hnone : block.labels[67108862 + 1]? = none := by
    rw [List.getElem?_eq_none_iff, hlength]
  obtain ⟨_, hdone, hslow⟩ := hsites _ _ hfound
  rw [hnone] at hdone
  exact ⟨hfits, block, hcompile, ⟨last, hfound, hslow, hdone⟩, hcovers⟩

end CodeTable

end InlineCache
