import InlineCache.Entity
import InlineCache.Link.Basic
import InlineCache.Link.WeakVisit
import InlineCache.Stats

/-!
# Compiled code

A block is the code compiled for one executable and one specialization. It has a link record for
each call site in its body, and a list of the sites elsewhere that can reach it.

The blocks of a machine stand in the order of their numbers. Numbers are given in increasing order
from 1 and never again, so a new block goes to the end.
-/

namespace InlineCache

/-! ### Blocks -/

/-- A call site: the block it is in and its number there. -/
structure SiteRef where
  caller : CodeId
  index : Nat
deriving DecidableEq, Repr, Inhabited

structure Block where
  id : CodeId
  /-- The executable that the code was compiled for. -/
  owner : Cell
  realm : Realm
  kind : Specialization
  tier : Tier
  entry : Entry
  parameters : Nat
  cachesCalls : Bool
  links : List Link
  /-- The sites that may go to this block, in the order in which they were linked. -/
  incoming : List SiteRef
deriving DecidableEq, Repr, Inhabited

namespace Block

def pointer (block : Block) : CodePointer := ⟨block.id, block.entry⟩

/-- Note that a site goes to this block. A site is noted once. -/
def addIncoming (block : Block) (site : SiteRef) : Block :=
  if site ∈ block.incoming then block
  else { block with incoming := block.incoming ++ [site] }

def text (block : Block) : String :=
  Text.record "CodeBlock"
    [("id", block.id.text), ("owner", block.owner.text), ("specialization", block.kind.text),
     ("jit_type", block.tier.text), ("call_sites", toString block.links.length),
     ("incoming", toString block.incoming.length)]

end Block

/-! ### The table -/

structure CodeTable where
  blocks : List Block := []
  /-- The number of the block compiled last. -/
  lastNumber : Nat := 0
deriving DecidableEq, Repr, Inhabited

/-- What is compiled, and what for. -/
structure Compilation where
  owner : Cell
  executable : Executable
  realm : Realm
  kind : Specialization
  tier : Tier
  entry : Entry
deriving DecidableEq, Repr, Inhabited

namespace CodeTable

def get? (table : CodeTable) (id : CodeId) : Option Block :=
  table.blocks.find? fun block => block.id == id

def contains (table : CodeTable) (id : CodeId) : Bool :=
  (table.get? id).isSome

def update (table : CodeTable) (id : CodeId) (change : Block → Block) : CodeTable :=
  { table with
    blocks := table.blocks.map fun block => if block.id = id then change block else block }

def remove (table : CodeTable) (id : CodeId) : CodeTable :=
  { table with blocks := table.blocks.filter fun block => block.id != id }

/-- The link record of a site. -/
def link? (table : CodeTable) (site : SiteRef) : Option Link :=
  (table.get? site.caller).bind fun block => block.links[site.index]?

def setLink (table : CodeTable) (site : SiteRef) (link : Link) : CodeTable :=
  table.update site.caller fun block => { block with links := block.links.set site.index link }

/-- Compile a block. Its labels must fit 32-bit words. -/
def compile (table : CodeTable) (request : Compilation) (varargsCeiling : Nat)
    (callCaching : Bool) : Except Overflow (CodeId × CodeTable) := do
  let sites := request.executable.sites
  let labels ← Locations.forBlock sites.length
  let id : CodeId := ⟨table.lastNumber + 1⟩
  let block : Block :=
    { id
      owner := request.owner
      realm := request.realm
      kind := request.kind
      tier := request.tier
      entry := request.entry
      parameters := request.executable.parameters
      cachesCalls := request.executable.cachesCalls && callCaching
      links := (sites.zip labels).map fun (site, locations) =>
        Link.fresh site locations varargsCeiling
      incoming := [] }
  pure (id, { blocks := table.blocks ++ [block], lastNumber := table.lastNumber + 1 })

/-! ### After a collection -/

/-- Does the link record of a site still go to the block? -/
def goesTo (table : CodeTable) (code : CodeId) (site : SiteRef) : Bool :=
  match table.link? site with
  | some link => link.targets code
  | none => false

/-- Drop the incoming sites that no longer go to their block. The first component says how many
were dropped. -/
def pruneIncoming (table : CodeTable) : Nat × CodeTable :=
  ((table.blocks.flatMap fun block =>
      block.incoming.filter fun site => !table.goesTo block.id site).length,
    { table with blocks := table.blocks.map fun block =>
        { block with incoming := block.incoming.filter (table.goesTo block.id) } })

/-- Visit one link record, and count what happened to it. -/
def visitLink (isLive : Cell → Bool) (link : Link) (stats : Stats) : Edit × Stats :=
  match link.visitWeak isLive with
  | (.unchanged, edit) => (edit, stats)
  | (.unlinked, edit) =>
    ({ edit with effects := edit.effects ++ [.report (.calleeUnlinked link.origin)] },
      { stats with collectorUnlinks := tick64 stats.collectorUnlinks })
  | (.pruned count, edit) =>
    (edit, { stats with collectorPrunes := addUpTo word64Max stats.collectorPrunes count })

def visitLinks (isLive : Cell → Bool) : List Link → Stats → List Link × List Effect × Stats
  | [], stats => ([], [], stats)
  | link :: rest, stats =>
    let (edit, stats) := visitLink isLive link stats
    let (links, effects, stats) := visitLinks isLive rest stats
    (edit.link :: links, edit.effects ++ effects, stats)

def visitBlocks (isLive : Cell → Bool) : List Block → Stats → List Block × List Effect × Stats
  | [], stats => ([], [], stats)
  | block :: rest, stats =>
    let (links, here, stats) := visitLinks isLive block.links stats
    let (blocks, there, stats) := visitBlocks isLive rest stats
    ({ block with links } :: blocks, here ++ there, stats)

/-- Visit every link record of the table. -/
def visitWeak (table : CodeTable) (isLive : Cell → Bool) (stats : Stats) :
    CodeTable × List Effect × Stats :=
  let (blocks, effects, stats) := visitBlocks isLive table.blocks stats
  ({ table with blocks }, effects, stats)

end CodeTable

end InlineCache
