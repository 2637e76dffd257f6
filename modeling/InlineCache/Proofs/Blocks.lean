import InlineCache.Proofs.Incoming

/-!
# What every block fulfils

Between its compilation and its end a block gets other records for its sites, and sites are entered
in its list and struck from it. What this cannot change, and what holds of every block that is
compiled, holds of every block there is.
-/

namespace InlineCache

/-- What happens to a block keeps a property of it. -/
structure Block.Stable (fits : Block → Prop) : Prop where
  links : ∀ {block : Block} {links : List Link}, fits block → fits { block with links }
  addIncoming : ∀ {block : Block} {site : SiteRef}, fits block → fits (block.addIncoming site)
  filter : ∀ {block : Block} {keep : SiteRef → Bool}, fits block →
    fits { block with incoming := block.incoming.filter keep }

theorem Block.Stable.clear {fits : Block → Prop} (h : Block.Stable fits) {block : Block}
    (hfits : fits block) : fits { block with incoming := [] } := by
  have hnone : fits { block with incoming := block.incoming.filter fun _ => false } :=
    h.filter hfits
  rwa [List.filter_false] at hnone

namespace CodeTable

variable {table : CodeTable} {fits : Block → Prop} {id : CodeId}

/-- Something holds of every block of a table. -/
def All (fits : Block → Prop) (table : CodeTable) : Prop :=
  ∀ block ∈ table.blocks, fits block

theorem All.mono {weaker : Block → Prop} (h : table.All fits)
    (hfits : ∀ block, fits block → weaker block) : table.All weaker :=
  fun block hblock => hfits block (h block hblock)

theorem All.map (h : table.All fits) {change : Block → Block}
    (hchange : ∀ block, fits block → fits (change block)) :
    All fits { table with blocks := table.blocks.map change } := by
  intro block hblock
  obtain ⟨origin, horigin, rfl⟩ := List.mem_map.mp hblock
  exact hchange origin (h origin horigin)

theorem All.update (h : table.All fits) {change : Block → Block}
    (hchange : ∀ block, fits block → fits (change block)) : (table.update id change).All fits := by
  refine h.map fun block hblock => ?_
  split
  · exact hchange block hblock
  · exact hblock

theorem All.setLink (hstable : Block.Stable fits) (h : table.All fits) (site : SiteRef)
    (link : Link) : (table.setLink site link).All fits :=
  h.update fun _ hblock => hstable.links hblock

theorem All.addIncoming (hstable : Block.Stable fits) (h : table.All fits) (id : CodeId)
    (site : SiteRef) : (table.update id fun block => block.addIncoming site).All fits :=
  h.update fun _ hblock => hstable.addIncoming hblock

theorem All.noteIncoming (hstable : Block.Stable fits) (h : table.All fits) (codes : List CodeId)
    (site : SiteRef) : (table.noteIncoming codes site).All fits := by
  induction codes generalizing table with
  | nil => exact h
  | cons id rest ih => exact ih (h.addIncoming hstable id site)

theorem All.append {block : Block} (h : table.All fits) (hblock : fits block) :
    (table.append block).All fits := by
  intro found hfound
  rcases List.mem_append.mp hfound with hold | hnew
  · exact h found hold
  · rw [List.mem_singleton.mp hnew]
    exact hblock

theorem All.remove (h : table.All fits) : (table.remove id).All fits :=
  fun block hblock => h block (List.mem_of_mem_filter hblock)

end CodeTable

namespace Machine

open CodeTable

variable {may : Work → Prop} {machine before after : Machine} {fits : Block → Prop}

theorem clearIncoming_all (hstable : Block.Stable fits) (h : machine.code.All fits)
    (id : CodeId) : (machine.clearIncoming id).code.All fits :=
  h.update fun _ hblock => hstable.clear hblock

theorem upgradeSite_all (hstable : Block.Stable fits) (h : machine.code.All fits) (old : CodeId)
    (site : SiteRef) (new : CodePointer) : (machine.upgradeSite old site new).code.All fits := by
  rw [upgradeSite_code]
  split
  · exact h
  · split
    · exact (h.setLink hstable _ _).addIncoming hstable _ _
    · exact h.setLink hstable _ _

theorem dropSite_all (hstable : Block.Stable fits) (h : machine.code.All fits) (old : CodeId)
    (site : SiteRef) : (machine.dropSite old site).code.All fits := by
  rw [dropSite_code_eq]
  split
  · exact h
  · exact h.setLink hstable _ _

theorem foldl_all {step : Machine → SiteRef → Machine}
    (hstep : ∀ (machine : Machine) (site : SiteRef), machine.code.All fits →
      (step machine site).code.All fits)
    (sites : List SiteRef) (h : machine.code.All fits) :
    (sites.foldl step machine).code.All fits := by
  induction sites generalizing machine with
  | nil => exact h
  | cons site rest ih => exact ih (hstep machine site h)

/-- Code is compiled for live executables only. -/
theorem Change.all (hstable : Block.Stable fits)
    (hnew : ∀ request labels, before.heap.executable? request.owner = some request.executable →
      fits (before.assembled request labels))
    (h : Change may before after) (hnumbered : before.code.Numbered)
    (hall : before.code.All fits) : after.code.All fits := by
  cases h with
  | bookkeeping hstore =>
      rw [show after.code = before.code from congrArg Store.code hstore]
      exact hall
  | allocation => exact hall
  | barrier => exact hall
  | startMarking => exact hall
  | markStep => exact hall
  | sweep =>
      rw [sweepHeap_code, visitWeak_eq_map]
      exact hall.map fun _ hblock => hstable.links hblock
  | profile => exact hall.setLink hstable _ _
  | giveUp => exact hall.setLink hstable _ _
  | install => exact (hall.setLink hstable _ _).noteIncoming hstable _ _
  | @compile request labels hexecutable => exact hall.append (hnew request labels hexecutable)
  | @replace block executable entry tier labels hblock hexecutable =>
      have hcompiled :
          (before.compiled (block.replacement executable entry tier) labels).code.All fits :=
        hall.append (hnew _ labels hexecutable)
      rw [replaced, upgradeSites_eq_foldl]
      exact foldl_all
        (fun machine site hmachine => upgradeSite_all hstable hmachine block.id site _)
        _ (clearIncoming_all hstable hcompiled block.id)
  | @jettison block =>
      have hdropped := foldl_all
        (fun machine site hmachine => dropSite_all hstable hmachine block.id site) block.incoming
        (clearIncoming_all hstable hall block.id)
      have hstill := ((clearIncoming_evolves before block.id).trans (foldl_evolves _
        (fun machine site => dropSite_evolves machine block.id site) block.incoming)).numbered
          hnumbered
      rw [Machine.jettison, report]
      dsimp only
      rw [releaseCode_code, revertLinks_code _ _ hstill]
      refine All.remove (All.update hdropped ?_)
      exact fun _ hblock => hstable.links hblock
  | prune => exact hall.map fun _ hblock => hstable.filter hblock

end Machine

end InlineCache
