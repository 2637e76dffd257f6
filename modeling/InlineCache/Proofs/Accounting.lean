import InlineCache.Proofs.Bookkeeping
import Mathlib.Algebra.BigOperators.Group.Finset.Piecewise

/-!
# The accounts of a run

The counters of a machine and the counters of the records are kept in different places, and records
go with their code. Over a whole run they still tell the same story: as long as no counter comes to
its limit, the calls that missed are those that the sites have counted, whether or not the sites are
still there, and every call that has read a slot is counted once. The record of a site that is gone
is looked up in the last machine that had it.
-/

namespace InlineCache

open Machine

namespace Execution

/-- The slots that are read in a run, in turn. -/
def readings (execution : Execution) : List Request → List Reading
  | [] => []
  | request :: rest =>
    request.readings execution.machine ++ (execution.step request).2.readings rest

/-- The machines of a run, from the first to the last. -/
def machines (execution : Execution) : List Request → List Machine
  | [] => [execution.machine]
  | request :: rest => execution.machine :: (execution.step request).2.machines rest

theorem readings_concat (execution : Execution) (requests : List Request) (request : Request) :
    execution.readings (requests ++ [request])
      = execution.readings requests ++ request.readings (execution.run requests).machine := by
  induction requests generalizing execution with
  | nil => exact List.append_nil _
  | cons first rest ih =>
      have hrest := congrArg (first.readings execution.machine ++ ·) (ih (execution.step first).2)
      exact hrest.trans (List.append_assoc _ _ _).symm

theorem machines_concat (execution : Execution) (requests : List Request) (request : Request) :
    execution.machines (requests ++ [request])
      = execution.machines requests ++ [((execution.run requests).step request).2.machine] := by
  induction requests generalizing execution with
  | nil => rfl
  | cons first rest ih => exact congrArg (execution.machine :: ·) (ih (execution.step first).2)

end Execution

/-! ### Sites that have been -/

/-- The sites of a table of code. -/
def CodeTable.sites (table : CodeTable) : List SiteRef :=
  table.blocks.flatMap fun block => (List.range block.links.length).map (SiteRef.mk block.id)

theorem CodeTable.mem_sites_of_link {table : CodeTable} {site : SiteRef} {link : Link}
    (h : table.link? site = some link) : site ∈ table.sites := by
  obtain ⟨caller, hcaller, hindex⟩ := link?_eq_some_iff.mp h
  refine List.mem_flatMap.mpr ⟨caller, mem_of_get? hcaller, List.mem_map.mpr ⟨site.index, ?_, ?_⟩⟩
  · exact List.mem_range.mpr (List.getElem?_eq_some_iff.mp hindex).1
  · rw [id_of_get? hcaller]

theorem CodeTable.Numbered.bounded_of_site {table : CodeTable} {site : SiteRef}
    (hnumbered : table.Numbered) (h : site ∈ table.sites) :
    site.caller.number ≤ table.lastNumber := by
  obtain ⟨block, hblock, hsite⟩ := List.mem_flatMap.mp h
  obtain ⟨_, _, rfl⟩ := List.mem_map.mp hsite
  exact hnumbered.bounded block hblock

namespace Machine

/-- The sites that there have been in some machines. -/
def sitesOf (past : List Machine) : Finset SiteRef :=
  (past.flatMap fun machine => machine.code.sites).toFinset

/-- The record that a site had last. -/
def lastRecord? (past : List Machine) (site : SiteRef) : Option Link :=
  past.reverse.findSome? fun machine => machine.code.link? site

/-- How many calls missed at a site, as its last record says. -/
def missedAt (past : List Machine) (site : SiteRef) : Nat :=
  ((lastRecord? past site).map Link.slowPathCount).getD 0

/-- Is the site virtual? -/
def isVirtual (machine : Machine) (site : SiteRef) : Bool :=
  (machine.code.link? site).any fun link => link.mode == .virtual

/-- The sites that have become virtual. -/
def virtualSites (past : List Machine) : Finset SiteRef :=
  (sitesOf past).filter fun site => past.any fun machine => machine.isVirtual site

variable {past : List Machine} {next : Machine} {site : SiteRef}

theorem mem_sitesOf_concat :
    site ∈ sitesOf (past ++ [next]) ↔ site ∈ sitesOf past ∨ site ∈ next.code.sites := by
  simp only [sitesOf, List.mem_toFinset, List.flatMap_append, List.mem_append,
    List.flatMap_singleton]

theorem lastRecord?_concat (past : List Machine) (next : Machine) (site : SiteRef) :
    lastRecord? (past ++ [next]) site = (next.code.link? site).or (lastRecord? past site) := by
  rw [lastRecord?, List.reverse_append, List.reverse_singleton, List.singleton_append,
    List.findSome?_cons]
  rcases next.code.link? site with _ | link <;> rfl

theorem mem_sitesOf_of_lastRecord? {link : Link} (h : lastRecord? past site = some link) :
    site ∈ sitesOf past := by
  obtain ⟨machine, hmem, hlink⟩ := List.exists_of_findSome?_eq_some h
  refine List.mem_toFinset.mpr (List.mem_flatMap.mpr ⟨machine, List.mem_reverse.mp hmem, ?_⟩)
  exact CodeTable.mem_sites_of_link hlink

theorem isVirtual_iff {machine : Machine} : machine.isVirtual site = true ↔
    ∃ account, machine.code.account? site = some account ∧ account.gaveUp = true := by
  rw [isVirtual, CodeTable.account?]
  rcases machine.code.link? site with _ | link
  · simp
  · simp [Link.account]

theorem mem_virtualSites :
    site ∈ virtualSites past ↔ ∃ machine ∈ past, machine.isVirtual site = true := by
  rw [virtualSites, Finset.mem_filter, List.any_eq_true]
  refine and_iff_right_of_imp ?_
  rintro ⟨machine, hmem, hvirtual⟩
  obtain ⟨account, haccount, _⟩ := isVirtual_iff.mp hvirtual
  obtain ⟨link, hlink, _⟩ := Option.map_eq_some_iff.mp haccount
  exact List.mem_toFinset.mpr (List.mem_flatMap.mpr
    ⟨machine, hmem, CodeTable.mem_sites_of_link hlink⟩)

theorem mem_virtualSites_concat : site ∈ virtualSites (past ++ [next]) ↔
    site ∈ virtualSites past ∨ next.isVirtual site = true := by
  simp only [mem_virtualSites, List.mem_append, List.mem_singleton, or_and_right, exists_or,
    exists_eq_left]

/-! ### Runs -/

/-- The books of a machine balance with what has been: each counter has counted, up to its limit,
what it is there for. -/
structure Balanced (past : List Machine) (read : List Reading) (turned : List SiteRef)
    (current : Machine) : Prop where
  taken : ∀ passage, current.stats.taken passage
    = min (read.countP fun reading => reading.passage = passage) word64Max
  transitions : current.stats.virtualTransitions = min turned.length word64Max
  missed : ∀ site, missedAt past site = min (read.count ⟨site, .missed⟩) word32Max
  known : ∀ site ∈ sitesOf past, site.caller.number ≤ current.code.lastNumber
  last : ∀ {site link}, current.code.link? site = some link → lastRecord? past site = some link
  read_known : ∀ reading ∈ read, reading.site ∈ sitesOf past
  virtual : ∀ site, site ∈ virtualSites past ↔ site ∈ turned
  gaveUp : ∀ {site account}, current.code.account? site = some account →
    (account.gaveUp = true ↔ site ∈ turned)
  nodup : turned.Nodup

namespace Balanced

variable {read more : List Reading} {turned later : List SiteRef} {current : Machine}

theorem not_turned (h : Balanced past read turned current)
    (hlater : current.code.lastNumber < site.caller.number) : site ∉ turned := by
  intro hturned
  have hsite := (Finset.mem_filter.mp ((h.virtual site).mpr hturned)).1
  exact Nat.not_lt.mpr (h.known site hsite) hlater

/-- What the last record of a site says, as the account that the site goes on from. -/
theorem missedAt_of_opening (h : Balanced past read turned current) {opening : Account}
    (hopening : current.Opening site opening) : missedAt past site = opening.missed := by
  rcases hopening with hthere | ⟨hlater, rfl⟩
  · obtain ⟨link, hlink, rfl⟩ := Option.map_eq_some_iff.mp hthere
    rw [missedAt, h.last hlink]
    rfl
  · rcases hrecord : lastRecord? past site with _ | link
    · rw [missedAt, hrecord]
      rfl
    · have hgiven := h.known site (mem_sitesOf_of_lastRecord? hrecord)
      exact absurd hlater (Nat.not_lt.mpr hgiven)

theorem missed_step (h : Balanced past read turned current)
    (hstep : Accounts more later current next) (site : SiteRef) :
    missedAt (past ++ [next]) site = min ((read ++ more).count ⟨site, .missed⟩) word32Max := by
  have hbefore := h.missed site
  rw [missedAt, lastRecord?_concat, List.count_append]
  rcases hfound : next.code.link? site with _ | found
  · -- a site that is gone has not been read in this step
    have hunread : more.count ⟨site, .missed⟩ = 0 := by
      refine List.count_eq_zero.mpr fun hmem => ?_
      obtain ⟨account, haccount⟩ := hstep.held site (.inr (List.mem_map_of_mem hmem))
      rw [CodeTable.account?, hfound] at haccount
      cases haccount
    rw [hunread, Nat.add_zero, ← hbefore]
    rfl
  · obtain ⟨opening, hopening, hcount, _⟩ := hstep.account (CodeTable.account?_of_link hfound)
    have hopened := h.missedAt_of_opening hopening
    have hcounted := hcount (by omega)
    show found.slowPathCount = _
    rw [show found.slowPathCount = found.account.missed from rfl, hcounted, addUpTo]
    omega

theorem gaveUp_step (h : Balanced past read turned current)
    (hstep : Accounts more later current next) {account : Account}
    (haccount : next.code.account? site = some account) :
    account.gaveUp = true ↔ site ∈ turned ++ later := by
  obtain ⟨opening, hthere | ⟨hlater, rfl⟩, _, hgaveUp⟩ := hstep.account haccount
  · rw [hgaveUp, h.gaveUp hthere, List.mem_append]
  · have hnot := h.not_turned hlater
    rw [hgaveUp]
    simp [hnot]

/-- One step further, the books still balance. -/
theorem step (h : Balanced past read turned current) (hnumbered : current.code.Numbered)
    (hstep : Accounts more later current next) (hlater : later.Nodup) :
    Balanced (past ++ [next]) (read ++ more) (turned ++ later) next where
  taken := by
    intro passage
    have hbefore := h.taken passage
    rw [hstep.taken passage (by omega), List.countP_append, addUpTo]
    omega
  transitions := by
    have hbefore := h.transitions
    rw [hstep.transitions (by omega), List.length_append, addUpTo]
    omega
  missed := h.missed_step hstep
  known := by
    intro site hsite
    rcases mem_sitesOf_concat.mp hsite with hpast | hnow
    · exact Nat.le_trans (h.known site hpast) hstep.lastNumber_le
    · exact (hstep.numbered hnumbered).bounded_of_site hnow
  last := by
    intro site link hlink
    rw [lastRecord?_concat, hlink]
    rfl
  read_known := by
    intro reading hreading
    rw [mem_sitesOf_concat]
    rcases List.mem_append.mp hreading with hpast | hnow
    · exact .inl (h.read_known reading hpast)
    · obtain ⟨account, haccount⟩ := hstep.held reading.site (.inr (List.mem_map_of_mem hnow))
      obtain ⟨link, hlink, _⟩ := Option.map_eq_some_iff.mp haccount
      exact .inr (CodeTable.mem_sites_of_link hlink)
  virtual := by
    intro site
    rw [mem_virtualSites_concat, h.virtual, isVirtual_iff, List.mem_append]
    refine ⟨?_, Or.imp_right fun hsite => ?_⟩
    · rintro (hturned | ⟨account, haccount, hgaveUp⟩)
      · exact .inl hturned
      · exact List.mem_append.mp ((h.gaveUp_step hstep haccount).mp hgaveUp)
    · obtain ⟨account, haccount⟩ := hstep.held site (.inl hsite)
      exact ⟨account, haccount, (h.gaveUp_step hstep haccount).mpr (List.mem_append_right _ hsite)⟩
  gaveUp := h.gaveUp_step hstep
  nodup := by
    refine List.nodup_append.mpr ⟨h.nodup, hlater, ?_⟩
    rintro site hturned _ hsite rfl
    obtain ⟨account, haccount, hopen⟩ := hstep.turned_open site hsite
    rw [(h.gaveUp haccount).mpr hturned] at hopen
    cases hopen

end Balanced

theorem balanced_of_create {config : Config} {machine : Machine}
    (h : Machine.create config = .ok machine) : Balanced [machine] [] [] machine := by
  rw [create_eq_ok h]
  exact
    { taken := fun passage => by cases passage <;> rfl
      transitions := rfl
      missed := fun _ => rfl
      known := fun _ hsite => by cases hsite
      last := fun hlink => by cases hlink
      read_known := fun _ hreading => by cases hreading
      virtual := fun _ => Iff.rfl
      gaveUp := fun haccount => by cases haccount
      nodup := List.nodup_nil }

end Machine

namespace Execution

open Machine

variable {config : Config} {machine : Machine}

/-- The books of a machine balance after every run. -/
theorem run_balanced (hcreate : Machine.create config = .ok machine) (requests : List Request) :
    ∃ turned, Balanced ((Execution.mk machine []).machines requests)
      ((Execution.mk machine []).readings requests) turned
      ((Execution.mk machine []).run requests).machine := by
  induction requests using List.reverseRecOn with
  | nil => exact ⟨[], balanced_of_create hcreate⟩
  | append_singleton requests request ih =>
      obtain ⟨turned, hbalanced⟩ := ih
      have hreachable : ((Execution.mk machine []).run requests).Reachable config :=
        ⟨machine, requests, hcreate, rfl⟩
      obtain ⟨later, hlater, hstep⟩ := step_accounts _ hreachable.sound request
      refine ⟨turned ++ later, ?_⟩
      rw [machines_concat, readings_concat, run_append]
      exact hbalanced.step hreachable.sound.numbered hstep hlater

/-- No counter of calls is asked to count past its limit in a run. -/
structure Unsaturated (execution : Execution) (requests : List Request) : Prop where
  taken : ∀ passage, (execution.readings requests).countP
    (fun reading => reading.passage = passage) ≤ word64Max
  transitions : (virtualSites (execution.machines requests)).card ≤ word64Max
  missed : ∀ site, (execution.readings requests).count ⟨site, .missed⟩ ≤ word32Max

end Execution

namespace Machine.Balanced

variable {past : List Machine} {read : List Reading} {turned : List SiteRef} {current : Machine}

theorem card_virtualSites (h : Balanced past read turned current) :
    (virtualSites past).card = turned.length := by
  have hsites : virtualSites past = turned.toFinset := by
    ext site
    rw [h.virtual, List.mem_toFinset]
  rw [hsites, List.toFinset_card_of_nodup h.nodup]

end Machine.Balanced

/-- The calls that missed, counted site by site. -/
theorem sum_missed {read : List Reading} {sites : Finset SiteRef}
    (h : ∀ reading ∈ read, reading.site ∈ sites) :
    ∑ site ∈ sites, read.count ⟨site, .missed⟩
      = read.countP fun reading => reading.passage = .missed := by
  induction read with
  | nil => simp
  | cons reading rest ih =>
      obtain ⟨hfirst, hrest⟩ := List.forall_mem_cons.mp h
      obtain ⟨place, passage⟩ := reading
      simp only [List.count_cons, List.countP_cons, Finset.sum_add_distrib, ih hrest]
      cases passage with
      | missed => simp [hfirst]
      | resolved => simp
      | served => simp

/-- A call goes on in one of three ways. -/
theorem countP_passages (read : List Reading) :
    read.countP (fun reading => reading.passage = .missed)
      + read.countP (fun reading => reading.passage = .resolved)
      + read.countP (fun reading => reading.passage = .served) = read.length := by
  induction read with
  | nil => rfl
  | cons reading rest ih =>
      simp only [List.countP_cons, List.length_cons]
      rcases reading.passage with _ | _ | _ <;> simp <;> omega

namespace Execution

variable {config : Config} {machine : Machine}

/-- A run has not saturated a counter if they all end below their limits. -/
theorem unsaturated_of_lt (hcreate : Machine.create config = .ok machine) {requests : List Request}
    (htaken : ∀ passage,
      ((Execution.mk machine []).run requests).machine.stats.taken passage < word64Max)
    (htransitions :
      ((Execution.mk machine []).run requests).machine.stats.virtualTransitions < word64Max)
    (hmissed : ∀ site ∈ sitesOf ((Execution.mk machine []).machines requests),
      missedAt ((Execution.mk machine []).machines requests) site < word32Max) :
    (Execution.mk machine []).Unsaturated requests := by
  obtain ⟨turned, hbalanced⟩ := run_balanced hcreate requests
  refine ⟨fun passage => ?_, ?_, fun site => ?_⟩
  · have hend := htaken passage
    have hcounted := hbalanced.taken passage
    omega
  · have hcounted := hbalanced.transitions
    rw [hbalanced.card_virtualSites]
    omega
  · by_cases hsite : site ∈ sitesOf ((Execution.mk machine []).machines requests)
    · have hend := hmissed site hsite
      have hcounted := hbalanced.missed site
      omega
    · rw [List.count_eq_zero.mpr fun hmem => hsite (hbalanced.read_known _ hmem)]
      exact Nat.zero_le _

/-- In a run in which no counter saturates, the calls that missed, were resolved or were served are
the calls that read a slot, the calls that missed are those that the records of all sites there have
been say missed there, and the transitions are the sites that have become virtual. -/
theorem calls_accounted_for (hcreate : Machine.create config = .ok machine)
    (requests : List Request) (hfits : (Execution.mk machine []).Unsaturated requests) :
    let execution := Execution.mk machine []
    let past := execution.machines requests
    let stats := (execution.run requests).machine.stats
    stats.slowPathCalls + stats.virtualCalls + stats.fastPathHits
        = (execution.readings requests).length ∧
      stats.slowPathCalls = ∑ site ∈ sitesOf past, missedAt past site ∧
      stats.virtualTransitions = (virtualSites past).card := by
  obtain ⟨turned, hbalanced⟩ := run_balanced hcreate requests
  have hexact := fun passage =>
    (hbalanced.taken passage).trans (Nat.min_eq_left (hfits.taken passage))
  refine ⟨?_, (hexact .missed).trans ?_, ?_⟩
  · rw [← countP_passages, ← hexact .missed, ← hexact .resolved, ← hexact .served]
    rfl
  · rw [← sum_missed hbalanced.read_known]
    refine Finset.sum_congr rfl fun site _ => ?_
    rw [hbalanced.missed, Nat.min_eq_left (hfits.missed site)]
  · have hfew := hfits.transitions
    rw [hbalanced.card_virtualSites] at hfew ⊢
    rw [hbalanced.transitions, Nat.min_eq_left hfew]

/-- A function calls itself twice at its first site, and at its second site a callable object and
then itself. Its code is discarded, and the new code calls the function once more. -/
def nestedCalls : List Request :=
  let function : Value := .cell ⟨1, 0⟩
  [.order (.allocateExecutable
     { name := "f", entry := ⟨0⟩, sites := [⟨.call, 0⟩, ⟨.call, 1⟩] }),
   .order (.createClosure ⟨0, 0⟩ {} []),
   .order (.createObject (some ⟨7⟩)),
   .hostCall function .undefined [] .call,
   .siteCall ⟨⟨⟨1⟩, 0⟩, function, .undefined, [], false⟩,
   .siteCall ⟨⟨⟨1⟩, 0⟩, function, .undefined, [], false⟩,
   .siteCall ⟨⟨⟨1⟩, 1⟩, .cell ⟨2, 0⟩, .undefined, [], false⟩,
   .finish (.ok .undefined),
   .siteCall ⟨⟨⟨1⟩, 1⟩, function, .undefined, [], false⟩,
   .order (.jettison ⟨1⟩),
   .hostCall function .undefined [] .call,
   .siteCall ⟨⟨⟨2⟩, 0⟩, function, .undefined, [], false⟩]

theorem calls_accounted_for_when_nested :
    let execution := Execution.mk
      { config := {}, heap := { settings := ({} : Config).heapSettings } } []
    let past := execution.machines nestedCalls
    let stats := (execution.run nestedCalls).machine.stats
    execution.Unsaturated nestedCalls ∧ stats.taken .missed = 3 ∧ stats.taken .resolved = 1 ∧
      stats.taken .served = 1 ∧ stats.virtualTransitions = 1 ∧
      (execution.readings nestedCalls).length = 5 ∧
      ∑ site ∈ sitesOf past, missedAt past site = 3 ∧ (virtualSites past).card = 1 := by
  have hcreate : Machine.create {}
      = .ok { config := {}, heap := { settings := ({} : Config).heapSettings } } := rfl
  generalize hmachine : Machine.mk _ _ _ _ _ _ _ _ _ = machine at hcreate ⊢
  have hcounts : let stats := ((Execution.mk machine []).run nestedCalls).machine.stats
      stats.taken .missed = 3 ∧ stats.taken .resolved = 1 ∧ stats.taken .served = 1 ∧
        stats.virtualTransitions = 1 := by
    rw [← hmachine]
    decide +kernel
  obtain ⟨hmissed, hresolved, hserved, hturned⟩ := hcounts
  have hfits : (Execution.mk machine []).Unsaturated nestedCalls := by
    refine unsaturated_of_lt hcreate (fun passage => ?_) ?_ ?_
    · cases passage with
      | missed => rw [hmissed]; decide
      | resolved => rw [hresolved]; decide
      | served => rw [hserved]; decide
    · rw [hturned]
      decide
    · rw [← hmachine]
      decide +kernel
  obtain ⟨hlength, hsum, hcard⟩ := calls_accounted_for hcreate nestedCalls hfits
  refine ⟨hfits, hmissed, hresolved, hserved, hturned, ?_, ?_, ?_⟩
  · rw [← hlength]
    show Stats.taken _ .missed + Stats.taken _ .resolved + Stats.taken _ .served = 5
    rw [hmissed, hresolved, hserved]
  · rw [← hsum]
    exact hmissed
  · rw [← hcard, hturned]

end Execution

end InlineCache
