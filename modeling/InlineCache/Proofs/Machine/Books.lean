import InlineCache.Proofs.Machine.Counters

/-!
# The books of a machine

A machine counts how its calls go on from the slots that they read, and how often a site gives up.
Besides, each record counts the calls that missed at its site, and has or has not given up. Calls
at sites and the barring of stubs write in these books. Everything else leaves them as they are, up
to the sites that come with new code and go with discarded code.
-/

namespace InlineCache

/-- How a call goes on from the slot that it has read. -/
inductive Passage where
  /-- The slot has nothing for the callee, and the call takes the slow path. -/
  | missed
  /-- The site has given up, and the callee is resolved. -/
  | resolved
  /-- The slot sends the call on. -/
  | served
deriving DecidableEq, Repr

/-- The counter of the calls that go on in a certain way. -/
def Stats.taken (stats : Stats) : Passage → Nat
  | .missed => stats.slowPathCalls
  | .resolved => stats.virtualCalls
  | .served => stats.fastPathHits

/-- The counters of calls at sites, and of the sites that gave up. -/
def Stats.written (stats : Stats) : (Passage → Nat) × Nat :=
  (stats.taken, stats.virtualTransitions)

/-- What the record of a site says of its calls. A new site has had none. -/
structure Account where
  missed : Nat := 0
  gaveUp : Bool := false

namespace Link

def account (link : Link) : Account := ⟨link.slowPathCount, link.mode == .virtual⟩

variable {link after : Link}

theorem Loosens.account_eq (h : link.Loosens after)
    (hcount : after.slowPathCount = link.slowPathCount) : after.account = link.account := by
  rw [account, account, hcount]
  rcases h.mode with ⟨hmode, _⟩ | ⟨hinit, hlinked⟩
  · rw [hmode]
  · rw [hinit, beq_false_of_ne hlinked]
    rfl

theorem unlink_slowPathCount (link : Link) :
    link.unlink.link.slowPathCount = link.slowPathCount := by
  obtain ⟨site, hunlinked⟩ := unlink_link link
  rw [hunlinked]

theorem revert_account (link : Link) : link.revert.link.account = link.account := by
  refine (revert_loosens link).account_eq ?_
  rw [revert]
  split
  · rfl
  · rfl
  all_goals exact unlink_slowPathCount link

theorem retarget_account (link : Link) (old : CodeId) (new : Option CodePointer) :
    (link.retarget old new).2.link.account = link.account := by
  refine (retarget_loosens link old new).account_eq ?_
  unfold retarget
  split
  · rfl
  · rcases link.state with _ | ⟨⟨_ | cell⟩, target⟩ | stub | _ | ⟨executable, target⟩ <;>
      rcases new with _ | pointer
    case polymorphic.none =>
      dsimp only
      split
      · exact unlink_slowPathCount link
      · rfl
    all_goals first
      | rfl
      | exact unlink_slowPathCount link

theorem visitState_slowPathCount (link : Link) (isLive : Cell → Bool) :
    (link.visitState isLive).2.link.slowPathCount = link.slowPathCount := by
  rw [visitState]
  split
  · split
    · exact unlink_slowPathCount _
    · rfl
  · split
    · exact unlink_slowPathCount _
    · rfl
  · split
    · rfl
    · dsimp only
      split
      · exact unlink_slowPathCount link
      · rfl
  · rfl
  · rfl

theorem visitWeak_account (link : Link) (isLive : Cell → Bool) :
    (link.visitWeak isLive).2.link.account = link.account := by
  refine (visitWeak_loosens link isLive).account_eq ?_
  obtain ⟨lastCallee, hforgotten⟩ := forgetDeadCallee_link link isLive
  have hvisited := visitState_slowPathCount (link.forgetDeadCallee isLive).link isLive
  rw [hforgotten] at hvisited
  rw [visitWeak, hforgotten]
  exact hvisited

end Link

namespace CodeTable

variable {table : CodeTable} {id : CodeId} {site : SiteRef}

/-- What the record of a site says of its calls, if the site is there. -/
def account? (table : CodeTable) (site : SiteRef) : Option Account :=
  (table.link? site).map Link.account

theorem account?_of_link {link : Link} (h : table.link? site = some link) :
    table.account? site = some link.account := by
  rw [account?, h, Option.map_some]

theorem Numbered.bounded_of_account? (h : table.Numbered) {account : Account}
    (hsite : table.account? site = some account) : site.caller.number ≤ table.lastNumber := by
  obtain ⟨link, hlink, _⟩ := Option.map_eq_some_iff.mp hsite
  obtain ⟨caller, hcaller, _⟩ := link?_eq_some_iff.mp hlink
  rw [← id_of_get? hcaller]
  exact h.bounded caller (mem_of_get? hcaller)

theorem account?_setLink_self {link : Link} (changed : Link) (h : table.link? site = some link) :
    (table.setLink site changed).account? site = some changed.account :=
  account?_of_link (link?_setLink_self changed h)

theorem account?_setLink_of_ne {elsewhere : SiteRef} (changed : Link) (hne : elsewhere ≠ site) :
    (table.setLink site changed).account? elsewhere = table.account? elsewhere := by
  rw [account?, account?, link?_setLink_of_ne changed hne]

theorem account?_setLink {link changed : Link} (h : table.link? site = some link)
    (hsame : changed.account = link.account) :
    (table.setLink site changed).account? = table.account? := by
  funext elsewhere
  by_cases heq : elsewhere = site
  · rw [heq, account?_setLink_self changed h, hsame, account?_of_link h]
  · exact account?_setLink_of_ne changed heq

/-- Sites that are found in the same blocks as before, with the same accounts. -/
theorem account?_of_blocks {after : CodeTable}
    (h : ∀ id, (after.get? id).map (fun block => block.links.map Link.account)
      = (table.get? id).map fun block => block.links.map Link.account) :
    after.account? = table.account? := by
  have hview : ∀ (table : CodeTable) (site : SiteRef), table.account? site =
      ((table.get? site.caller).map fun block => block.links.map Link.account).bind
        fun accounts => accounts[site.index]? := by
    intro table site
    rw [account?, link?]
    rcases table.get? site.caller with _ | caller
    · rfl
    · exact List.getElem?_map.symm
  funext site
  rw [hview, hview, h]

theorem account?_update {change : Block → Block} (hid : ∀ block, (change block).id = block.id)
    (hlinks : ∀ block, table.get? id = some block →
      (change block).links.map Link.account = block.links.map Link.account) :
    (table.update id change).account? = table.account? := by
  refine account?_of_blocks fun other => ?_
  rw [get?_update hid]
  rcases hfound : table.get? other with _ | found
  · rfl
  · have hother := id_of_get? hfound
    rw [Option.map_some, Option.map_some, Option.map_some]
    split
    · rename_i heq
      rw [hlinks found (by rw [← heq, hother]; exact hfound)]
    · rfl

theorem visitLink_written (isLive : Cell → Bool) (link : Link) (stats : Stats) :
    (visitLink isLive link stats).2.written = stats.written := by
  rw [visitLink]
  rcases link.visitWeak isLive with ⟨_ | _ | _, edit⟩ <;> rfl

theorem account?_visitWeak (isLive : Cell → Bool) (stats : Stats) :
    (table.visitWeak isLive stats).1.account? = table.account? := by
  funext site
  rw [account?, account?, link?_visitWeak, Option.map_map]
  congr 1
  funext link
  exact link.visitWeak_account isLive

theorem account?_pruneIncoming : table.pruneIncoming.2.account? = table.account? := by
  funext site
  rw [account?, account?, link?_pruneIncoming]

theorem account?_noteIncoming (codes : List CodeId) :
    (table.noteIncoming codes site).account? = table.account? := by
  funext elsewhere
  rw [account?, account?, link?_noteIncoming]

theorem account?_remove {account : Account} (h : (table.remove id).account? site = some account) :
    table.account? site = some account := by
  obtain ⟨link, hlink, rfl⟩ := Option.map_eq_some_iff.mp h
  rw [link?_remove_of_ne (ne_of_link?_remove hlink)] at hlink
  exact account?_of_link hlink

end CodeTable

/-- A counter within its limit has gone up by an amount, up to the limit. -/
def CountsBy (limit amount before after : Nat) : Prop :=
  before ≤ limit → after = addUpTo limit before amount

namespace CountsBy

variable {limit before middle after first second : Nat}

theorem refl (limit counter : Nat) : CountsBy limit 0 counter counter :=
  fun hbefore => (addUpTo_zero hbefore).symm

theorem of_eq (h : after = before) : CountsBy limit 0 before after := h ▸ refl limit before

theorem trans (hleft : CountsBy limit first before middle)
    (hright : CountsBy limit second middle after) :
    CountsBy limit (first + second) before after := by
  intro hbefore
  have hmiddle := hleft hbefore
  rw [hright (hmiddle ▸ addUpTo_le _ _ _), hmiddle, addUpTo_addUpTo]

end CountsBy

/-- A call has read the slot of a site, and has gone on from there. -/
structure Reading where
  site : SiteRef
  passage : Passage
deriving DecidableEq, Repr

/-- What a machine has counted of its calls and sites. -/
structure Books where
  taken : Passage → Nat
  transitions : Nat
  lastNumber : Nat
  account? : SiteRef → Option Account

namespace Machine

def books (machine : Machine) : Books :=
  ⟨machine.stats.taken, machine.stats.virtualTransitions, machine.code.lastNumber,
    machine.code.account?⟩

theorem books_of {before after : Machine} (hwritten : after.stats.written = before.stats.written)
    (hlast : after.code.lastNumber = before.code.lastNumber)
    (haccounts : after.code.account? = before.code.account?) : after.books = before.books := by
  obtain ⟨htaken, htransitions⟩ := Prod.mk.inj hwritten
  rw [books, books, htaken, htransitions, hlast, haccounts]

/-- The account that a site has, or starts with if it is still to come. -/
def Opening (machine : Machine) (site : SiteRef) (account : Account) : Prop :=
  machine.code.account? site = some account ∨
    machine.code.lastNumber < site.caller.number ∧ account = {}

/-- Between two machines some slots were read and some sites gave up. The books say so, and nothing
else. -/
structure Accounts (read : List Reading) (turned : List SiteRef) (before after : Machine) :
    Prop where
  numbered : before.code.Numbered → after.code.Numbered
  lastNumber_le : before.code.lastNumber ≤ after.code.lastNumber
  taken : ∀ passage, CountsBy word64Max (read.countP fun reading => reading.passage = passage)
    (before.stats.taken passage) (after.stats.taken passage)
  transitions : CountsBy word64Max turned.length before.stats.virtualTransitions
    after.stats.virtualTransitions
  account : ∀ {site found}, after.code.account? site = some found →
    ∃ opening, before.Opening site opening ∧
      CountsBy word32Max (read.count ⟨site, .missed⟩) opening.missed found.missed ∧
      (found.gaveUp = true ↔ opening.gaveUp = true ∨ site ∈ turned)
  turned_open : ∀ site ∈ turned,
    ∃ account, before.code.account? site = some account ∧ account.gaveUp = false
  held : ∀ site, site ∈ turned ∨ site ∈ read.map Reading.site →
    ∃ account, after.code.account? site = some account

/-- Nothing was written in the books. -/
abbrev Idle (before after : Machine) : Prop := Accounts [] [] before after

namespace Accounts

variable {read more : List Reading} {turned later : List SiteRef} {before middle after : Machine}

theorem of_books (hnumbered : before.code.Numbered → after.code.Numbered)
    (h : after.books = before.books) : Idle before after := by
  obtain ⟨htaken, htransitions, hlast, haccounts⟩ := Books.mk.inj h
  refine ⟨hnumbered, Nat.le_of_eq hlast.symm, fun passage => .of_eq (congrFun htaken passage),
    .of_eq htransitions, fun {site found} hfound => ⟨found, .inl ?_, .refl _ _, by simp⟩,
    by simp, by simp⟩
  rw [← haccounts]
  exact hfound

theorem refl (machine : Machine) : Idle machine machine := of_books id rfl

/-- One stretch after the other. The sites that give up in the second are there from the start, and
those of the first are still there at the end. -/
theorem trans (hnumbered : before.code.Numbered) (hleft : Accounts read turned before middle)
    (hright : Accounts more later middle after)
    (hknown : ∀ site ∈ later, site.caller.number ≤ before.code.lastNumber)
    (hkept : ∀ site, site ∈ turned ∨ site ∈ read.map Reading.site →
      ∀ account, middle.code.account? site = some account →
        ∃ account, after.code.account? site = some account) :
    Accounts (read ++ more) (turned ++ later) before after where
  numbered := fun h => hright.numbered (hleft.numbered h)
  lastNumber_le := Nat.le_trans hleft.lastNumber_le hright.lastNumber_le
  taken := by
    intro passage
    rw [List.countP_append]
    exact (hleft.taken passage).trans (hright.taken passage)
  transitions := by
    rw [List.length_append]
    exact hleft.transitions.trans hright.transitions
  account := by
    intro site found hfound
    obtain ⟨between, hbetween, hcount, hgaveUp⟩ := hright.account hfound
    rw [List.count_append, List.mem_append]
    rcases hbetween with hthere | ⟨hlater, rfl⟩
    · obtain ⟨opening, hopening, hcount', hgaveUp'⟩ := hleft.account hthere
      refine ⟨opening, hopening, hcount'.trans hcount, ?_⟩
      rw [hgaveUp, hgaveUp', or_assoc]
    · -- a site that comes in the second stretch has no part in the first
      have habsent : ¬ (site ∈ turned ∨ site ∈ read.map Reading.site) := by
        intro htouched
        obtain ⟨account, haccount⟩ := hleft.held site htouched
        have hgiven := (hleft.numbered hnumbered).bounded_of_account? haccount
        exact Nat.not_lt.mpr hgiven hlater
      rw [not_or] at habsent
      have hunread : read.count ⟨site, .missed⟩ = 0 :=
        List.count_eq_zero.mpr fun hmem => habsent.2 (List.mem_map_of_mem hmem)
      refine ⟨{}, .inr ⟨Nat.lt_of_le_of_lt hleft.lastNumber_le hlater, rfl⟩, ?_, ?_⟩
      · rw [hunread, Nat.zero_add]
        exact hcount
      · rw [hgaveUp]
        simp [habsent.1]
  turned_open := by
    intro site hsite
    rcases List.mem_append.mp hsite with hfirst | hsecond
    · exact hleft.turned_open site hfirst
    · obtain ⟨account, haccount, hopen⟩ := hright.turned_open site hsecond
      obtain ⟨opening, hthere | ⟨hlater, _⟩, _, hgaveUp⟩ := hleft.account haccount
      · refine ⟨opening, hthere, Bool.eq_false_iff.mpr fun hclosed => ?_⟩
        rw [hgaveUp.mpr (.inl hclosed)] at hopen
        cases hopen
      · exact absurd (hknown site hsecond) (Nat.not_le.mpr hlater)
  held := by
    intro site hsite
    rw [List.mem_append, List.map_append, List.mem_append] at hsite
    by_cases hfirst : site ∈ turned ∨ site ∈ read.map Reading.site
    · obtain ⟨account, haccount⟩ := hleft.held site hfirst
      exact hkept site hfirst account haccount
    · refine hright.held site ?_
      tauto

/-- What is idle before it can be added to any stretch. -/
theorem after_idle (hnumbered : before.code.Numbered) (hleft : Idle before middle)
    (hright : Accounts read turned middle after)
    (hknown : ∀ site ∈ turned, site.caller.number ≤ before.code.lastNumber) :
    Accounts read turned before after :=
  hleft.trans hnumbered hright hknown (by simp)

theorem idle_trans (hnumbered : before.code.Numbered) (hleft : Idle before middle)
    (hright : Idle middle after) : Idle before after :=
  after_idle hnumbered hleft hright (by simp)

end Accounts

/-! ### Code -/

open CodeTable

variable (machine : Machine) (old : CodeId) (site : SiteRef)

theorem retargetSite_books (new : Option CodePointer) :
    (machine.retargetSite old new site).2.books = machine.books := by
  rw [retargetSite]
  rcases hlink : machine.code.link? site with _ | link
  · rfl
  · exact congrArg (Books.mk _ _ _) (account?_setLink hlink (link.retarget_account old new))

theorem upgradeSite_books (new : CodePointer) :
    (machine.upgradeSite old site new).books = machine.books := by
  rw [← retargetSite_books machine old site (some new), upgradeSite]
  rcases machine.retargetSite old (some new) site with ⟨_ | _ | _ | _, moved⟩
  · rfl
  · refine congrArg (Books.mk _ _ _) (account?_update (fun _ => Block.addIncoming_id _ _) ?_)
    intro block _
    rw [Block.addIncoming_links]
  · rfl
  · rfl

theorem dropSite_books : (machine.dropSite old site).books = machine.books := by
  rw [← retargetSite_books machine old site none, dropSite]
  rcases machine.retargetSite old none site with ⟨_ | _ | _ | _, moved⟩ <;> rfl

theorem clearIncoming_books : (machine.clearIncoming old).books = machine.books :=
  congrArg (Books.mk _ _ _) (account?_update (fun _ => rfl) fun _ _ => rfl)

theorem revertLinks_books : (machine.revertLinks old).books = machine.books := by
  rw [revertLinks]
  rcases hblock : machine.code.get? old with _ | block
  · rfl
  · refine congrArg (Books.mk _ _ _) (account?_update (fun _ => rfl) fun found hfound => ?_)
    rw [← Option.some.inj (hblock.symm.trans hfound), List.map_map, List.map_map]
    exact List.map_congr_left fun link _ => link.revert_account

theorem releaseCode_books (block : Block) : (machine.releaseCode block).books = machine.books := by
  rw [releaseCode]
  rcases machine.heap.executable? block.owner with _ | executable
  · rfl
  · dsimp only
    split <;> rfl

theorem sweepHeap_books : machine.sweepHeap.2.books = machine.books := by
  have hwritten : ∀ isLive,
      (machine.code.visitWeak isLive machine.stats).2.2.written = machine.stats.written :=
    fun isLive => visitBlocks_view (visitLink_written isLive) _ _
  have haccounts : ∀ isLive,
      (machine.code.visitWeak isLive machine.stats).1.account? = machine.code.account? :=
    fun isLive => account?_visitWeak isLive _
  rw [sweepHeap]
  by_cases hmarking : machine.heap.isMarking = true
  · simp only [hmarking, if_true]
    exact books_of (hwritten _) rfl (haccounts _)
  · simp only [hmarking]
    exact books_of (hwritten _) rfl (haccounts _)

/-- The sites of new code have had no calls. -/
theorem account_of_assembled {request : Compilation} {labels : List Locations} {index : Nat}
    {link : Link} (h : (machine.assembled request labels).links[index]? = some link) :
    link.account = {} := by
  obtain ⟨pair, _, rfl⟩ := List.mem_map.mp (List.mem_of_getElem? h)
  rfl

theorem compiled_idle (hnumbered : machine.code.Numbered) (request : Compilation)
    (labels : List Locations) : Idle machine (machine.compiled request labels) where
  numbered := (compiled_evolves machine request labels).numbered
  lastNumber_le := Nat.le_succ _
  taken := fun passage => .refl _ _
  transitions := .refl _ _
  account := by
    intro site found hfound
    obtain ⟨link, hlink, rfl⟩ := Option.map_eq_some_iff.mp hfound
    refine ⟨link.account, ?_, .refl _ _, by simp⟩
    by_cases hnew : site.caller = machine.nextCode
    · right
      obtain ⟨caller, hcaller, hindex⟩ := link?_eq_some_iff.mp hlink
      have hself : (machine.code.append (machine.assembled request labels)).get? machine.nextCode
          = some (machine.assembled request labels) := hnumbered.get?_append_self rfl
      rw [hnew] at hcaller
      obtain rfl := Option.some.inj (hself.symm.trans hcaller)
      rw [hnew]
      exact ⟨Nat.lt_succ_self _, machine.account_of_assembled hindex⟩
    · left
      have hsame : (machine.code.append (machine.assembled request labels)).get? site.caller
          = machine.code.get? site.caller := get?_append_of_ne rfl hnew
      refine account?_of_link ?_
      rw [← hlink, link?, ← hsame]
      rfl
  turned_open := by simp
  held := by simp

theorem remove_idle {after : Machine} (hcode : after.code = machine.code.remove old)
    (hstats : after.stats = machine.stats) : Idle machine after where
  numbered := fun h => hcode ▸ h.remove
  lastNumber_le := Nat.le_of_eq (congrArg CodeTable.lastNumber hcode).symm
  taken := fun passage => .of_eq (by rw [hstats])
  transitions := .of_eq (by rw [hstats])
  account := by
    intro site found hfound
    rw [hcode] at hfound
    exact ⟨found, .inl (account?_remove hfound), .refl _ _, by simp⟩
  turned_open := by simp
  held := by simp

theorem replaced_idle (hnumbered : machine.code.Numbered) (block : Block)
    (executable : Executable) (entry : Entry) (tier : Tier) (labels : List Locations) :
    Idle machine (machine.replaced block executable entry tier labels) := by
  refine .idle_trans hnumbered
    (machine.compiled_idle hnumbered (block.replacement executable entry tier) labels)
    (.of_books (replaced_evolves_compiled machine block executable entry tier labels).numbered ?_)
  rw [replaced, upgradeSites_eq_foldl]
  refine (foldl_view (fun machine site => ?_) _ _).trans (clearIncoming_books _ _)
  exact machine.upgradeSite_books block.id site _

theorem jettison_idle (hnumbered : machine.code.Numbered) (block : Block) :
    Idle machine (machine.jettison block) := by
  obtain ⟨dropped, hdropped⟩ : ∃ dropped, dropped = (block.incoming.foldl
    (fun machine site => machine.dropSite block.id site) (machine.clearIncoming block.id)) :=
    ⟨_, rfl⟩
  have hsame : dropped.books = machine.books := by
    rw [hdropped]
    refine (foldl_view (fun machine site => ?_) _ _).trans (clearIncoming_books _ _)
    exact machine.dropSite_books block.id site
  have hstill : dropped.code.Numbered := by
    rw [hdropped]
    exact ((clearIncoming_evolves machine block.id).trans (foldl_evolves _
      (fun machine site => dropSite_evolves machine block.id site) _)).numbered hnumbered
  have hreleased : Idle machine ((dropped.revertLinks block.id).releaseCode block) := by
    refine .of_books (fun _ => ?_) ?_
    · rw [releaseCode_code]
      exact (revertLinks_evolves dropped block.id hstill).numbered hstill
    · rw [releaseCode_books, revertLinks_books, hsame]
  refine .idle_trans hnumbered hreleased ?_
  rw [jettison, ← hdropped]
  exact remove_idle _ block.id rfl rfl

end Machine

/-! ### Operations -/

namespace MachineM

open Machine

variable {α β : Type}

/-- If nothing is written in two steps, nothing is written. -/
theorem idleChains : Chains fun before after => before.code.Numbered → Idle before after where
  refl := fun machine _ => .refl machine
  trans := fun hfirst hsecond hnumbered =>
    have hidle := hfirst hnumbered
    hidle.idle_trans hnumbered (hsecond (hidle.numbered hnumbered))

/-- The operation writes nothing in the books. -/
def Silent (operation : MachineM α) : Prop :=
  Follows (fun before after => before.code.Numbered → Idle before after) operation

namespace Silent

theorem of_keeps {operation : MachineM α}
    (h : Keeps (fun machine => (machine.code, machine.stats.written)) operation) :
    Silent operation := by
  intro machine
  obtain ⟨hcode, hwritten⟩ := Prod.mk.inj (h machine)
  refine fun hnumbered => .of_books (fun _ => hcode ▸ hnumbered) (books_of hwritten ?_ ?_)
  · rw [hcode]
  · rw [hcode]

theorem of_modify {change : Machine → Machine}
    (h : ∀ machine : Machine, machine.code.Numbered → Idle machine (change machine)) :
    Silent (modify change : MachineM PUnit) := h

theorem of_look (look : Machine → Except MachineError α) : Silent (MachineM.look look) :=
  .of_keeps (.of_look look)

theorem bind {operation : MachineM α} {next : α → MachineM β} (h : Silent operation)
    (hnext : ∀ value, Silent (next value)) : Silent (operation >>= next) :=
  idleChains.bind h hnext

theorem map {operation : MachineM α} (change : α → β) (h : Silent operation) :
    Silent (change <$> operation) :=
  Follows.map change h

end Silent

theorem ensureCode_silent (owner : Cell) (realm : Realm) (kind : Specialization) :
    Silent (ensureCode owner realm kind) := by
  intro machine hnumbered
  have hcases := ensureCode_cases machine owner realm kind
  generalize (ensureCode owner realm kind).exec machine = outcome at hcases ⊢
  cases hcases with
  | failed => exact .refl machine
  | current => exact .refl machine
  | @compiled executable labels =>
      have hidle := machine.compiled_idle hnumbered (executable.baseline owner realm kind) labels
      exact .idle_trans hnumbered hidle (.of_books id rfl)

theorem compileFunction_silent (function : Cell) (kind : Specialization) :
    Silent (compileFunction function kind) :=
  idleChains.compileFunction ensureCode_silent function kind

theorem replaceCode_silent (old : CodeId) (entry : Entry) (tier : Tier) :
    Silent (replaceCode old entry tier) := by
  intro machine hnumbered
  have hcases := replaceCode_cases machine old entry tier
  generalize (replaceCode old entry tier).exec machine = outcome at hcases ⊢
  cases hcases with
  | failed => exact .refl machine
  | @replaced block executable labels event =>
      have hidle := machine.replaced_idle hnumbered block executable entry tier labels
      exact .idle_trans hnumbered hidle (.of_books id rfl)

theorem jettisonCode_silent (id : CodeId) : Silent (jettisonCode id) :=
  .bind (.of_look _) fun block => .of_modify fun machine hnumbered =>
    machine.jettison_idle hnumbered block

theorem collect_silent : Silent collect := by
  refine idleChains.collect (fun machine hnumbered => ?_)
    jettisonCode_silent fun machine _ _ => ?_
  · refine .of_books (fun _ => ?_) machine.sweepHeap_books
    rw [sweepHeap_code]
    exact (CodeTable.Evolves.visitWeak _ _ _).numbered hnumbered
  · exact .of_books (CodeTable.Evolves.pruneIncoming _).numbered
      (books_of rfl rfl CodeTable.account?_pruneIncoming)

theorem safepoint_silent : Silent safepoint :=
  idleChains.safepoint collect_silent
    (fun _ _ => .of_books id rfl) fun _ _ => .of_books id rfl

theorem notCallable_silent (value : Value) (kind : Specialization) :
    Silent (notCallable value kind : MachineM α) :=
  .of_keeps fun _ => rfl

theorem resolve_silent (callee : Cell) (kind : Specialization) : Silent (resolve callee kind) :=
  idleChains.resolve (fun _ _ => .of_books id rfl)
    ensureCode_silent callee kind

theorem leave_silent (activation : Activation) (result : Except MachineError Value) :
    Silent (leave activation result) := by
  refine .of_keeps fun machine => ?_
  simp only [leave, exec_bind, exec_modify]
  rcases result with error | value
  · rfl
  · dsimp only
    split <;> rfl

end MachineM

end InlineCache
