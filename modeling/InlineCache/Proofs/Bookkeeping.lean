import InlineCache.Proofs.Machine.Books
import InlineCache.Proofs.Realms

/-!
# What calls write in the books

A call at a site that comes to read the slot is counted once, as what the slot makes of it: it is
served, or its callee is resolved because the site has given up, or it misses. A call that misses
is also counted at its site, and then links it. A site gives up when it is linked or when stubs are
barred there, and that is counted when it happens and never again.
-/

namespace InlineCache

/-- How a call of a callee goes on from a slot. -/
def Target.passage (target : Target) (heap : Heap Entity) (callee : Cell) : Passage :=
  if target = .virtual then .resolved
  else if (target.fast? heap callee).isSome then .served
  else .missed

/-! ### Linking -/

namespace Link

variable {link after : Link}

theorem Tightens.account_eq (h : link.Tightens after)
    (hcount : after.slowPathCount = link.slowPathCount) : after.account = link.account := by
  rw [account, account, hcount, beq_false_of_ne h.linked, beq_false_of_ne h.notVirtual]

theorem setMonomorphic_account {owner callee : Cell} {target : CodePointer} {edit : Edit}
    (h : link.setMonomorphic owner callee target = .ok edit) :
    edit.link.account = link.account := by
  refine (setMonomorphic_tightens h).account_eq ?_
  rw [setMonomorphic] at h
  split at h
  · cases h
  · rw [← Except.ok.inj h]
    rfl

theorem setDirect_account {owner executable : Cell} {target : CodePointer} {edit : Edit}
    (h : link.setDirect owner executable target = .ok edit) :
    edit.link.account = link.account := by
  refine (setDirect_tightens h).account_eq ?_
  rw [setDirect] at h
  split at h
  · cases h
  · rw [← Except.ok.inj h]
    rfl

theorem setStub_account {owner : Cell} {stub : Stub} {edit : Edit}
    (h : link.setStub owner stub = .ok edit) : edit.link.account = link.account := by
  refine (setStub_tightens h).account_eq ?_
  rw [setStub] at h
  split at h
  · cases h
  · split at h
    · cases h
    · rw [← Except.ok.inj h]
      rfl

theorem setVirtual_slowPathCount (link : Link) :
    link.setVirtual.link.slowPathCount = link.slowPathCount := by
  rw [setVirtual]
  split <;> rfl

theorem setVirtual_account (link : Link) :
    link.setVirtual.link.account = ⟨link.slowPathCount, true⟩ := by
  rw [account, setVirtual_link_mode, setVirtual_slowPathCount]
  rfl

theorem gaveUp_iff : link.account.gaveUp = true ↔ link.mode = .virtual := by
  rw [account, beq_iff_eq]

end Link

namespace Linker

/-- The linker leaves a site open or given up as it is, or makes an open site give up and counts
that. -/
inductive Settles (before after : Linker) : Prop where
  | kept (hwritten : after.stats.written = before.stats.written)
      (haccount : after.link.account = before.link.account)
  | turned (hwritten : after.stats.written
        = (before.stats.taken, tick64 before.stats.virtualTransitions))
      (hopen : before.link.account.gaveUp = false)
      (haccount : after.link.account = ⟨before.link.account.missed, true⟩)

theorem goVirtual_settles (linker : Linker) (reason : VirtualReason) :
    linker.Settles (linker.goVirtual reason) := by
  rw [goVirtual]
  split
  · exact .kept rfl rfl
  · rename_i hopen
    exact .turned rfl (Bool.eq_false_iff.mpr fun h => hopen (Link.gaveUp_iff.mp h))
      linker.link.setVirtual_account

theorem linkPolymorphic_settles (linker : Linker) (heap : Heap Entity) (owner : Cell)
    (capacity : Nat) (callee : Resolved) :
    linker.Settles (linker.linkPolymorphic heap owner capacity callee).2 := by
  rw [linkPolymorphic]
  split
  · exact goVirtual_settles linker _
  · dsimp only
    split
    · -- taking a number for the stub changes neither the record nor the statistics
      cases goVirtual_settles { linker with lastStub := linker.lastStub.next }
        .capacityExceeded with
      | kept hwritten haccount => exact .kept hwritten haccount
      | turned hwritten hopen haccount => exact .turned hwritten hopen haccount
    · have hwritten : (if linker.link.mode = LinkMode.monomorphic
          then { linker.stats with polymorphicLinks := tick64 linker.stats.polymorphicLinks }
          else { linker.stats with
            stubRegenerations := tick64 linker.stats.stubRegenerations }).written
          = linker.stats.written := by
        split <;> rfl
      split
      · rename_i hset
        exact .kept hwritten (Link.setStub_account hset)
      · exact .kept hwritten rfl

theorem linkDirect_settles (linker : Linker) (owner : Cell) (callee : Resolved) :
    linker.Settles (linker.linkDirect owner callee).2 := by
  rw [linkDirect]
  split
  · exact .kept rfl rfl
  · split
    · rename_i hset
      exact .kept rfl (Link.setDirect_account hset)
    · exact .kept rfl rfl

theorem linkCall_settles (linker : Linker) (heap : Heap Entity) (owner : Cell) (capacity : Nat)
    (callee : Resolved) :
    linker.Settles (linker.linkCall heap owner capacity callee).2 := by
  rw [linkCall]
  split
  · exact linkDirect_settles linker owner callee
  · split
    · split
      · rename_i hset
        exact .kept rfl (Link.setMonomorphic_account hset)
      · exact .kept rfl rfl
    · exact linkPolymorphic_settles linker heap owner capacity callee
    · exact linkPolymorphic_settles linker heap owner capacity callee
    · exact .kept rfl rfl
    · exact .kept rfl rfl

end Linker

/-! ### Writing in the books -/

/-- A call that has read a slot is counted once, as what it is. -/
theorem CountsBy.of_reading {before after : Stats} {site : SiteRef} {kind : Passage}
    (hcounted : after.taken kind = tick64 (before.taken kind))
    (hothers : ∀ passage, passage ≠ kind → after.taken passage = before.taken passage)
    (passage : Passage) :
    CountsBy word64Max ([Reading.mk site kind].countP fun reading => reading.passage = passage)
      (before.taken passage) (after.taken passage) := by
  by_cases hkind : passage = kind
  · rw [hkind, List.countP_singleton, if_pos (decide_eq_true rfl)]
    exact fun _ => hcounted
  · rw [List.countP_singleton, if_neg (by simpa using Ne.symm hkind)]
    exact .of_eq (hothers passage hkind)

namespace Machine.Accounts

open CodeTable

variable {read : List Reading} {turned : List SiteRef} {before middle after : Machine}
  {site : SiteRef} {link changed : Link}

/-- What follows without a trace in the books can be added. -/
theorem before_same (h : Accounts read turned before middle)
    (hnumbered : middle.code.Numbered → after.code.Numbered) (hsame : after.books = middle.books) :
    Accounts read turned before after := by
  obtain ⟨htaken, htransitions, hlast, haccounts⟩ := Books.mk.inj hsame
  exact
    { numbered := fun hbefore => hnumbered (h.numbered hbefore)
      lastNumber_le := hlast ▸ h.lastNumber_le
      taken := htaken ▸ h.taken
      transitions := htransitions ▸ h.transitions
      account := haccounts ▸ h.account
      turned_open := h.turned_open
      held := haccounts ▸ h.held }

/-- All that is written is written at one site. -/
theorem of_write (hlink : before.code.link? site = some link)
    (hcode : after.code = before.code.setLink site changed)
    (htaken : ∀ passage, CountsBy word64Max (read.countP fun reading => reading.passage = passage)
      (before.stats.taken passage) (after.stats.taken passage))
    (htransitions : CountsBy word64Max turned.length before.stats.virtualTransitions
      after.stats.virtualTransitions)
    (hmissed : CountsBy word32Max (read.count ⟨site, .missed⟩) link.account.missed
      changed.account.missed)
    (hgaveUp : changed.account.gaveUp = true ↔ link.account.gaveUp = true ∨ site ∈ turned)
    (hread : ∀ reading ∈ read, reading.site = site) (hturned : ∀ other ∈ turned, other = site)
    (hopen : site ∈ turned → link.account.gaveUp = false) : Accounts read turned before after where
  numbered := fun h => hcode ▸ h.setLink changed
  lastNumber_le := Nat.le_of_eq (congrArg CodeTable.lastNumber hcode).symm
  taken := htaken
  transitions := htransitions
  account := by
    intro other found hfound
    rw [hcode] at hfound
    by_cases heq : other = site
    · subst heq
      rw [account?_setLink_self changed hlink] at hfound
      rw [← Option.some.inj hfound]
      exact ⟨link.account, .inl (account?_of_link hlink), hmissed, hgaveUp⟩
    · have hunread : read.count ⟨other, .missed⟩ = 0 :=
        List.count_eq_zero.mpr fun hmem => heq (hread _ hmem)
      rw [account?_setLink_of_ne changed heq] at hfound
      refine ⟨found, .inl hfound, ?_, ?_⟩
      · rw [hunread]
        exact .refl _ _
      · exact (or_iff_left fun hmem => heq (hturned other hmem)).symm
  turned_open := by
    intro other hother
    obtain rfl := hturned other hother
    exact ⟨link.account, account?_of_link hlink, hopen hother⟩
  held := by
    intro other hother
    have heq : other = site := by
      rcases hother with hother | hother
      · exact hturned other hother
      · obtain ⟨reading, hreading, rfl⟩ := List.mem_map.mp hother
        exact hread reading hreading
    rw [heq, hcode]
    exact ⟨changed.account, account?_setLink_self changed hlink⟩

end Machine.Accounts

namespace MachineM

open Machine CodeTable

variable {before : Machine} {site : SiteRef} {link : Link}

/-- Some slots were read. At most this site has given up, and it is still there. -/
def WritesAt (site : SiteRef) (read : List Reading) (before after : Machine) : Prop :=
  ∃ turned : List SiteRef, turned.Sublist [site] ∧ Accounts read turned before after ∧
    ∃ account, after.code.account? site = some account

theorem WritesAt.before_same {read : List Reading} {middle after : Machine}
    (h : WritesAt site read before middle)
    (hnumbered : middle.code.Numbered → after.code.Numbered) (hsame : after.books = middle.books) :
    WritesAt site read before after := by
  obtain ⟨turned, hturned, haccounts, account, haccount⟩ := h
  refine ⟨turned, hturned, haccounts.before_same hnumbered hsame, account, ?_⟩
  rw [← haccount]
  exact congrFun (congrArg Books.account? hsame) site

/-- The slot of a site is read before the site is linked. -/
theorem WritesAt.after_reading {read : List Reading} {origin after : Machine} {account : Account}
    (h : WritesAt site [] before after) (hnumbered : origin.code.Numbered)
    (hthere : origin.code.account? site = some account)
    (hread : ∀ reading ∈ read, reading.site = site) (hbefore : Accounts read [] origin before) :
    WritesAt site read origin after := by
  obtain ⟨turned, hturned, haccounts, hstill⟩ := h
  have hjoined := hbefore.trans hnumbered haccounts (fun other hother => ?_)
    (fun other hother _ _ => ?_)
  · rw [List.append_nil] at hjoined
    exact ⟨turned, hturned, hjoined, hstill⟩
  · rw [List.mem_singleton.mp (hturned.subset hother)]
    exact hnumbered.bounded_of_account? hthere
  · rcases hother with hother | hother
    · cases hother
    · obtain ⟨reading, hreading, rfl⟩ := List.mem_map.mp hother
      rw [hread reading hreading]
      exact hstill

theorem runLinker_writes {linking : Linker → Except LinkError LinkOutcome × Linker}
    (hlink : before.code.link? site = some link)
    (h : ∀ linker : Linker, linker.Settles (linking linker).2) :
    WritesAt site [] before ((runLinker site link linking).exec before).2 := by
  rw [exec_runLinker]
  have hsettles := h { link, stats := before.stats, lastStub := before.lastStub }
  generalize (linking { link, stats := before.stats, lastStub := before.lastStub }).2 = linker
    at hsettles ⊢
  have hthere := account?_setLink_self linker.link hlink
  cases hsettles with
  | kept hwritten haccount =>
      obtain ⟨htaken, htransitions⟩ := Prod.mk.inj hwritten
      refine ⟨[], List.nil_sublist _, .of_write hlink rfl (fun passage => ?_) (.of_eq htransitions)
        ?_ ?_ (by simp) (by simp) (by simp), _, hthere⟩
      · exact .of_eq (congrFun htaken passage)
      · rw [haccount]
        exact .refl _ _
      · rw [haccount]
        simp
  | turned hwritten hopen haccount =>
      obtain ⟨htaken, htransitions⟩ := Prod.mk.inj hwritten
      refine ⟨[site], List.Sublist.refl _, .of_write hlink rfl (fun passage => ?_)
        (fun _ => htransitions) ?_ ?_ (by simp) (by simp) (fun _ => hopen), _, hthere⟩
      · exact .of_eq (congrFun htaken passage)
      · rw [haccount]
        exact .refl _ _
      · rw [haccount]
        simp

theorem linkFunction_writes (hlink : before.code.link? site = some link) (resolved : Resolved)
    (realm : Realm) :
    WritesAt site [] before ((linkFunction site resolved realm).exec before).2 := by
  simp only [linkFunction, exec_bind, MachineM.block, MachineM.link, exec_look, exec_get]
  rcases before.block site.caller with _ | block <;> dsimp only
  · exact ⟨[], List.nil_sublist _, .refl before, _, account?_of_link hlink⟩
  · rw [link_eq_ok_iff.mpr hlink]
    dsimp only
    generalize hrun : (runLinker site link _).exec before = outcome
    have hwrites : WritesAt site [] before outcome.2 := by
      rw [← hrun]
      refine runLinker_writes hlink fun linker => ?_
      split
      · exact linker.goVirtual_settles _
      · exact linker.linkCall_settles _ _ _ _
    rcases outcome with ⟨_ | targets | _ | _, linked⟩
    · exact hwrites
    · simp only [exec_modify, foldl_addIncoming]
      exact hwrites.before_same (Evolves.noteIncoming _ _ _).numbered
        (books_of rfl (lastNumber_noteIncoming _) (account?_noteIncoming _))
    · exact hwrites
    · exact hwrites

theorem account?_of_resolve (hnumbered : before.code.Numbered) (callee : Cell)
    (kind : Specialization) {account : Account} (h : before.code.account? site = some account) :
    ((resolve callee kind).exec before).2.code.account? site = some account := by
  obtain ⟨link, hlink, rfl⟩ := Option.map_eq_some_iff.mp h
  obtain ⟨caller, hcaller, hindex⟩ := link?_eq_some_iff.mp hlink
  exact account?_of_link (link?_eq_some_iff.mpr
    ⟨caller, resolve_get?_of_some hnumbered callee kind hcaller, hindex⟩)

/-- Once a slot has been read, resolving the callee leaves the books as they are. -/
theorem resolve_after_reading {read : List Reading} {origin : Machine} (callee : Cell)
    (kind : Specialization) (hnumbered : origin.code.Numbered)
    (h : Accounts read [] origin before) :
    Accounts read [] origin ((resolve callee kind).exec before).2 := by
  have hstill := h.numbered hnumbered
  have hresolved := h.trans hnumbered (resolve_silent callee kind before hstill) (by simp)
    fun site _ account haccount => ⟨account, account?_of_resolve hstill callee kind haccount⟩
  rwa [List.append_nil, List.append_nil] at hresolved

theorem exec_bind_pure {α β : Type} (operation : MachineM α) (value : β) (machine : Machine) :
    ((operation >>= fun _ => pure value).exec machine).2 = (operation.exec machine).2 := by
  rw [exec_bind]
  rcases operation.exec machine with ⟨_ | _, _⟩ <;> rfl

/-- A call that missed counts as such, once for the machine and once at its site. -/
theorem selectSlow_writes (hnumbered : before.code.Numbered)
    (hlink : before.code.link? site = some link) (call : Call) :
    WritesAt site [⟨site, .missed⟩] before ((selectSlow site call).exec before).2 := by
  rw [selectSlow_eq, exec_bind, exec_modify]
  dsimp only
  rw [exec_bind, MachineM.link, exec_look, link_eq_ok_iff.mpr (by exact hlink)]
  dsimp only
  rw [exec_bind, exec_modify]
  dsimp only
  generalize hrecorded : Machine.editLink _ site _ = recorded
  have hmissed : Accounts [⟨site, .missed⟩] [] before recorded := by
    rw [← hrecorded]
    refine .of_write hlink rfl (.of_reading rfl fun passage hother => ?_) (.refl _ _) ?_ ?_
      (by simp) (by simp) (by simp)
    · cases passage with
      | missed => exact absurd rfl hother
      | resolved => rfl
      | served => rfl
    · rw [List.count_singleton_self]
      exact fun _ => rfl
    · exact (or_iff_left (List.not_mem_nil)).symm
  have hresolved := resolve_after_reading call.callee call.kind hnumbered hmissed
  obtain ⟨account, haccount⟩ := hresolved.held site (by simp)
  rw [exec_bind]
  rcases hrun : (resolve call.callee call.kind).exec recorded
    with ⟨error | resolution, resolved⟩ <;> rw [hrun] at hresolved haccount <;> dsimp only
  · exact ⟨[], List.nil_sublist _, hresolved, account, haccount⟩
  · obtain ⟨found, hfound, _⟩ := Option.map_eq_some_iff.mp haccount
    refine WritesAt.after_reading ?_ hnumbered (account?_of_link hlink) (by simp) hresolved
    rcases resolution with ⟨callee, realm⟩ | entry <;> dsimp only
    · rw [exec_bind_pure]
      exact linkFunction_writes hfound callee realm
    · rw [exec_bind_pure, virtualize, exec_bind, MachineM.link, exec_look,
        link_eq_ok_iff.mpr hfound]
      dsimp only
      rw [exec_discard]
      exact runLinker_writes hfound fun linker => linker.goVirtual_settles _

theorem selectAtSite_of_virtual (hlink : before.code.link? site = some link)
    (htarget : link.site.target = .virtual) (call : Call) :
    (selectAtSite site call).exec before = (selectGeneric call).exec before.countVirtual := by
  rw [selectAtSite, CallPath.atSite, lift_eq, exec_bind, MachineM.link, exec_look,
    link_eq_ok_iff.mpr hlink]
  dsimp only
  rw [htarget]
  rfl

/-- A call that the slot serves leaves the account of the site as it is. -/
theorem selectFast_writes (hlink : before.code.link? site = some link) {changed : Link}
    (haccount : changed.account = link.account) {counted : Machine}
    (hcode : counted.code = before.code.setLink site changed)
    (hstats : counted.stats = before.stats) (pointer : CodePointer) :
    WritesAt site [⟨site, .served⟩] before ((selectFast pointer).exec counted).2 := by
  have hthere := account?_setLink_self changed hlink
  rw [← hcode] at hthere
  refine ⟨[], List.nil_sublist _, .of_write hlink hcode (.of_reading ?_ fun passage hother => ?_)
    (.of_eq ?_) ?_ ?_ (by simp) (by simp) (by simp), _, hthere⟩
  · rw [← hstats]
    rfl
  · rw [← hstats]
    cases passage with
    | missed => rfl
    | resolved => rfl
    | served => exact absurd rfl hother
  · rw [← hstats]
    rfl
  · rw [haccount, List.count_singleton, if_neg (by simp)]
    exact .refl _ _
  · rw [haccount]
    simp

/-- A call that reads a slot is counted as what the slot makes of it. -/
theorem selectAtSite_writes (hnumbered : before.code.Numbered)
    (hlink : before.code.link? site = some link) (call : Call) :
    WritesAt site [⟨site, link.site.target.passage before.heap call.callee⟩] before
      ((selectAtSite site call).exec before).2 := by
  have hsame : ∀ {found}, before.code.link? site = some found → found = link := fun hfound =>
    Option.some.inj (hfound.symm.trans hlink)
  by_cases htarget : link.site.target = .virtual
  · rw [Target.passage, if_pos htarget, selectAtSite_of_virtual hlink htarget,
      selectGeneric_eq, exec_map]
    have hcounted : Accounts [⟨site, .resolved⟩] [] before before.countVirtual := by
      refine .of_write hlink (hnumbered.setLink_self hlink).symm
        (.of_reading rfl fun passage hother => ?_) (.refl _ _) ?_ ?_ (by simp) (by simp) (by simp)
      · cases passage with
        | missed => rfl
        | resolved => exact absurd rfl hother
        | served => rfl
      · rw [List.count_singleton, if_neg (by simp)]
        exact .refl _ _
      · simp
    have hresolved := resolve_after_reading call.callee call.kind hnumbered hcounted
    exact ⟨[], List.nil_sublist _, hresolved, hresolved.held site (by simp)⟩
  · rw [Target.passage, if_neg htarget]
    cases selectAtSite_cases site call before with
    | missing hmissing _ =>
        rw [link_eq_ok_iff.mpr hlink] at hmissing
        cases hmissing
    | slow hfound hmissed houtcome =>
        rw [hsame hfound] at hmissed
        rw [hmissed, houtcome]
        exact selectSlow_writes hnumbered hlink call
    | resolved hfound hvirtual _ =>
        rw [hsame hfound] at hvirtual
        exact absurd hvirtual htarget
    | served hfound hfast houtcome =>
        rw [hsame hfound] at hfast
        rw [hfast, houtcome]
        exact selectFast_writes hlink rfl (hnumbered.setLink_self hlink).symm rfl _
    | @servedByStub found pointer executable hfound hfast houtcome =>
        obtain rfl := hsame hfound
        rw [hfast, houtcome]
        have hcode : (before.editLink site { link := found.hitStub call.callee executable }).code
            = before.code.setLink site (found.hitStub call.callee executable) := rfl
        refine selectFast_writes hlink ?_ hcode rfl _
        exact (Link.Profiled.hit call.callee executable).loosens.account_eq rfl

/-- Barring stubs makes a site give up if it has one, and counts that. -/
theorem disallowStubs_writes (hlink : before.code.link? site = some link) :
    WritesAt site [] before ((disallowStubs site).exec before).2 := by
  rw [disallowStubs, exec_bind, MachineM.link, exec_look, link_eq_ok_iff.mpr hlink]
  dsimp only
  rw [exec_bind, exec_modify]
  dsimp only
  have hthere := account?_setLink_self link.disallowStubs.link hlink
  have hmissed : link.disallowStubs.link.account.missed = link.account.missed := by
    rw [Link.disallowStubs]
    split
    · exact Link.setVirtual_slowPathCount _
    · rfl
  split
  · rename_i hturns
    refine ⟨[site], List.Sublist.refl _, .of_write hlink rfl (fun passage => .refl _ _)
      (fun _ => rfl) ?_ ?_ (by simp) (by simp) ?_, _, hthere⟩
    · rw [hmissed]
      exact .refl _ _
    · simpa using Link.gaveUp_iff.mpr hturns.2
    · exact fun _ => Bool.eq_false_iff.mpr fun h => hturns.1 (Link.gaveUp_iff.mp h)
  · rename_i hstays
    refine ⟨[], List.nil_sublist _, .of_write hlink rfl (fun passage => .refl _ _) (.refl _ _)
      ?_ ?_ (by simp) (by simp) (by simp), _, hthere⟩
    · rw [hmissed]
      exact .refl _ _
    · rw [or_iff_left List.not_mem_nil, Link.gaveUp_iff, Link.gaveUp_iff]
      refine ⟨fun hafter => ?_, Link.Alters.mode_virtual .barred⟩
      exact not_not.mp fun hopen => hstays ⟨hopen, hafter⟩

theorem selecting_silent {call : Call} {select : MachineM Destination} (h : Silent select) :
    Silent (CallPath.selecting call select) := by
  intro machine hnumbered
  have hpushed : Idle machine (machine.pushRoots call.cells) := .of_books id rfl
  have hselected := hpushed.idle_trans hnumbered (h _ hnumbered)
  rw [exec_selecting]
  rcases hrun : select.exec (machine.pushRoots call.cells) with ⟨error | destination, after⟩ <;>
    rw [hrun] at hselected
  · exact hselected.before_same id rfl
  · exact hselected

theorem startHostCall_silent (callee receiver : Value) (arguments : List Value)
    (kind : Specialization) : Silent (startHostCall callee receiver arguments kind) := by
  rcases callee with _ | _ | cell
  · exact notCallable_silent _ kind
  · exact notCallable_silent _ kind
  · refine selecting_silent ?_
    rw [selectGeneric_eq]
    exact .map _ (resolve_silent _ _)

/-- Operations that are not calls write nothing, unless they bar stubs. -/
theorem order_silent (order : Order) (h : ∀ site, order ≠ .disallowStubs site) :
    Silent order.run := by
  cases order with
  | allocateExecutable template => exact .map _ (.of_keeps fun _ => rfl)
  | createClosure executable realm captures =>
      exact .map _ (.bind (.map _ (.of_look _)) fun _ => .of_keeps fun _ => rfl)
  | createObject handler => exact .map _ (.of_keeps fun _ => rfl)
  | addRoot cell => exact .map _ (.of_keeps fun _ => rfl)
  | removeRoot cell =>
      refine .map _ (.of_keeps fun machine => ?_)
      show ((machine.removeRoot cell).code, (machine.removeRoot cell).stats.written) = _
      unfold Machine.removeRoot
      split <;> rfl
  | compile function kind => exact .map _ (compileFunction_silent function kind)
  | replace old entry tier => exact .map _ (replaceCode_silent old entry tier)
  | jettison code => exact .map _ (jettisonCode_silent code)
  | disallowStubs site => exact absurd rfl (h site)
  | safepoint => exact .map _ safepoint_silent
  | collect => exact .map _ collect_silent
  | writeBarrier owner target => exact .map _ (.of_keeps fun _ => rfl)
  | takeEvents => exact .map _ (.of_keeps fun _ => rfl)

end MachineM

namespace Machine

open CodeTable MachineM

variable {machine : Machine} {request : SiteCall}

theorem noted_idle {link : Link} (hlink : machine.code.link? request.site = some link) :
    Idle machine (machine.noted request link) := by
  rw [noted]
  split
  · refine .of_books (fun h => h.setLink _) (books_of rfl rfl (account?_setLink hlink ?_))
    rfl
  · exact .refl machine

theorem reading?_idle {safe : Machine} (hnumbered : machine.code.Numbered)
    (hread : machine.reading? request = some safe) : Idle machine safe := by
  obtain ⟨prepared, harrive, rfl⟩ := Option.map_eq_some_iff.mp hread
  obtain ⟨link, callee, hlink, _, _, rfl⟩ := arrive?_eq_some_iff.mp harrive
  have hpushed : Idle machine ((machine.noted request link).pushRoots
      (request.call callee link.callType.specialization).cells) :=
    (noted_idle hlink).before_same id rfl
  exact hpushed.idle_trans hnumbered (safepoint_silent _ (hpushed.numbered hnumbered))

theorem startSiteCall_idle (h : machine.arrive? request = none) :
    Idle machine ((startSiteCall request).exec machine).2 := by
  rcases hlink : machine.code.link? request.site with _ | link
  · obtain ⟨error, _, hrun⟩ := exec_startSiteCall_of_missing hlink
    rw [hrun]
    exact .refl machine
  · by_cases htail : link.callType.isTail = request.tail
    · rw [exec_startSiteCall hlink htail]
      rcases hcallee : request.callee with _ | _ | cell
      · exact (noted_idle hlink).before_same id rfl
      · exact (noted_idle hlink).before_same id rfl
      · rw [arrive?_eq_some_iff.mpr ⟨link, cell, hlink, hcallee, htail, rfl⟩] at h
        cases h
    · rw [exec_startSiteCall_of_mismatch hlink htail]
      exact .refl machine

/-- How a call at a site goes on from the slot, if it gets so far as to read it. -/
def passage? (machine : Machine) (request : SiteCall) : Option Passage :=
  match machine.reading? request, request.callee with
  | some safe, .cell callee => (safe.code.link? request.site).map fun slot =>
      slot.site.target.passage safe.heap callee
  | _, _ => none

/-- The slots that a call at a site reads: one or none. -/
def readings (machine : Machine) (request : SiteCall) : List Reading :=
  ((machine.passage? request).map (Reading.mk request.site)).toList

theorem readings_of_stopped (h : machine.arrive? request = none) :
    machine.readings request = [] := by
  rw [readings, passage?, reading?, h]
  rfl

theorem readings_of_reading {safe : Machine} {callee : Cell}
    (hread : machine.reading? request = some safe) (hcallee : request.callee = .cell callee) :
    machine.readings request = ((safe.code.link? request.site).map fun slot =>
      Reading.mk request.site (slot.site.target.passage safe.heap callee)).toList := by
  rw [readings, passage?, hread, hcallee]
  exact congrArg Option.toList (Option.map_map _ _ _)

/-- A call at a site is counted if it reads the slot, and as what the slot makes of it. -/
theorem startSiteCall_writes (h : machine.Sound) (request : SiteCall) :
    ∃ turned : List SiteRef, turned.Sublist [request.site] ∧
      Accounts (machine.readings request) turned machine
        ((startSiteCall request).exec machine).2 := by
  rcases harrive : machine.arrive? request with _ | prepared
  · rw [readings_of_stopped harrive]
    exact ⟨[], List.nil_sublist _, startSiteCall_idle harrive⟩
  · obtain ⟨link, callee, hlink, hcallee, _, _⟩ := arrive?_eq_some_iff.mp harrive
    obtain ⟨safe, hread⟩ : ∃ safe, machine.reading? request = some safe :=
      ⟨_, by rw [reading?, harrive, Option.map_some]⟩
    have hidle := reading?_idle h.numbered hread
    have hsafe := hidle.numbered h.numbered
    obtain ⟨base, hstart⟩ := exec_startSiteCall_of_reading h hread hlink hcallee
    have hselected : ∃ turned : List SiteRef, turned.Sublist [request.site] ∧
        Accounts (machine.readings request) turned safe ((selectAtSite request.site
          (request.call callee link.callType.specialization)).exec safe).2 := by
      rw [readings_of_reading hread hcallee]
      rcases hslot : safe.code.link? request.site with _ | slot
      · cases selectAtSite_cases request.site
          (request.call callee link.callType.specialization) safe with
        | missing hmissing houtcome =>
            rw [houtcome]
            exact ⟨[], List.nil_sublist _, .refl safe⟩
        | slow hfound => rw [hslot] at hfound; cases hfound
        | resolved hfound => rw [hslot] at hfound; cases hfound
        | served hfound => rw [hslot] at hfound; cases hfound
        | servedByStub executable hfound => rw [hslot] at hfound; cases hfound
      · obtain ⟨turned, hturned, haccounts, _⟩ := selectAtSite_writes hsafe hslot
          (request.call callee link.callType.specialization)
        exact ⟨turned, hturned, haccounts⟩
    obtain ⟨turned, hturned, haccounts⟩ := hselected
    have hjoined := hidle.after_idle h.numbered haccounts fun site hsite => by
      rw [List.mem_singleton.mp (hturned.subset hsite)]
      exact h.numbered.bounded_of_account? (account?_of_link hlink)
    refine ⟨turned, hturned, ?_⟩
    rw [hstart]
    rcases hrun : (selectAtSite request.site
      (request.call callee link.callType.specialization)).exec safe
      with ⟨error | destination, after⟩ <;> rw [hrun] at hjoined
    · exact hjoined.before_same id rfl
    · exact hjoined

end Machine

/-- The slots that a request reads. -/
def Request.readings (machine : Machine) : Request → List Reading
  | .siteCall call => machine.readings call
  | _ => []

namespace Execution

open Machine MachineM CodeTable

/-- Entering leaves no trace in the books. -/
theorem call_accounts (execution : Execution) {start : MachineM Transfer} {read : List Reading}
    {turned : List SiteRef}
    (h : Accounts read turned execution.machine (start.exec execution.machine).2) :
    Accounts read turned execution.machine (execution.call start).2.machine := by
  rw [call_machine, exec_bind]
  rcases hrun : start.exec execution.machine with ⟨error | transfer, found⟩ <;> rw [hrun] at h
  · exact h
  · obtain ⟨hcode, hstats⟩ := Prod.mk.inj (enter_keeps transfer found)
    refine h.before_same (fun hnumbered => hcode ▸ hnumbered) (books_of ?_ ?_ ?_)
    · rw [hstats]
    · rw [hcode]
    · rw [hcode]

/-- The books say of a request which slots it read. At most one site gives up. -/
theorem step_accounts (execution : Execution) (h : execution.machine.Sound) (request : Request) :
    ∃ turned : List SiteRef, turned.Nodup ∧
      Accounts (request.readings execution.machine) turned execution.machine
        (execution.step request).2.machine := by
  have hnodup : ∀ {site : SiteRef} {turned : List SiteRef}, turned.Sublist [site] → turned.Nodup :=
    fun hturned => hturned.nodup (List.nodup_singleton _)
  cases request with
  | order order =>
      by_cases hbars : ∃ site, order = .disallowStubs site
      · obtain ⟨site, rfl⟩ := hbars
        rw [order_machine, Order.run, exec_map]
        rcases hlink : execution.machine.link site with error | link
        · refine ⟨[], List.nodup_nil, ?_⟩
          rw [disallowStubs, exec_bind, MachineM.link, exec_look, hlink]
          exact .refl _
        · obtain ⟨turned, hturned, haccounts, _⟩ := disallowStubs_writes (link_eq_ok_iff.mp hlink)
          exact ⟨turned, hnodup hturned, haccounts⟩
      · refine ⟨[], List.nodup_nil, ?_⟩
        exact order_silent order (fun site heq => hbars ⟨site, heq⟩) execution.machine h.numbered
  | hostCall callee receiver arguments kind =>
      refine ⟨[], List.nodup_nil, execution.call_accounts ?_⟩
      exact startHostCall_silent callee receiver arguments kind execution.machine h.numbered
  | siteCall call =>
      obtain ⟨turned, hturned, haccounts⟩ := startSiteCall_writes h call
      exact ⟨turned, hnodup hturned, execution.call_accounts haccounts⟩
  | finish result =>
      refine ⟨[], List.nodup_nil, ?_⟩
      rw [step]
      rcases execution.active with _ | ⟨activation, outer⟩
      · exact .refl _
      · exact leave_silent activation result execution.machine h.numbered

end Execution

end InlineCache
