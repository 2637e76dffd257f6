import InlineCache.Proofs.Stages
import InlineCache.Proofs.Transparency

/-!
# Code that was overtaken

Replacing a block makes the new block the current code of its executable and moves the sites of the
old one to it. If the old block was not current any more, the block that was current loses its place
all the same, but its sites stay with it. From then on they go to code that is out of date. The
blocks that this has happened to are listed along a run, and no other block that a slot points to is
out of date.
-/

namespace InlineCache

/-- Nothing is collected, only current code is replaced, and code is brought along only in known
cells. -/
def Work.KeepsCurrent (adopters : List Cell) : Work → Prop
  | .collecting => False
  | .replacing current _ => current = true
  | .adopting cell => cell ∈ adopters

namespace Machine

open CodeTable Heap

variable {may : Work → Prop} {machine before after : Machine} {overtaken : List CodeId}
  {adopters : List Cell} {kind : Specialization} {guard : Guard} {cell : Cell}
  {origin found block : Block} {id : CodeId}

/-! ### Code of the past -/

/-- A number that was given and is nobody's current code, unless somebody brought it along. -/
structure Past (machine : Machine) (adopters : List Cell) (id : CodeId) : Prop where
  given : id.number ≤ machine.code.lastNumber
  replaced : ∀ cell kind, cell ∉ adopters → machine.currentCode? cell kind ≠ some id

theorem Change.past (h : Change may before after) (hnumbered : before.code.Numbered)
    (hadopts : ∀ cell, may (.adopting cell) → cell ∈ adopters) (hpast : before.Past adopters id) :
    after.Past adopters id where
  given := Nat.le_trans hpast.given (h.evolves hnumbered).lastNumber_le
  replaced := by
    intro cell kind hplain hcode
    rcases h.currentCode?_cases hnumbered hcode with hbefore | hadopted | ⟨rfl, _⟩
    · exact hpast.replaced cell kind hplain hbefore
    · exact hplain (hadopts cell hadopted)
    · exact Nat.not_succ_le_self _ hpast.given

theorem Changes.past (h : Changes may before after) (hnumbered : before.code.Numbered)
    (hadopts : ∀ cell, may (.adopting cell) → cell ∈ adopters) (hpast : before.Past adopters id) :
    after.Past adopters id := by
  induction h with
  | refl => exact hpast
  | tail hsteps hlast ih =>
      exact hlast.past ((Changes.evolves hsteps hnumbered).numbered hnumbered) hadopts ih

/-! ### Code that slots point to -/

/-- Calls to the closures of its executable go to the block, or it has been overtaken. -/
def Fits (machine : Machine) (overtaken : List CodeId) (block : Block) : Prop :=
  machine.Serves block.owner block.kind block.id ∨
    block.id ∈ overtaken ∧ machine.Suits block.owner block.kind

theorem Fits.congr
    (hexecutable : after.heap.executable? origin.owner = before.heap.executable? origin.owner)
    (hbare : found.bare = origin.bare) (h : before.Fits overtaken origin) :
    after.Fits overtaken found := by
  obtain ⟨hid, howner, _, hkind, _⟩ := Block.eq_of_bare hbare
  rw [Fits, Serves, Suits, hid, howner, hkind, hexecutable]
  exact h

theorem Change.suits (h : Change withoutCollecting before after) (htidy : before.heap.Tidy)
    (hsuits : before.Suits cell kind) : after.Suits cell kind := by
  obtain ⟨executable, hexecutable, hconstruct⟩ := hsuits
  obtain ⟨kept, hkept, hsame⟩ := h.executable htidy hexecutable
  exact ⟨kept, hkept, fun hfor => hsame.trans (hconstruct hfor)⟩

/-- The callees that pass the guard are closures of one executable. Unless it brought code along,
the block was compiled for it and for such calls, and fits. -/
def Timely (machine : Machine) (adopters : List Cell) (overtaken : List CodeId)
    (kind : Specialization) (guard : Guard) (block : Block) : Prop :=
  ∃ executable, guard.Names machine.heap executable ∧ (executable ∉ adopters →
    block.owner = executable ∧ block.kind = kind ∧ machine.Fits overtaken block)

theorem Timely.keep (h : before.Timely adopters overtaken kind guard origin)
    (hnames : ∀ executable, guard.Names before.heap executable →
      guard.Names after.heap executable) (hbare : found.bare = origin.bare)
    (hfits : origin.owner ∉ adopters → before.Fits overtaken origin →
      after.Fits overtaken found) : after.Timely adopters overtaken kind guard found := by
  obtain ⟨executable, hnamed, hown⟩ := h
  obtain ⟨_, howner, _, hkind, _⟩ := Block.eq_of_bare hbare
  refine ⟨executable, hnames executable hnamed, fun hplain => ?_⟩
  obtain ⟨rfl, hfor, hfit⟩ := hown hplain
  exact ⟨howner, hkind.trans hfor, hfits hplain hfit⟩

/-- What slots point to is up to date, apart from what has been overtaken. -/
structure Current (machine : Machine) (adopters : List Cell) (overtaken : List CodeId) :
    Prop where
  past : ∀ id ∈ overtaken, machine.Past adopters id
  placed : machine.heap.Addressable → machine.code.Placed (machine.Timely adopters overtaken)

theorem Current.placed_of_change (hcurrent : before.Current adopters overtaken)
    (h : Change (Work.KeepsCurrent adopters) before after) (hfaithful : before.Faithful adopters)
    (haddressable : before.heap.Addressable) :
    after.code.Placed (after.Timely adopters overtaken) := by
  have hnumbered := hfaithful.numbered
  have htidy := hfaithful.tidy haddressable
  have hplaced := hcurrent.placed haddressable
  have hlinked := h.linked hnumbered hfaithful.linked
  have hevolves := h.evolves hnumbered
  have hother : Change withoutCollecting before after := by
    refine h.mono fun work hmay => ?_
    rintro rfl
    exact hmay
  have hsuits : ∀ {origin found : Block}, found.bare = origin.bare →
      origin.id ∈ overtaken ∧ before.Suits origin.owner origin.kind →
        found.id ∈ overtaken ∧ after.Suits found.owner found.kind := by
    rintro origin found hbare ⟨hid, hsuits⟩
    obtain ⟨hsame, howner, _, hkind, _⟩ := Block.eq_of_bare hbare
    rw [hsame, howner, hkind]
    exact ⟨hid, hother.suits htidy hsuits⟩
  rcases h.cases hnumbered with hquiet | ⟨hmay, _⟩ |
    ⟨block, executable, entry, tier, labels, hblock, hreplaced, rfl⟩ |
    ⟨site, link, changed, owner, resolved, codes, hlink, hresolves, hinstalls, _, rfl⟩
  · refine hplaced.keep hnumbered hevolves hlinked hquiet.follows id ?_
    intro kind guard pointer origin found _ horigin hfound hbare htimely
    refine htimely.keep (fun _ hnames => hnames.congr fun _ _ => hquiet.executableOf? htidy) hbare
      fun _ hfits => hfits.imp (fun hserves => ?_) (hsuits hbare)
    obtain ⟨hid, howner, _, hkind, _⟩ := Block.eq_of_bare hbare
    rw [hid] at hfound
    rw [hid, howner, hkind]
    exact hquiet.serves htidy (contains_iff.mpr ⟨_, horigin⟩) (contains_iff.mpr ⟨_, hfound⟩) hserves
  · exact hmay.elim
  · have hcode := beq_iff_eq.mp hreplaced
    refine replaced_placed executable entry tier labels hnumbered hblock hfaithful.linked ?_ ?_
      hplaced
    · intro kind guard origin found hne _ hbare htimely
      refine htimely.keep (fun _ hnames => hnames.replaced) hbare
        fun _ hfits => hfits.imp (fun hserves => ?_) (hsuits hbare)
      obtain ⟨hid, howner, _, hkind, _⟩ := Block.eq_of_bare hbare
      rw [hid, howner, hkind]
      refine hserves.replaced_other entry tier labels ?_
      rintro ⟨hsame, hfor⟩
      rw [← hsame, ← hfor, hserves.currentCode?] at hcode
      exact hne (Option.some.inj hcode)
    · -- current code has not been overtaken
      rintro kind guard found hbare ⟨named, hnames, hown⟩
      obtain ⟨hid, howner, _, hkind, _⟩ := Block.eq_of_bare hbare
      refine ⟨named, hnames.replaced, fun hplain => ?_⟩
      obtain ⟨rfl, rfl, hfits⟩ := hown hplain
      refine ⟨howner, hkind, .inl ?_⟩
      rw [hid, howner, hkind]
      rcases hfits with hserves | ⟨hpast, _⟩
      · exact hserves.suits.replaced entry tier labels
      · exact absurd hcode ((hcurrent.past _ hpast).replaced _ _ hplain)
  · refine install_placed ?_ ?_ ?_ hplaced hnumbered hlink hresolves hinstalls hevolves hlinked
    · exact fun hbare htimely =>
        htimely.keep (fun _ hnames => hnames) hbare fun _ hfits => hfits.congr rfl hbare
    · rintro kind guard guard' block hsame ⟨named, hnames, hown⟩
      exact ⟨named, hsame _ hnames, hown⟩
    · intro guard block named hnames hblock hserves
      refine ⟨named, hnames, fun hplain => ?_⟩
      obtain ⟨rfl, hkind⟩ := hfaithful.owned.own hplain hserves.currentCode? hblock
      rw [← hkind] at hserves
      exact ⟨rfl, hkind, .inl hserves⟩

/-- A guard that is left after a collection names live cells, so it says what it said before. -/
theorem Collected.names {site : SiteRef} {link : Link} {route : Guard × CodePointer}
    {executable : Cell} (h : before.Collected after) (hlink : after.code.link? site = some link)
    (hroute : route ∈ link.routes) (hnames : route.1.Names before.heap executable) :
    route.1.Names after.heap executable := by
  have hlive := (Link.alive_iff.mp (h.alive site link hlink)).1 route hroute
  refine hnames.congr fun cell hcell hclosure => ?_
  have hkept : after.heap.contains cell = true := List.all_eq_true.mp hlive cell hcell
  rw [h.heap_eq] at hkept ⊢
  rw [executableOf?, closure?, get?_sweepHeap_of_contains hkept]
  exact hclosure

theorem Stage.current {stack : List Cell}
    (h : Stage (Work.KeepsCurrent adopters) stack before after)
    (hfaithful : before.Faithful adopters) (hcurrent : before.Current adopters overtaken) :
    after.Current adopters overtaken := by
  have hnumbered := hfaithful.numbered
  have hchanges := h.changes_adopting fun _ hmay => hmay
  refine ⟨fun id hid => hchanges.past hnumbered (fun _ hmay => hmay _ rfl) (hcurrent.past id hid),
    fun haddressable => ?_⟩
  have hbefore := hchanges.addressable haddressable
  have hevolves := hchanges.evolves hnumbered
  rcases h.cases hnumbered hfaithful.linked with hchange | ⟨hcode, hget⟩ | ⟨_, hcollected⟩
  · exact hcurrent.placed_of_change hchange hfaithful hbefore
  · rw [hcode] at hevolves ⊢
    refine (hcurrent.placed hbefore).keep hnumbered hevolves hfaithful.linked (.refl _) id ?_
    intro kind guard pointer origin found _ _ _ hbare htimely
    refine htimely.keep (fun _ hnames => hnames.congr fun cell _ hcell => ?_) hbare
      fun _ hfits => hfits.congr ?_ hbare
    · rwa [executableOf?, Heap.closure?, hget]
    · rw [executable?, hget]
      rfl
  · -- a block that is kept has its executable, which is the same as before
    refine .of_earlier (fun kind guard block => (∀ executable, guard.Names before.heap executable →
      guard.Names after.heap executable) ∧ before.Timely adopters overtaken kind guard block)
      hnumbered hevolves hcollected.linked (fun {site link} hlink route hroute => ?_) ?_
    · obtain ⟨origin, horigin, htype, source, hsource, rfl⟩ := hcollected.follows.route hlink hroute
      obtain ⟨block, hblock, hpointer, htimely⟩ :=
        (hcurrent.placed hbefore).block horigin source hsource
      rw [← htype] at htimely
      exact ⟨block, hblock, hpointer, fun _ => hcollected.names hlink hroute, htimely⟩
    · rintro kind guard origin found horigin hfound hbare ⟨hnames, htimely⟩
      refine htimely.keep hnames hbare fun _ hfits => hfits.congr ?_ hbare
      obtain ⟨kept, hkept, _, hreclaimable⟩ := hcollected.block hfound
      rw [(Block.eq_of_bare hbare).1, horigin] at hkept
      obtain rfl := Option.some.inj hkept
      obtain ⟨executable, hexecutable, _⟩ := isReclaimable_eq_false_iff.mp hreclaimable
      rw [hcollected.heap_eq, hexecutable, executable?_sweepHeap hexecutable]

theorem Current.withClosure (h : machine.Current adopters overtaken)
    (hfaithful : machine.Faithful adopters) (closure : Closure) :
    (machine.withCell (.function closure)).Current adopters overtaken := by
  refine ⟨fun id hid => ⟨(h.past id hid).given, fun cell kind hplain hcode => ?_⟩,
    fun haddressable => ?_⟩
  · exact (h.past id hid).replaced cell kind hplain (currentCode?_withClosure hcode)
  · have hbefore : machine.heap.Addressable := Nat.le_trans (length_slots_allocate _) haddressable
    have htidy := hfaithful.tidy hbefore
    have hquiet := Quiet.withCell machine (.function closure)
    refine (h.placed hbefore).keep hfaithful.numbered (.refl _) hfaithful.linked (.refl _) id ?_
    intro kind guard pointer origin found _ _ _ hbare htimely
    refine htimely.keep (fun _ hnames => hnames.congr fun _ _ => hquiet.executableOf? htidy) hbare
      fun _ hfits => ?_
    obtain ⟨hid, howner, _, hkind, _⟩ := Block.eq_of_bare hbare
    rw [Fits, hid, howner, hkind]
    rcases hfits with hserves | ⟨hpast, executable, hexecutable, hfor⟩
    · exact .inl (hserves.withCell htidy _)
    · exact .inr ⟨hpast, executable, executable?_eq_some_iff.mpr
        (htidy.get?_allocate _ (executable?_eq_some_iff.mp hexecutable)), hfor⟩

/-! ### Replacing code that is not current -/

/-- The current code of the executable that a block was compiled for, if it is there and was
compiled for the executable as well. -/
def incumbent? (machine : Machine) (block : Block) : Option CodeId :=
  (machine.currentCode? block.owner block.kind).filter fun id =>
    (machine.code.get? id).any fun found => found.owner = block.owner ∧ found.kind = block.kind

theorem incumbent?_eq_some_iff : machine.incumbent? block = some id ↔
    machine.currentCode? block.owner block.kind = some id ∧
      ∃ found, machine.code.get? id = some found ∧ found.owner = block.owner ∧
        found.kind = block.kind := by
  simp only [incumbent?, Option.filter_eq_some_iff, Option.any_eq_true, decide_eq_true_eq]

theorem past_of_incumbent? {executable : Executable} (entry : Entry) (tier : Tier)
    (labels : List Locations) (hfaithful : machine.Faithful adopters)
    (h : machine.incumbent? block = some id) :
    (machine.replaced block executable entry tier labels).Past adopters id := by
  obtain ⟨hcode, current, hcurrent, howner, hkind⟩ := incumbent?_eq_some_iff.mp h
  have hgiven := hfaithful.numbered.bounded current (mem_of_get? hcurrent)
  obtain rfl := id_of_get? hcurrent
  refine ⟨Nat.le_trans hgiven (replaced_evolves machine _ _ entry tier labels).lastNumber_le, ?_⟩
  intro cell kind hplain hafter
  rw [currentCode?_replaced] at hafter
  split at hafter
  · obtain ⟨_, _, hnext⟩ := Option.bind_eq_some_iff.mp hafter
    exact nextCode_ne_of_get? hfaithful.numbered hcurrent (Option.some.inj hnext)
  · rename_i hother
    obtain ⟨rfl, rfl⟩ := hfaithful.owned.own hplain hafter hcurrent
    exact hother ⟨howner, hkind⟩

/-- When a block that is not current is replaced, its sites come up to date, and those of the block
that was current fall behind. -/
theorem Current.replaced {executable : Executable} (entry : Entry) (tier : Tier)
    (labels : List Locations) (hcurrent : before.Current adopters overtaken)
    (hfaithful : before.Faithful adopters) (hblock : before.code.get? block.id = some block)
    (hexecutable : before.heap.executable? block.owner = some executable)
    (hsuperseded : before.isCurrent block = false) :
    (before.replaced block executable entry tier labels).Current adopters
      ((before.incumbent? block).toList ++ overtaken) := by
  have hnumbered := hfaithful.numbered
  have hchange : ∀ {may : Work → Prop},
      may (.replacing (before.isCurrent block) (before.isShared block)) →
        Change may before (before.replaced block executable entry tier labels) :=
    fun hmay => .replace entry tier labels hblock hexecutable hmay
  refine ⟨fun id hid => ?_, fun haddressable => ?_⟩
  · rcases List.mem_append.mp hid with hnew | hold
    · exact past_of_incumbent? entry tier labels hfaithful (Option.mem_toList.mp hnew)
    · have hadopts : Change (adoptingIn adopters) before _ := hchange nofun
      exact hadopts.past hnumbered (fun _ hmay => hmay _ rfl) (hcurrent.past id hold)
  · have hother : Change withoutCollecting before _ := hchange nofun
    have hbefore := hother.addressable haddressable
    have htidy := hfaithful.tidy hbefore
    refine replaced_placed executable entry tier labels hnumbered hblock hfaithful.linked ?_ ?_
      (hcurrent.placed hbefore)
    · rintro kind guard origin found hne horigin hbare ⟨named, hnames, hown⟩
      obtain ⟨hid, howner, _, hkind, _⟩ := Block.eq_of_bare hbare
      refine ⟨named, hnames.replaced, fun hplain => ?_⟩
      obtain ⟨rfl, rfl, hfits⟩ := hown hplain
      refine ⟨howner, hkind, ?_⟩
      rw [Fits, hid, howner, hkind]
      rcases hfits with hserves | ⟨hpast, hsuits⟩
      · by_cases hrival : origin.owner = block.owner ∧ origin.kind = block.kind
        · refine .inr ⟨List.mem_append_left _ ?_, hother.suits htidy hserves.suits⟩
          rw [Option.mem_toList]
          refine incumbent?_eq_some_iff.mpr ⟨?_, origin, horigin, hrival⟩
          rw [← hrival.1, ← hrival.2, hserves.currentCode?]
        · exact .inl (hserves.replaced_other entry tier labels hrival)
      · exact .inr ⟨List.mem_append_right _ hpast, hother.suits htidy hsuits⟩
    · rintro kind guard found hbare ⟨named, hnames, hown⟩
      obtain ⟨hid, howner, _, hkind, _⟩ := Block.eq_of_bare hbare
      refine ⟨named, hnames.replaced, fun hplain => ?_⟩
      obtain ⟨rfl, rfl, hserves | ⟨_, hsuits⟩⟩ := hown hplain
      · rw [isCurrent, hserves.currentCode?] at hsuperseded
        simp at hsuperseded
      · refine ⟨howner, hkind, .inl ?_⟩
        rw [hid, howner, hkind]
        exact hsuits.replaced entry tier labels

end Machine

/-! ### Along a run -/

/-- The code that a request has overtaken by replacing a block that was not current. -/
def Request.overtakes (machine : Machine) : Request → Reply → List CodeId
  | .order (.replace old _ _), .answered (.ok _) =>
    match machine.code.get? old with
    | some block => if machine.isCurrent block then [] else (machine.incumbent? block).toList
    | none => []
  | _, _ => []

/-- An execution with the code that has been overtaken so far. -/
structure Watched where
  execution : Execution
  overtaken : List CodeId := []

namespace Watched

def step (watched : Watched) (request : Request) : Watched :=
  let next := watched.execution.step request
  { execution := next.2
    overtaken := request.overtakes watched.execution.machine next.1 ++ watched.overtaken }

def run (watched : Watched) (requests : List Request) : Watched :=
  requests.foldl step watched

theorem run_execution (watched : Watched) (requests : List Request) :
    (watched.run requests).execution = watched.execution.run requests := by
  induction requests generalizing watched with
  | nil => rfl
  | cons request rest ih => exact ih (watched.step request)

end Watched

namespace MachineM

open Machine

variable {machine : Machine}

theorem currentCode?_of_selectGeneric {call : Call} {pointer : CodePointer} {after : Machine}
    (hnumbered : machine.code.Numbered)
    (h : (selectGeneric call).exec machine = (.ok (.code pointer), after)) :
    ∃ executable, after.heap.executableOf? call.callee = some executable ∧
      after.currentCode? executable call.kind = some pointer.block := by
  obtain ⟨resolution, hrun, hdestination⟩ := exec_selectGeneric_ok h
  have hcases : Resolving anyWork machine _ _ _ := resolve_cases hnumbered call.callee call.kind
  rw [hrun] at hcases
  rcases resolution with ⟨resolved, realm⟩ | entry
  · obtain rfl := Destination.code.inj hdestination
    exact hcases.currentCode?
  · cases hdestination

end MachineM

namespace Watched

open Machine MachineM CodeTable

variable {watched : Watched} {config : Config} {adopters : List Cell}

/-- What holds of an execution and of the code that it has overtaken. -/
structure Rule (watched : Watched) (adopters : List Cell) : Prop where
  faithful : watched.execution.machine.Faithful adopters
  current : watched.execution.machine.Current adopters watched.overtaken

theorem Rule.current_of_replace (h : watched.Rule adopters) (old : CodeId) (entry : Entry)
    (tier : Tier) :
    let next := watched.step (.order (.replace old entry tier))
    next.execution.machine.Current adopters next.overtaken := by
  intro next
  have hcases := replaceCode_cases watched.execution.machine old entry tier
  rcases hrun : (replaceCode old entry tier).exec watched.execution.machine with ⟨result, after⟩
  rw [hrun] at hcases
  cases hcases with
  | @failed error =>
      have hstep : watched.execution.step (.order (.replace old entry tier))
          = (.answered (.error error), watched.execution) := by
        rw [Execution.step, Order.run, exec_map, hrun]
        rfl
      show Current (watched.execution.step _).2.machine adopters (_ ++ watched.overtaken)
      rw [hstep]
      exact h.current
  | @replaced block executable labels event hblock hexecutable =>
      obtain rfl := id_of_get? hblock
      have hstep : watched.execution.step (.order (.replace block.id entry tier))
          = (.answered (.ok (.code watched.execution.machine.nextCode)),
            { watched.execution with
              machine := (watched.execution.machine.replaced block executable entry tier
                labels).report event }) := by
        rw [Execution.step, Order.run, exec_map, hrun]
        rfl
      have hchange : Change (adoptingIn adopters) watched.execution.machine
          (watched.execution.machine.replaced block executable entry tier labels) :=
        .replace entry tier labels hblock hexecutable (by rintro _ ⟨⟩)
      have hbooked : Stage (Work.KeepsCurrent adopters) []
          (watched.execution.machine.replaced block executable entry tier labels)
          ((watched.execution.machine.replaced block executable entry tier labels).report event) :=
        .change (.bookkeeping rfl)
      show Current (watched.execution.step _).2.machine adopters (_ ++ watched.overtaken)
      rw [hstep]
      refine hbooked.current (hchange.faithful (fun _ hmay => hmay _ rfl) h.faithful) ?_
      rw [Request.overtakes, hblock]
      dsimp only
      rcases hcurrent : watched.execution.machine.isCurrent block
      · exact h.current.replaced entry tier labels h.faithful hblock hexecutable hcurrent
      · have hstage : Stage (Work.KeepsCurrent adopters) [] watched.execution.machine
            (watched.execution.machine.replaced block executable entry tier labels) :=
          .change (.replace entry tier labels hblock hexecutable hcurrent)
        exact hstage.current h.faithful h.current

theorem Rule.step (h : watched.Rule adopters) (request : Request)
    (hadopts : request.adopts watched.execution.machine ⊆ adopters) :
    (watched.step request).Rule adopters := by
  refine ⟨Execution.step_faithful h.faithful hadopts, ?_⟩
  by_cases hreplaces : ∃ old entry tier, request = .order (.replace old entry tier)
  · obtain ⟨old, entry, tier, rfl⟩ := hreplaces
    exact h.current_of_replace old entry tier
  · have hnone : request.overtakes watched.execution.machine (watched.execution.step request).1
        = [] := by
      unfold Request.overtakes
      split
      · exact absurd ⟨_, _, _, rfl⟩ hreplaces
      · rfl
    have hneeds : ∀ work, request.needs watched.execution.machine work → work ≠ .collecting →
        work.KeepsCurrent adopters := by
      intro work hneeds hother
      unfold Request.needs at hneeds
      split at hneeds
      · exact absurd rfl hother
      · exact absurd rfl hother
      · exact absurd rfl hother
      · exact absurd ⟨_, _, _, rfl⟩ hreplaces
      · exact hadopts hneeds
      · exact hneeds.elim
    show Current (watched.execution.step request).2.machine adopters (_ ++ watched.overtaken)
    rw [hnone, List.nil_append]
    rcases watched.execution.step_stages request h.faithful.numbered hneeds with
      ⟨closure, _, _, hstep⟩ | hstages
    · rw [hstep]
      exact h.current.withClosure h.faithful closure
    · exact (hstages.preserves_faithful (fun machine => machine.Current adopters watched.overtaken)
        (fun _ hmay => hmay) (fun hfaithful hstage => hstage.current hfaithful) h.faithful
        h.current).2

theorem Rule.run (h : watched.Rule adopters) (requests : List Request)
    (hadopts : watched.execution.adopters requests ⊆ adopters) :
    (watched.run requests).Rule adopters := by
  induction requests generalizing watched with
  | nil => exact h
  | cons request rest ih =>
      obtain ⟨hfirst, hrest⟩ := List.append_subset.mp hadopts
      exact ih (h.step request hfirst) hrest

theorem rule_of_create {machine : Machine} (h : Machine.create config = .ok machine) :
    Rule ⟨⟨machine, []⟩, []⟩ adopters := by
  refine ⟨faithful_of_create h, fun _ hid => (nomatch hid), fun _ => ?_⟩
  rw [create_eq_ok h]
  exact ⟨fun hlink => nomatch hlink⟩

/-- In every state that a new machine can get into, the code to which a slot of a site that is not
direct sends a call is the current code of the callee's executable, and the code that the callee
resolves to, exactly if it has not been overtaken. It has been if it was the current code of its
executable when a block was replaced that had been. This is so for every executable that brought no
code along when it was allocated. -/
theorem fast_target_current_iff {machine : Machine} (hcreate : Machine.create config = .ok machine)
    (requests : List Request) :
    let adopters := Execution.adopters ⟨machine, []⟩ requests
    let watched := (Watched.mk ⟨machine, []⟩ []).run requests
    let machine := watched.execution.machine
    machine.heap.Addressable → ∀ site link call pointer, machine.code.link? site = some link →
      link.isDirect = false → link.callType.specialization = call.kind →
      link.site.target.fast? machine.heap call.callee = some pointer →
      ∃ closure, machine.heap.get? call.callee = some (.function closure) ∧
        (closure.executable ∉ adopters →
          (machine.currentCode? closure.executable call.kind = some pointer.block ↔
            pointer.block ∉ watched.overtaken) ∧
          ((selectGeneric call).exec machine = (.ok (.code pointer), machine) ↔
            pointer.block ∉ watched.overtaken)) := by
  intro adopters watched machine haddressable site link call pointer hlink hdirect hkind hfast
  have hrule : watched.Rule adopters :=
    (rule_of_create hcreate).run requests (List.Subset.refl _)
  obtain ⟨guard, hroute, hcallee⟩ :=
    (hrule.faithful.linked.agrees hlink).route_of_fast? hdirect hfast
  obtain ⟨block, hblock, hpointer, executable, hnames, hown⟩ :=
    (hrule.current.placed haddressable).block hlink _ hroute
  dsimp only at hblock hpointer
  have hexecutable := hcallee _ hnames
  obtain ⟨closure, hclosure, rfl⟩ := Option.map_eq_some_iff.mp hexecutable
  refine ⟨closure, Heap.closure?_eq_some_iff.mp hclosure, fun hplain => ?_⟩
  obtain ⟨howner, hfor, hfits⟩ := hown hplain
  have hid : block.id = pointer.block := id_of_get? hblock
  have hserves : pointer.block ∉ watched.overtaken →
      machine.Serves closure.executable call.kind block.id := by
    rw [← hid, ← howner, ← hkind, ← hfor]
    exact fun hnot => hfits.resolve_right fun hovertaken => hnot hovertaken.1
  have hcurrent : machine.currentCode? closure.executable call.kind = some pointer.block →
      pointer.block ∉ watched.overtaken :=
    fun hcode hovertaken => (hrule.current.past _ hovertaken).replaced _ _ hplain hcode
  refine ⟨⟨hcurrent, fun hnot => ?_⟩, fun hselects => hcurrent ?_, fun hnot => ?_⟩
  · rw [← hid]
    exact (hserves hnot).currentCode?
  · obtain ⟨resolved, hresolved, hcode⟩ :=
      currentCode?_of_selectGeneric hrule.faithful.numbered hselects
    rw [hexecutable] at hresolved
    rwa [Option.some.inj hresolved]
  · rw [← hpointer]
    rw [← hid] at hblock
    exact selectGeneric_of_serves hexecutable hblock (hserves hnot)

/-- The callee of a call at a site has its own code replaced. -/
def replacedByCallee : List Request :=
  Execution.siblingCalls ++ [.order (.replace ⟨2⟩ ⟨2⟩ .optimized)]

theorem fast_target_current_after_replace :
    ∃ (watched : Watched) (link : Link) (closure : Closure),
      let machine := watched.execution.machine
      let call : Call := ⟨⟨5, 0⟩, .undefined, [], .call⟩
      watched.execution.Reachable {} ∧ machine.heap.Addressable ∧
      machine.code.link? ⟨⟨1⟩, 0⟩ = some link ∧ link.isDirect = false ∧
      link.callType.specialization = .call ∧
      link.site.target.fast? machine.heap ⟨5, 0⟩ = some ⟨⟨3⟩, ⟨2⟩⟩ ∧ watched.overtaken = [] ∧
      machine.heap.get? ⟨5, 0⟩ = some (.function closure) ∧
      machine.currentCode? closure.executable .call = some ⟨3⟩ ∧
      (selectGeneric call).exec machine = (.ok (.code ⟨⟨3⟩, ⟨2⟩⟩), machine) := by
  have hcreate : Machine.create {}
      = .ok { config := {}, heap := { settings := ({} : Config).heapSettings } } := rfl
  generalize hmachine : Machine.mk _ _ _ _ _ _ _ _ _ = machine at hcreate
  obtain ⟨watched, hwatched⟩ :
      ∃ watched, watched = (Watched.mk ⟨machine, []⟩ []).run replacedByCallee := ⟨_, rfl⟩
  have hreachable : watched.execution.Reachable {} := by
    rw [hwatched]
    exact ⟨machine, replacedByCallee, hcreate, run_execution _ _⟩
  have hcurrent := fast_target_current_iff hcreate replacedByCallee
  dsimp only at hcurrent
  rw [← hwatched] at hcurrent
  have haddressable : watched.execution.machine.heap.Addressable := by
    rw [hwatched, ← hmachine, Heap.Addressable]
    decide +kernel
  have hsite : (watched.execution.machine.code.link? ⟨⟨1⟩, 0⟩).any (fun link =>
      link.isDirect = false ∧ link.callType.specialization = .call ∧
        link.site.target.fast? watched.execution.machine.heap ⟨5, 0⟩ = some ⟨⟨3⟩, ⟨2⟩⟩)
      = true := by
    rw [hwatched, ← hmachine]
    decide +kernel
  have hovertaken : watched.overtaken = [] := by
    rw [hwatched, ← hmachine]
    decide +kernel
  have hadopters : Execution.adopters ⟨machine, []⟩ replacedByCallee = [] := by
    rw [← hmachine]
    decide +kernel
  simp only [Option.any_eq_true, decide_eq_true_eq] at hsite
  obtain ⟨link, hlink, hdirect, hkind, hfast⟩ := hsite
  obtain ⟨closure, hclosure, hiff⟩ := hcurrent haddressable ⟨⟨1⟩, 0⟩ link
    ⟨⟨5, 0⟩, .undefined, [], .call⟩ ⟨⟨3⟩, ⟨2⟩⟩ hlink hdirect hkind hfast
  rw [hadopters, hovertaken] at hiff
  obtain ⟨hcode, hselects⟩ := hiff List.not_mem_nil
  exact ⟨watched, link, closure, hreachable, haddressable, hlink, hdirect, hkind, hfast, hovertaken,
    hclosure, hcode.mpr List.not_mem_nil, hselects.mpr List.not_mem_nil⟩

/-- The callee has its code replaced once more, and names the block that is not current any more. -/
def replacedTwiceByCallee : List Request :=
  replacedByCallee ++ [.order (.replace ⟨2⟩ ⟨3⟩ .optimized)]

theorem fast_target_out_of_date :
    let execution := (Execution.mk
      { config := {}, heap := { settings := ({} : Config).heapSettings } } []).run
        replacedTwiceByCallee
    let machine := execution.machine
    let call : Call := ⟨⟨5, 0⟩, .undefined, [], .call⟩
    execution.Reachable {} ∧
      (∃ link, machine.code.link? ⟨⟨1⟩, 0⟩ = some link ∧ link.isDirect = false ∧
        link.site.target.fast? machine.heap ⟨5, 0⟩ = some ⟨⟨3⟩, ⟨2⟩⟩) ∧
      machine.heap.executableOf? ⟨5, 0⟩ = some ⟨1, 0⟩ ∧
      machine.currentCode? ⟨1, 0⟩ .call = some ⟨4⟩ ∧
      ((selectGeneric call).exec machine).1 = .ok (.code ⟨⟨4⟩, ⟨3⟩⟩) := by
  intro execution machine call
  have hsite : (machine.code.link? ⟨⟨1⟩, 0⟩).any (fun link => link.isDirect = false ∧
      link.site.target.fast? machine.heap ⟨5, 0⟩ = some ⟨⟨3⟩, ⟨2⟩⟩) = true := by decide +kernel
  simp only [Option.any_eq_true, decide_eq_true_eq] at hsite
  refine ⟨⟨_, replacedTwiceByCallee, rfl, rfl⟩, hsite, ?_, ?_, ?_⟩
  all_goals decide +kernel

end Watched

end InlineCache
