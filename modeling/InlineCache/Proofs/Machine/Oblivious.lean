import InlineCache.Proofs.Machine.Calls
import InlineCache.Proofs.Machine.Outline

/-!
# Operations that see the outline of a machine only

Machines with one outline answer such an operation with the same result, and still have one outline
after it. Every operation is of this kind, except for those that collect and for calls at sites.
-/

namespace InlineCache

namespace Machine

/-- The machines have one outline, and no collection is in progress. -/
structure Alike (left right : Machine) : Prop where
  outline : left.outline = right.outline
  settled : left.Settled

namespace Alike

variable {left middle right after other : Machine}

theorem refl (h : left.Settled) : left.Alike left := ⟨rfl, h⟩

theorem symm (h : left.Alike right) : right.Alike left :=
  ⟨h.outline.symm, h.settled.of_outline h.outline⟩

theorem trans (hleft : left.Alike middle) (hright : middle.Alike right) : left.Alike right :=
  ⟨hleft.outline.trans hright.outline, hleft.settled⟩

theorem heap_eq (h : left.Alike right) : left.heap = right.heap :=
  congrArg MachineOutline.heap h.outline

/-- Changes that the outline does not show leave machines alike. -/
theorem of_outline (h : left.Alike right) (hafter : after.outline = left.outline)
    (hother : other.outline = right.outline) : after.Alike other :=
  ⟨by rw [hafter, hother, h.outline], h.settled.of_outline hafter.symm⟩

/-- Machines whose outlines change in one way stay alike. -/
theorem change (h : left.Alike right) (change : MachineOutline → MachineOutline)
    (hsettled : after.Settled) (hafter : after.outline = change left.outline)
    (hother : other.outline = change right.outline) : after.Alike other :=
  ⟨by rw [hafter, hother, h.outline], hsettled⟩

theorem pushRoots (h : left.Alike right) (cells : List Cell) :
    (left.pushRoots cells).Alike (right.pushRoots cells) :=
  h.change (fun outline => { outline with stackRoots := outline.stackRoots ++ cells })
    ⟨h.settled.idle, h.settled.numbered⟩ rfl rfl

theorem unwindTo (h : left.Alike right) (height : Nat) :
    (left.unwindTo height).Alike (right.unwindTo height) :=
  h.change (fun outline => { outline with stackRoots := outline.stackRoots.take height })
    ⟨h.settled.idle, h.settled.numbered⟩ rfl rfl

theorem frames (h : left.Alike right) (change : RunningFrames → RunningFrames) :
    Alike { left with running := change left.running }
      { right with running := change right.running } :=
  h.change (fun outline => { outline with running := change outline.running })
    ⟨h.settled.idle, h.settled.numbered⟩ rfl rfl

theorem compiled (h : left.Alike right) (request : Compilation) (labels : List Locations) :
    (left.compiled request labels).Alike (right.compiled request labels) := by
  exact h.change (MachineOutline.compiled · request labels) (h.settled.compiled request labels)
    (outline_compiled left request labels) (outline_compiled right request labels)

theorem replaced (h : left.Alike right) {block found : Block}
    (hblock : block.outline = found.outline) (executable : Executable) (entry : Entry) (tier : Tier)
    (labels : List Locations) :
    (left.replaced block executable entry tier labels).Alike
      (right.replaced found executable entry tier labels) := by
  have hright : right.Settled := h.settled.of_outline h.outline
  have hsame : block.replacement executable entry tier
      = found.replacement executable entry tier := by
    obtain ⟨_, howner, hrealm, hkind, _⟩ := Block.eq_of_outline hblock
    rw [Block.replacement, Block.replacement, howner, hrealm, hkind]
  have hcompiled := h.compiled (block.replacement executable entry tier) labels
  refine hcompiled.of_outline (h.settled.outline_replaced block executable entry tier labels) ?_
  rw [hright.outline_replaced found executable entry tier labels, hsame]

theorem jettison (h : left.Alike right) {block found : Block}
    (hblock : block.outline = found.outline) :
    (left.jettison block).Alike (right.jettison found) := by
  have hright : right.Settled := h.settled.of_outline h.outline
  refine h.change (MachineOutline.jettison · block) (h.settled.jettison block)
    (h.settled.outline_jettison block) ?_
  obtain ⟨hid, howner, _, hkind, _⟩ := Block.eq_of_outline hblock
  rw [hright.outline_jettison, MachineOutline.jettison, MachineOutline.jettison, hid, howner, hkind]

end Alike

end Machine

namespace MachineM

open Machine

variable {α β : Type} {left right : Machine}

/-- Two runs end in one way: with the same answer or the same error, and in machines that are
alike. -/
structure Matches (left right : Except MachineError α × Machine) : Prop where
  result : left.1 = right.1
  alike : left.2.Alike right.2

namespace Matches

theorem symm {left right : Except MachineError α × Machine} (h : Matches left right) :
    Matches right left :=
  ⟨h.result.symm, h.alike.symm⟩

theorem trans {left middle right : Except MachineError α × Machine} (hleft : Matches left middle)
    (hright : Matches middle right) : Matches left right :=
  ⟨hleft.result.trans hright.result, hleft.alike.trans hright.alike⟩

theorem bind {operation other : MachineM α} {next following : α → MachineM β}
    (h : Matches (operation.exec left) (other.exec right))
    (hnext : ∀ value {after found : Machine}, operation.exec left = (.ok value, after) →
      after.Alike found → Matches ((next value).exec after) ((following value).exec found)) :
    Matches ((operation >>= next).exec left) ((other >>= following).exec right) := by
  rw [exec_bind, exec_bind]
  rcases hleft : operation.exec left with ⟨error | value, after⟩ <;>
    rcases hright : other.exec right with ⟨otherError | otherValue, found⟩ <;>
    rw [hleft, hright] at h
  · exact ⟨congrArg Except.error (Except.error.inj h.result), h.alike⟩
  · cases h.result
  · cases h.result
  · rw [← Except.ok.inj h.result]
    exact hnext value hleft h.alike

theorem map {operation other : MachineM α} (change : α → β)
    (h : Matches (operation.exec left) (other.exec right)) :
    Matches ((change <$> operation).exec left) ((change <$> other).exec right) := by
  rw [exec_map, exec_map]
  exact ⟨congrArg (Except.map change) h.result, h.alike⟩

end Matches

/-- The operation gives machines that are alike the same result, and leaves them alike. -/
def Oblivious (operation : MachineM α) : Prop :=
  ∀ ⦃left right : Machine⦄, left.Alike right →
    Matches (operation.exec left) (operation.exec right)

namespace Oblivious

theorem of_pure (value : α) : Oblivious (pure value) := fun _ _ h => ⟨rfl, h⟩

theorem of_throw (error : MachineError) : Oblivious (throw error : MachineM α) :=
  fun _ _ h => ⟨rfl, h⟩

theorem bind {operation : MachineM α} {next : α → MachineM β} (h : Oblivious operation)
    (hnext : ∀ value, Oblivious (next value)) : Oblivious (operation >>= next) :=
  fun _ _ halike => (h halike).bind fun value _ _ _ hafter => hnext value hafter

theorem map {operation : MachineM α} (change : α → β) (h : Oblivious operation) :
    Oblivious (change <$> operation) :=
  fun _ _ halike => (h halike).map change

theorem of_look {view : Machine → Except MachineError α}
    (h : ∀ {left right : Machine}, left.Alike right → view left = view right) :
    Oblivious (look view) :=
  fun _ _ halike => ⟨h halike, halike⟩

theorem of_modify {change : Machine → Machine}
    (h : ∀ {left right : Machine}, left.Alike right → (change left).Alike (change right)) :
    Oblivious (modify change) :=
  fun _ _ halike => ⟨rfl, h halike⟩

theorem bind_get {next : Machine → MachineM β}
    (hnext : ∀ {left right : Machine}, left.Alike right →
      Matches ((next left).exec left) ((next right).exec right)) : Oblivious (get >>= next) := by
  intro left right halike
  rw [exec_bind, exec_get, exec_bind, exec_get]
  exact hnext halike

end Oblivious

/-! ### Allocating and compiling -/

end MachineM

end InlineCache
