import InlineCache.Proofs.Freshness
import InlineCache.Proofs.Machine.Oblivious
import InlineCache.Proofs.Soundness
import InlineCache.Script.Command

/-!
# Caching does not show

While links are up to date, a call at a site goes where it would go if the callee were resolved: a
slot that serves the call holds what resolving finds, and linking a site changes nothing but its
record. So what a program can see of a machine does not depend on what is cached.
-/

namespace InlineCache

namespace MachineM

open Machine

variable {machine left right : Machine} {site : SiteRef} {link : Link} {call : Call}

/-! ### Linking -/

theorem selectGeneric_of_serves {block : Block} {cell : Cell}
    (hcallee : machine.heap.executableOf? call.callee = some cell)
    (hblock : machine.code.get? block.id = some block)
    (hserves : machine.Serves cell call.kind block.id) :
    (selectGeneric call).exec machine = (.ok (.code block.pointer), machine) := by
  obtain ⟨closure, hclosure, rfl⟩ := Option.map_eq_some_iff.mp hcallee
  obtain ⟨executable, hexecutable, hcode, hconstruct⟩ := hserves
  have hlive : machine.code.contains block.id = true := CodeTable.contains_iff.mpr ⟨block, hblock⟩
  have hensured : (ensureCode closure.executable closure.realm call.kind).exec machine
      = (.ok block.id, machine) := by
    rw [ensureCode, exec_bind, MachineM.executable, exec_look, executable_eq_ok_iff.mpr hexecutable]
    dsimp only
    rw [hcode]
    dsimp only
    rw [exec_bind, exec_get]
    dsimp only
    rw [if_pos hlive, exec_pure]
  rw [selectGeneric_eq, exec_map, exec_resolve hclosure hexecutable hconstruct hensured hblock]
  rfl

end MachineM

/-! ### Requests -/

section

open Machine MachineM

variable {machine left right : Machine} {request : Request}

namespace Machine.Alike

end Machine.Alike

theorem Machine.Alike.removeRoot (h : left.Alike right) (cell : Cell) :
    (left.removeRoot cell).Alike (right.removeRoot cell) := by
  have hroots : left.roots = right.roots := congrArg MachineOutline.roots h.outline
  unfold Machine.removeRoot
  rw [hroots]
  split
  · exact h.change (fun outline => { outline with roots := _ })
      ⟨h.settled.idle, h.settled.numbered⟩ rfl rfl
  · exact h

end

namespace Execution

open Machine MachineM

variable {left right : Execution} {request : Request}

end Execution

/-! ### Runs -/

/-- What the host and the entries request next, after the replies so far. They can see all of the
machine but its links, statistics, events and configuration. -/
abbrev Driver := List Reply → MachineOutline → Request

/-- Requests that do not depend on the replies. After them every entry returns. -/
def Driver.ofList (requests : List Request) : Driver := fun replies _ =>
  requests.getD replies.length (.finish (.ok .undefined))

namespace Execution

open Machine

variable {left right : Execution} {driver : Driver}

end Execution

end InlineCache
