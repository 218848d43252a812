import Settle.Types

/-!
# Group eviction

`src/engine/evict.rs`: when a node drops groups from memory, and which of those that
storage holds it drops.
-/

namespace Settle

/-- When a node evicts: once it holds more than its cap of groups, down to three quarters
of the cap. -/
structure Eviction where
  /-- after a round that could not reach its target: the resident groups and the committed
  checkpoint then -/
  stuck : Option (Nat × Nat) := none
deriving DecidableEq

namespace Eviction

def target (cap : Nat) : Nat := cap - cap / 4

/-- How many of `resident` groups to evict now; 0 for none. -/
def due (e : Eviction) (resident cap committed : Nat) : Nat :=
  if resident ≤ cap then 0
  else
    let waits := match e.stuck with
      | some (stuckAt, stuckCommitted) => resident < stuckAt + cap / 4 && committed ≤ stuckCommitted
      | none => false
    if waits then 0 else resident - target cap

/-- Record a round that left `resident` groups. -/
def done (resident cap committed : Nat) : Eviction where
  stuck := if target cap < resident then some (resident, committed) else none

end Eviction

/-- Picks `count` of the groups that may leave memory, those that a checkpoint wrote
longest ago first. -/
structure Victims where
  threshold : Nat
  /-- the groups written at `threshold` that are still to pick -/
  ties : Nat
deriving DecidableEq

namespace Victims

/-- `written` holds, for each group that may leave, the checkpoint that last wrote it. None
if there is none to pick. -/
def new (written : List Nat) (count : Nat) : Option Victims :=
  let count := min count written.length
  if count = 0 then none
  else
    let threshold := written.mergeSort.getD (count - 1) 0
    some { threshold := threshold, ties := count - written.countP (· < threshold) }

/-- Whether to evict a group that may leave and that checkpoint `written` wrote. -/
def pick (v : Victims) (written : Nat) : Bool × Victims :=
  if written < v.threshold then (true, v)
  else if written = v.threshold ∧ 0 < v.ties then (true, { v with ties := v.ties - 1 })
  else (false, v)

variable {α : Type}

/-- `retain` over groups, each with the checkpoint that wrote it: those that stay, when
`mayLeave` says which may be picked. -/
def retain (mayLeave : α → Bool) (written : α → Nat) : Victims → List α → List α
  | _, [] => []
  | v, g :: gs =>
    if mayLeave g then
      let picked := v.pick (written g)
      if picked.1 then retain mayLeave written picked.2 gs
      else g :: retain mayLeave written picked.2 gs
    else g :: retain mayLeave written v gs

variable {mayLeave : α → Bool} {written : α → Nat}

end Victims

end Settle
