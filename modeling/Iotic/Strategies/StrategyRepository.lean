import Iotic.Strategies.Strategy
import Mathlib.Tactic.Common

/-!
# The list of strategies (StrategyRepository.cpp)

Whatever a strategy is, the repository asks it for its thing and its priority.
-/

namespace Iotic.Strategies
variable {S : Type*}

/- `push_back`, then a stable sort in which a higher priority comes first. -/
def addStrategy (priority : S → ℤ) (strategies : List S) (strategy : S) : List S :=
  (strategies ++ [strategy]).mergeSort fun a b => ! decide (priority b > priority a)

/- The subscription to thingRemoved. -/
def eraseStrategies (thingId : S → Name) (strategies : List S) (id : Name) : List S :=
  strategies.filter fun s => thingId s ≠ id

theorem mem_addStrategy {priority : S → ℤ} {strategies : List S} {strategy s : S} :
    s ∈ addStrategy priority strategies strategy ↔ s ∈ strategies ∨ s = strategy := by
  rw [addStrategy, List.mem_mergeSort, List.mem_append, List.mem_singleton]

theorem mem_eraseStrategies {thingId : S → Name} {strategies : List S} {id : Name} {s : S} :
    s ∈ eraseStrategies thingId strategies id ↔ s ∈ strategies ∧ thingId s ≠ id := by
  simp [eraseStrategies]

end Iotic.Strategies
