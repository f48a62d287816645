import Mathlib.Data.Int.Notation
import Mathlib.Data.List.Basic

/-!
# Strategies and what they are told about the site (Strategy.h)

`Strategy` is an abstract class whose implementations keep members of their own
and reach into things, clocks and the symbol table. All of that is one state
type `σ` here; an implementation is a choice of `σ` and of the three methods.
-/

namespace Iotic

/- A std::string, as its characters. -/
abbrev Name := List Char

/- Site::Properties, the readings the strategies are evaluated on. -/
structure SiteProperties where
  ts : ℤ
  shortTermGridPower : ℤ
  longTermGridPower : ℤ
  gridPower : ℤ
  pvPower : ℤ
  deriving DecidableEq, Repr

namespace Strategies

inductive Step
  | Keep
  | Down
  | Up
  deriving DecidableEq, Repr

/- The virtual methods of `Strategy`. The two queries are `const` in the source
but write `mutable` members, so they return the state they leave. -/
structure Strategy (σ : Type*) where
  thingId : Name
  priority : ℤ
  wantsToStepDown : SiteProperties → σ → Bool × σ
  wantsToStepUp : SiteProperties → σ → Bool × σ
  adjust : Step → SiteProperties → σ → σ

end Strategies
end Iotic
