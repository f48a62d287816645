import Iotic.Strategies.MultiPhaseStrategy
import Iotic.Strategies.StrategyRepository

/-!
# Which strategy a thing gets (StrategyFactory.cpp, RuleActuationStrategy::from)

The expression parser is third-party code: for every text it says whether the
text compiles and which symbols it asks its resolver for. Resolving a symbol puts
it into the symbol table; of the table only the names matter here.
-/

namespace Iotic.Rules
open Iotic.Config Iotic.Things Iotic.Strategies

structure Parser where
  compile : Name → Bool × List Name

/- What a strategy is made of. The symbols of a rule are those of its expressions. -/
inductive StrategyKind
  | wallbox
  | ruleActuation (onExpression offExpression : List Name)
  | multiPhase (strategy : MultiPhaseStrategy)
  deriving DecidableEq, Repr

structure MadeStrategy where
  thingId : Name
  priority : ℤ
  kind : StrategyKind
  deriving DecidableEq, Repr

abbrev SymbolTable := List Name

/- `_symbolTable[symbol]` for every symbol asked for. -/
def resolveSymbols (symbolTable : SymbolTable) (symbols : List Name) : SymbolTable :=
  symbols.foldl (fun table symbol => table.insert symbol) symbolTable

/- No parser when the expression does not compile; its symbols are resolved by then. -/
def createParser (parser : Parser) (symbolTable : SymbolTable) (expr : Name) :
    Option (List Name) × SymbolTable :=
  let (compiled, symbols) := parser.compile expr
  (if compiled then some symbols else none, resolveSymbols symbolTable symbols)

namespace WallboxStrategy

def «from» (thing : Thing) : Option StrategyKind :=
  if thing.type = .EvStation then some .wallbox else none

end WallboxStrategy

namespace RuleActuationStrategy

def «from» (parser : Parser) (cfg : ConfigRepository) (symbolTable : SymbolTable) (thing : Thing) :
    Option StrategyKind × SymbolTable :=
  let onExpressionStr := cfg.valueOr TomlValue.string? thing.id .on []
  if onExpressionStr.isEmpty then (none, symbolTable)
  else
    let offExpressionStr := cfg.valueOr TomlValue.string? thing.id .off []
    if offExpressionStr.isEmpty then (none, symbolTable)
    else
      match createParser parser symbolTable onExpressionStr with
      | (none, symbolTable) => (none, symbolTable)
      | (some onExpression, symbolTable) =>
        match createParser parser symbolTable offExpressionStr with
        | (none, symbolTable) => (none, symbolTable)
        | (some offExpression, symbolTable) =>
          (some (.ruleActuation onExpression offExpression), symbolTable)

end RuleActuationStrategy

namespace StrategyFactory

/- The wallbox comes first, then the rule, then the phases of a relay. -/
def «from» (parser : Parser) (cfg : ConfigRepository) (symbolTable : SymbolTable) (thing : Thing) :
    Option MadeStrategy × SymbolTable :=
  let (strategy, symbolTable) :=
    match WallboxStrategy.from thing with
    | some kind => (some kind, symbolTable)
    | none => RuleActuationStrategy.from parser cfg symbolTable thing
  let strategy :=
    if strategy.isNone ∧ thing.type = .Relay then
      (MultiPhaseStrategy.from cfg thing).map StrategyKind.multiPhase
    else strategy
  let priority := cfg.valueOr TomlValue.int? thing.id .priority 0
  (strategy.map fun kind => ⟨thing.id, priority, kind⟩, symbolTable)

end StrategyFactory

/-! ### What becomes of the symbols -/

/- The symbols of a strategy's expressions. -/
def StrategyKind.symbols : StrategyKind → List Name
  | .ruleActuation onExpression offExpression => onExpression ++ offExpression
  | _ => []

theorem mem_resolveSymbols {table symbols : List Name} {x : Name} :
    x ∈ resolveSymbols table symbols ↔ x ∈ table ∨ x ∈ symbols := by
  induction symbols generalizing table with
  | nil => simp [resolveSymbols]
  | cons s symbols ih =>
    show x ∈ resolveSymbols (table.insert s) symbols ↔ _
    rw [ih, List.mem_insert_iff, List.mem_cons]
    tauto

/- The table only grows, and what is made has its symbols in it. -/
def Resolved (table : SymbolTable) (r : Option StrategyKind × SymbolTable) : Prop :=
  (∀ x ∈ table, x ∈ r.2) ∧ ∀ kind, r.1 = some kind → ∀ x ∈ kind.symbols, x ∈ r.2

/- Both expressions are there and compile. -/
structure RuleCompiles (parser : Parser) (cfg : ConfigRepository) (thing : Thing) : Prop where
  onSet : cfg.valueOr TomlValue.string? thing.id .on [] ≠ []
  offSet : cfg.valueOr TomlValue.string? thing.id .off [] ≠ []
  onCompiles : (parser.compile (cfg.valueOr TomlValue.string? thing.id .on [])).1 = true
  offCompiles : (parser.compile (cfg.valueOr TomlValue.string? thing.id .off [])).1 = true

/- What `RuleActuationStrategy.from` does: it makes a rule of the symbols of both
expressions, which are all resolved then, or none. -/
theorem ruleActuation_cases (parser : Parser) (cfg : ConfigRepository) (table : SymbolTable)
    (thing : Thing) :
    let on := (parser.compile (cfg.valueOr TomlValue.string? thing.id .on [])).2
    let off := (parser.compile (cfg.valueOr TomlValue.string? thing.id .off [])).2
    (RuleCompiles parser cfg thing ∧ RuleActuationStrategy.from parser cfg table thing =
      (some (.ruleActuation on off), resolveSymbols (resolveSymbols table on) off)) ∨
    (¬ RuleCompiles parser cfg thing ∧ ∃ table',
      RuleActuationStrategy.from parser cfg table thing = (none, table') ∧
        ∀ x ∈ table, x ∈ table') := by
  have hgrow : ∀ {t : SymbolTable} (symbols : List Name), (∀ x ∈ table, x ∈ t) →
      ∀ x ∈ table, x ∈ resolveSymbols t symbols := fun _ ht x hx =>
    mem_resolveSymbols.mpr (Or.inl (ht x hx))
  intro on off
  unfold RuleActuationStrategy.from
  by_cases hon : cfg.valueOr TomlValue.string? thing.id .on [] = []
  · exact Or.inr ⟨fun h => h.onSet hon, table, by simp [hon], fun _ hx => hx⟩
  by_cases hoff : cfg.valueOr TomlValue.string? thing.id .off [] = []
  · exact Or.inr ⟨fun h => h.offSet hoff, table, by simp [hon, hoff], fun _ hx => hx⟩
  by_cases honc : (parser.compile (cfg.valueOr TomlValue.string? thing.id .on [])).1 = true
  swap
  · exact Or.inr ⟨fun h => honc h.onCompiles, resolveSymbols table on,
      by simp [createParser, hon, hoff, honc, on], hgrow _ fun _ hx => hx⟩
  by_cases hoffc : (parser.compile (cfg.valueOr TomlValue.string? thing.id .off [])).1 = true
  swap
  · exact Or.inr ⟨fun h => hoffc h.offCompiles, resolveSymbols (resolveSymbols table on) off,
      by simp [createParser, hon, hoff, honc, hoffc, on, off], hgrow _ (hgrow _ fun _ hx => hx)⟩
  exact Or.inl ⟨⟨hon, hoff, honc, hoffc⟩, by simp [createParser, hon, hoff, honc, hoffc, on, off]⟩

theorem ruleActuation_resolved (parser : Parser) (cfg : ConfigRepository) (table : SymbolTable)
    (thing : Thing) : Resolved table (RuleActuationStrategy.from parser cfg table thing) := by
  rcases ruleActuation_cases parser cfg table thing with ⟨-, heq⟩ | ⟨-, table', heq, hgrow⟩
  · rw [heq]
    refine ⟨fun x hx => by simp [mem_resolveSymbols, hx], fun kind hkind x hx => ?_⟩
    obtain rfl := Option.some.inj hkind
    rw [mem_resolveSymbols, mem_resolveSymbols]
    rcases List.mem_append.mp hx with hx | hx
    · exact Or.inl (Or.inr hx)
    · exact Or.inr hx
  · rw [heq]
    exact ⟨hgrow, fun _ hkind => nomatch hkind⟩

/- A strategy is for its thing, and its symbols are in the table it leaves. -/
theorem from_resolved (parser : Parser) (cfg : ConfigRepository) (table : SymbolTable)
    (thing : Thing) :
    (∀ x ∈ table, x ∈ (StrategyFactory.from parser cfg table thing).2) ∧
      ∀ s, (StrategyFactory.from parser cfg table thing).1 = some s →
        ∀ x ∈ s.kind.symbols, x ∈ (StrategyFactory.from parser cfg table thing).2 := by
  unfold StrategyFactory.from WallboxStrategy.from
  obtain ⟨hgrow, hsymbols⟩ := ruleActuation_resolved parser cfg table thing
  generalize RuleActuationStrategy.from parser cfg table thing = r at hgrow hsymbols
  obtain ⟨kind, table'⟩ := r
  by_cases hev : thing.type = .EvStation
  · simp [hev, StrategyKind.symbols]
  · simp only [if_neg hev]
    refine ⟨hgrow, fun s hs x hx => ?_⟩
    obtain ⟨made, hmade, rfl⟩ := Option.map_eq_some_iff.mp hs
    split_ifs at hmade with hrelay
    · obtain ⟨m, _, rfl⟩ := Option.map_eq_some_iff.mp hmade
      cases hx
    · exact hsymbols made hmade x hx

/- Whether a thing gets a strategy does not depend on the symbols known by then. -/
def hasStrategy (parser : Parser) (cfg : ConfigRepository) (thing : Thing) : Bool :=
  (StrategyFactory.from parser cfg [] thing).1.isSome

theorem ruleActuation_fst (parser : Parser) (cfg : ConfigRepository) (table table' : SymbolTable)
    (thing : Thing) : (RuleActuationStrategy.from parser cfg table thing).1 =
      (RuleActuationStrategy.from parser cfg table' thing).1 := by
  rcases ruleActuation_cases parser cfg table thing with ⟨hc, heq⟩ | ⟨hc, _, heq, -⟩
  · rcases ruleActuation_cases parser cfg table' thing with ⟨-, heq'⟩ | ⟨hc', -⟩
    · rw [heq, heq']
    · exact absurd hc hc'
  · rcases ruleActuation_cases parser cfg table' thing with ⟨hc', -⟩ | ⟨-, _, heq', -⟩
    · exact absurd hc' hc
    · rw [heq, heq']

theorem hasStrategy_eq (parser : Parser) (cfg : ConfigRepository) (table : SymbolTable)
    (thing : Thing) :
    hasStrategy parser cfg thing = (StrategyFactory.from parser cfg table thing).1.isSome := by
  unfold hasStrategy StrategyFactory.from WallboxStrategy.from
  have hr := ruleActuation_fst parser cfg [] table thing
  by_cases hev : thing.type = .EvStation
  · simp [hev]
  · simp only [if_neg hev, hr]

end Iotic.Rules
