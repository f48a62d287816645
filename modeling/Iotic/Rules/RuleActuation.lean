import Iotic.Strategies.PowerManager

/-!
# A rule under the power manager (RuleActuationStrategy.cpp)

A rule strategy is asked in every update whether it wants to step. An expression
that is true then is remembered in `_nextState` until the other one is, so that a
step may come in a later update, when the debounce has passed.
-/

namespace Iotic.Rules
open Iotic.Strategies

/- `true` is on and up, `false` off and down. -/
structure RuleActuationStrategy where
  state : Option Bool := none
  nextState : Option Bool := none
  deriving DecidableEq, Repr

namespace RuleActuationStrategy

/- Both queries: of the expression only matters whether it evaluates to zero. -/
def wantsToStep (target evaluated : Bool) (s : RuleActuationStrategy) :
    Bool × RuleActuationStrategy :=
  let nextState := if evaluated then some target else s.nextState
  (decide (nextState = some target ∧ s.state ≠ nextState), { s with nextState })

def wantsToStepDown (off : Bool) (s : RuleActuationStrategy) : Bool × RuleActuationStrategy :=
  s.wantsToStep false off

def wantsToStepUp (on : Bool) (s : RuleActuationStrategy) : Bool × RuleActuationStrategy :=
  s.wantsToStep true on

/-- Returned with the power_control that is set, if any. -/
def adjust (step : Step) (s : RuleActuationStrategy) : Option Bool × RuleActuationStrategy :=
  let state :=
    match step with
    | .Keep => s.state
    | .Down => some false
    | .Up => some true
  (state, { s with state })

theorem wantsToStep_true {target evaluated : Bool} {s : RuleActuationStrategy}
    (h : (s.wantsToStep target evaluated).1 = true) :
    (s.wantsToStep target evaluated).2.nextState = some target :=
  (of_decide_eq_true h).1

@[simp] theorem adjust_nextState (step : Step) (s : RuleActuationStrategy) :
    (s.adjust step).2.nextState = s.nextState := rfl

end RuleActuationStrategy

/-! ### The rule among other strategies -/

/- A query with what its expression evaluated to, or a call of `adjust`, each with the
members it found and those it left. -/
inductive RuleEntry
  | asked (target evaluated : Bool) (before after : RuleActuationStrategy) (answer : Bool)
  | adjusted (step : Step) (before after : RuleActuationStrategy) (power_control : Option Bool)
  deriving DecidableEq, Repr

/- The rule strategy, what became of it, latest first, and all the rest. -/
structure RuleWorld (τ : Type) where
  rule : RuleActuationStrategy
  log : List RuleEntry
  others : τ

/- The code around the strategy. An expression evaluates the symbols, which anything may
have changed since it was last evaluated. -/
structure RuleSurroundings (τ : Type) where
  onExpression : τ → Bool
  offExpression : τ → Bool
  symbols : SymbolRepository τ
  setThingProperties : Bool → τ → τ

inductive RuleMember (τ : Type)
  | rule (thingId : Name) (priority : ℤ)
  | other (strategy : Strategy τ)

namespace RuleWorld
variable {τ : Type}

def ask (target evaluated : Bool) (w : RuleWorld τ) : Bool × RuleWorld τ :=
  let r := w.rule.wantsToStep target evaluated
  (r.1, ⟨r.2, .asked target evaluated w.rule r.2 r.1 :: w.log, w.others⟩)

def adjust (env : RuleSurroundings τ) (step : Step) (w : RuleWorld τ) : RuleWorld τ :=
  let r := w.rule.adjust step
  let others :=
    match r.1 with
    | some power_control => env.setThingProperties power_control w.others
    | none => w.others
  ⟨r.2, .adjusted step w.rule r.2 r.1 :: w.log, others⟩

end RuleWorld

def RuleMember.strategy {τ : Type} (env : RuleSurroundings τ) : RuleMember τ → Strategy (RuleWorld τ)
  | .rule thingId priority =>
    { thingId := thingId
      priority := priority
      wantsToStepDown := fun _ w => w.ask false (env.offExpression w.others)
      wantsToStepUp := fun _ w => w.ask true (env.onExpression w.others)
      adjust := fun step _ w => w.adjust env step }
  | .other s =>
    { thingId := s.thingId
      priority := s.priority
      wantsToStepDown := fun p w => ((s.wantsToStepDown p w.others).1,
        { w with others := (s.wantsToStepDown p w.others).2 })
      wantsToStepUp := fun p w => ((s.wantsToStepUp p w.others).1,
        { w with others := (s.wantsToStepUp p w.others).2 })
      adjust := fun step p w => { w with others := s.adjust step p w.others } }

def RuleSurroundings.symbolRepository {τ : Type} (env : RuleSurroundings τ) :
    SymbolRepository (RuleWorld τ) where
  setSymbol name value w := { w with others := env.symbols.setSymbol name value w.others }

inductive RuleEvent (τ : Type)
  | update (members : List (RuleMember τ)) (p : SiteProperties)
  | outside (others : τ)

namespace RuleRun
variable {τ : Type}

def start (others : τ) : PowerManager (RuleWorld τ) := ⟨0, ⟨{}, [], others⟩⟩

def handle (env : RuleSurroundings τ) (m : PowerManager (RuleWorld τ)) :
    RuleEvent τ → PowerManager (RuleWorld τ)
  | .update members p =>
    (onSiteProperties env.symbolRepository (members.map (RuleMember.strategy env)) p m).1
  | .outside others => { m with world := { m.world with others } }

end RuleRun

/-! ### What a step goes back to -/

/- What the queries so far make of `_nextState`: the last true expression decides. -/
def decided : List RuleEntry → Option Bool
  | [] => none
  | .asked target evaluated _ _ _ :: log => if evaluated then some target else decided log
  | .adjusted .. :: log => decided log

/- The last query whose expression was true was one for `target`. -/
def LastTrue (target : Bool) (log : List RuleEntry) : Prop :=
  ∃ recent before after answer earlier,
    log = recent ++ .asked target true before after answer :: earlier ∧
      ∀ before after answer, .asked (!target) true before after answer ∉ recent

theorem lastTrue_of_decided {target : Bool} {log : List RuleEntry}
    (h : decided log = some target) : LastTrue target log := by
  induction log with
  | nil => cases h
  | cons e log ih =>
    have skip : (∀ before after answer, e ≠ .asked (!target) true before after answer) →
        decided log = some target → LastTrue target (e :: log) := by
      intro he hlog
      obtain ⟨recent, before, after, answer, earlier, rfl, hrecent⟩ := ih hlog
      refine ⟨e :: recent, before, after, answer, earlier, rfl, ?_⟩
      intro b a r hmem
      cases List.mem_cons.mp hmem with
      | inl heq => exact he b a r heq.symm
      | inr hmem => exact hrecent b a r hmem
    cases e with
    | adjusted step before after power_control => exact skip (by simp) h
    | asked target' evaluated before after answer =>
      cases evaluated with
      | false => exact skip (by simp) h
      | true =>
        obtain rfl : target' = target := Option.some.inj h
        exact ⟨[], before, after, answer, log, rfl, by simp⟩

/- The direction a step goes; to keep is none. -/
def target : Step → Option Bool
  | .Keep => none
  | .Down => some false
  | .Up => some true

/- `_nextState` is what the queries decided, and so was each step when it was taken. -/
structure RuleWorld.Recorded {τ : Type} (w : RuleWorld τ) : Prop where
  nextState : w.rule.nextState = decided w.log
  steps : ∀ step before after power_control log,
    .adjusted step before after power_control :: log <:+ w.log → step ≠ .Keep →
      decided log = target step

namespace RuleWorld
variable {τ : Type}

theorem ask_recorded (target evaluated : Bool) {w : RuleWorld τ} (h : w.Recorded) :
    (w.ask target evaluated).2.Recorded where
  nextState := by
    cases evaluated with
    | false => exact h.nextState
    | true => rfl
  steps := by
    intro step before after power_control log hlog hstep
    cases List.suffix_cons_iff.mp hlog with
    | inl heq => cases heq
    | inr hlog => exact h.steps step before after power_control log hlog hstep

theorem adjust_recorded (env : RuleSurroundings τ) (step : Step) {w : RuleWorld τ}
    (h : w.Recorded) (hdecided : step ≠ .Keep → w.rule.nextState = target step) :
    (w.adjust env step).Recorded where
  nextState := h.nextState
  steps := by
    intro step' before after power_control log hlog hstep
    cases List.suffix_cons_iff.mp hlog with
    | inl heq =>
      cases heq
      rw [← h.nextState]
      exact hdecided hstep
    | inr hlog => exact h.steps step' before after power_control log hlog hstep

theorem member_preserves (env : RuleSurroundings τ) (member : RuleMember τ) :
    Preserves Recorded (member.strategy env) := by
  cases member with
  | rule thingId priority =>
    refine ⟨?_, ?_, ?_, ?_, ?_⟩
    · exact fun _ w h => ask_recorded false (env.offExpression w.others) h
    · exact fun _ w h => ask_recorded true (env.onExpression w.others) h
    · intro _ w h hw
      apply adjust_recorded env .Down (ask_recorded false (env.offExpression w.others) h)
      exact fun _ => RuleActuationStrategy.wantsToStep_true hw
    · intro _ w h hw
      apply adjust_recorded env .Up (ask_recorded true (env.onExpression w.others) h)
      exact fun _ => RuleActuationStrategy.wantsToStep_true hw
    · exact fun _ w h => adjust_recorded env .Keep h (absurd rfl)
  | other s =>
    have hsame : ∀ (w : RuleWorld τ) (others : τ), w.Recorded → { w with others }.Recorded :=
      fun _ _ h => ⟨h.nextState, h.steps⟩
    refine ⟨?_, ?_, ?_, ?_, ?_⟩
    · exact fun _ w h => hsame w _ h
    · exact fun _ w h => hsame w _ h
    · exact fun _ w h _ => hsame w _ h
    · exact fun _ w h _ => hsame w _ h
    · exact fun _ w h => hsame w _ h

end RuleWorld

namespace RuleRun
variable {τ : Type}

theorem handle_recorded (env : RuleSurroundings τ) (m : PowerManager (RuleWorld τ))
    (e : RuleEvent τ) (h : m.world.Recorded) : (handle env m e).world.Recorded := by
  cases e with
  | update members p =>
    apply onSiteProperties_preserves env.symbolRepository _ _ p m h
    · exact fun _ _ w hw => ⟨hw.nextState, hw.steps⟩
    · intro s hs
      obtain ⟨member, -, rfl⟩ := List.mem_map.mp hs
      exact RuleWorld.member_preserves env member
  | outside others => exact ⟨h.nextState, h.steps⟩

theorem run_recorded (env : RuleSurroundings τ) (others : τ) (events : List (RuleEvent τ)) :
    (events.foldl (handle env) (start others)).world.Recorded := by
  have hstart : (start others).world.Recorded :=
    ⟨rfl, by simp [start]⟩
  exact Runs.foldl_invariant (I := fun m : PowerManager (RuleWorld τ) => m.world.Recorded)
    (handle_recorded env) events _ hstart

/-- Whatever the expressions evaluate to and whatever the other strategies do: a step up
comes only after the on expression was true when the rule was asked to step up, then or
in an earlier update, and the off expression has not been true at a query since; a step
down the other way round. -/
theorem rule_steps_run (env : RuleSurroundings τ) (others : τ) (events : List (RuleEvent τ)) :
    let w := (events.foldl (handle env) (start others)).world
    ∀ later before after power_control earlier,
      (w.log = later ++ .adjusted .Up before after power_control :: earlier →
        LastTrue true earlier) ∧
      (w.log = later ++ .adjusted .Down before after power_control :: earlier →
        LastTrue false earlier) := by
  intro w later before after power_control earlier
  have hw : w.Recorded := run_recorded env others events
  refine ⟨?_, ?_⟩
  · intro hlog
    exact lastTrue_of_decided
      (hw.steps .Up before after power_control earlier ⟨later, hlog.symm⟩ (by decide))
  · intro hlog
    exact lastTrue_of_decided
      (hw.steps .Down before after power_control earlier ⟨later, hlog.symm⟩ (by decide))

/- What the two expressions evaluate to, and no other code. -/
def constant : RuleSurroundings (Bool × Bool) where
  onExpression := Prod.fst
  offExpression := Prod.snd
  symbols := ⟨fun _ _ w => w⟩
  setThingProperties _ w := w

/- On is true in the update at 100 s, when no step up is due yet, and neither expression
is true in the update at 200 s. -/
def delayedRun : RuleWorld (Bool × Bool) :=
  ([.outside (true, false), .update [.rule [] 0] ⟨100, 0, 0, 0, 0⟩, .outside (false, false),
    .update [.rule [] 0] ⟨200, 0, 0, 0, 0⟩].foldl (handle constant) (start (false, false))).world

def pending : RuleActuationStrategy := ⟨none, some true⟩

theorem delayedRun_log : delayedRun.log =
    [] ++ .adjusted .Up pending ⟨some true, some true⟩ (some true) ::
      .asked true false pending pending true ::
      [.asked false false pending pending false, .adjusted .Keep pending pending none,
        .asked true true {} pending true, .asked false false {} {} false] := by
  decide +kernel

/- Each step up or down comes right after a query whose expression was true. -/
def StepsWhileTrue (log : List RuleEntry) : Prop :=
  ∀ later step before after power_control target evaluated before' after' answer earlier,
    log = later ++ .adjusted step before after power_control ::
        .asked target evaluated before' after' answer :: earlier →
      step ≠ .Keep → evaluated = true

theorem not_steps_while_true : ¬ StepsWhileTrue delayedRun.log ∧ delayedRun.others = (false, false) := by
  refine ⟨?_, by decide +kernel⟩
  intro h
  exact absurd (h [] _ _ _ _ _ _ _ _ _ _ delayedRun_log (by decide)) (by decide)

theorem rule_steps_delayed : ∃ earlier, delayedRun.log =
    [] ++ .adjusted .Up pending ⟨some true, some true⟩ (some true) :: earlier ∧
      LastTrue true earlier := by
  refine ⟨_, delayedRun_log, ?_⟩
  exact (rule_steps_run constant (false, false) _ [] _ _ _ _).1 delayedRun_log

end RuleRun
end Iotic.Rules
