import Iotic.Config.ConfigRepository
import Iotic.Lib.CyclicRun
import Iotic.Lib.Runs
import Iotic.Things.Thing
import Mathlib.Algebra.BigOperators.Group.List.Basic

/-!
# The multi-phase strategy (MultiPhaseStrategy.cpp)

A relay with one output a phase. Phases are switched on at `_nextStepUpPhase`
and off at `_nextStepDownPhase`; both pointers go round the ring of phases. The
strategy decides on what the device reports and commands its own `_currentStates`.
-/

namespace Iotic.Strategies
open Config Things

/-! ### State and queries -/

structure MultiPhaseStrategy where
  powerThresholds : List ℤ
  hystereses : List ℤ
  phaseLimitTimepoint : ℤ
  phaseLimit : ℤ
  nextStepUpPhase : ℕ
  nextStepDownPhase : ℕ
  currentStates : List Bool
  timestamps : List ℤ
  deliveredEnergy : ℤ
  currentDay : ℤ
  isInputActive : Bool
  deriving DecidableEq, Repr

/- The two properties the strategy reads back from its thing, once reported. -/
structure Reported where
  digitalInput : Option (List Bool)
  multistateSelector : Option (List Bool)
  deriving DecidableEq, Repr

/- What `adjust` hands to `_thing->setProperties`. -/
structure Published where
  multistateSelector : List Bool
  power : ℤ
  energy : ℤ
  deriving DecidableEq, Repr

namespace MultiPhaseStrategy

/- The constructor, without its subscription. -/
def construct (cfg : ConfigRepository) (powerThresholds : List ℤ) : MultiPhaseStrategy where
  powerThresholds := powerThresholds
  hystereses := powerThresholds.map cfg.hysteresisFor
  phaseLimitTimepoint := 0
  phaseLimit := powerThresholds.length
  nextStepUpPhase := 0
  nextStepDownPhase := 0
  currentStates := List.replicate powerThresholds.length false
  timestamps := List.replicate powerThresholds.length 0
  deliveredEnergy := 0
  currentDay := 0
  isInputActive := false

/-- `MultiPhaseStrategy::from`. -/
def «from» (cfg : ConfigRepository) (thing : Thing) : Option MultiPhaseStrategy :=
  if thing.type ≠ .Relay then none
  else
    let powerThresholds := cfg.valueOr TomlValue.ints? thing.id .power_thresholds []
    if powerThresholds.length = 0 then none else some (construct cfg powerThresholds)

def inputsAndStates (thing : Reported) : List Bool × List Bool :=
  (thing.digitalInput.getD [], thing.multistateSelector.getD [])

def decrementPhaseLimit (now : ℤ) (s : MultiPhaseStrategy) : MultiPhaseStrategy :=
  if s.phaseLimit = 0 then s
  else { s with phaseLimitTimepoint := now, phaseLimit := max (s.phaseLimit - 1) 0 }

/- Minutes in ticks of the system clock, nanoseconds in 64 bits; a product beyond them
has no defined result, and wraps here. -/
def nanoseconds (minutes : ℤ) : ℤ :=
  (minutes * 60000000000).bmod (2 ^ 64)

def incrementPhaseLimit (cfg : ConfigRepository) (now : ℤ) (s : MultiPhaseStrategy) :
    MultiPhaseStrategy :=
  if s.phaseLimit ≥ s.powerThresholds.length then s
  else if now - s.phaseLimitTimepoint < nanoseconds cfg.phaseLimitDuration then s
  else { s with
    phaseLimitTimepoint := now
    phaseLimit := min (s.phaseLimit + 1) s.powerThresholds.length }

/- The subscription to the thing's digitalInput. -/
def onDigitalInput (now : ℤ) (value : List Bool) (s : MultiPhaseStrategy) : MultiPhaseStrategy :=
  let allTrue := value.all id
  let s := if s.isInputActive && !allTrue then s.decrementPhaseLimit now else s
  { s with isInputActive := allTrue }

def wantsToStepDown (thing : Reported) (p : SiteProperties) (s : MultiPhaseStrategy) : Bool :=
  let (inputs, states) := inputsAndStates thing
  if inputs.length ≠ s.powerThresholds.length ∨ states.length ≠ s.powerThresholds.length then false
  else if !states.getD s.nextStepDownPhase false then false
  else if !s.isInputActive then true
  else decide (p.longTermGridPower > 0)

/- Returns the members it leaves: the query may raise the phase limit. The bound on the
grid power is an `int`, which holds the sum of any relay's threshold and hysteresis. -/
def wantsToStepUp (cfg : ConfigRepository) (now : ℤ) (thing : Reported) (p : SiteProperties)
    (s : MultiPhaseStrategy) : Bool × MultiPhaseStrategy :=
  let (inputs, states) := inputsAndStates thing
  if inputs.length ≠ s.powerThresholds.length ∨ states.length ≠ s.powerThresholds.length then
    (false, s)
  else if states.getD s.nextStepUpPhase false then (false, s)
  else if !inputs.getD s.nextStepUpPhase false then (false, s)
  else
    let s := s.incrementPhaseLimit cfg now
    if (states.count true : ℤ) ≥ s.phaseLimit then (false, s)
    else (decide (p.longTermGridPower <
      -s.powerThresholds.getD s.nextStepUpPhase 0 - s.hystereses.getD s.nextStepUpPhase 0), s)

/-! ### Adjusting -/

/- A new day starts with no energy delivered. -/
def rollDay (ts : ℤ) (s : MultiPhaseStrategy) : MultiPhaseStrategy :=
  let day := ts.tdiv (24 * 3600)
  if day ≠ s.currentDay then { s with currentDay := day, deliveredEnergy := 0 } else s

def stepDown (ts : ℤ) (s : MultiPhaseStrategy) : MultiPhaseStrategy :=
  { s with
    deliveredEnergy := s.deliveredEnergy + (ts - s.timestamps.getD s.nextStepDownPhase 0) *
      s.powerThresholds.getD s.nextStepDownPhase 0
    currentStates := s.currentStates.set s.nextStepDownPhase false
    nextStepDownPhase := (s.nextStepDownPhase + 1) % s.currentStates.length }

def stepUp (ts : ℤ) (s : MultiPhaseStrategy) : MultiPhaseStrategy :=
  { s with
    timestamps := s.timestamps.set s.nextStepUpPhase ts
    currentStates := s.currentStates.set s.nextStepUpPhase true
    nextStepUpPhase := (s.nextStepUpPhase + 1) % s.currentStates.length }

/- The phases whose flag is set, by index. -/
def phasesOn (s : MultiPhaseStrategy) : List ℕ :=
  (List.range s.currentStates.length).filter fun i => s.currentStates.getD i false

def currentPower (s : MultiPhaseStrategy) : ℤ :=
  (s.phasesOn.map fun i => s.powerThresholds.getD i 0).sum

def currentEnergy (ts : ℤ) (s : MultiPhaseStrategy) : ℤ :=
  (s.phasesOn.map fun i => (ts - s.timestamps.getD i 0) * s.powerThresholds.getD i 0).sum

def publish (ts : ℤ) (s : MultiPhaseStrategy) : Published where
  multistateSelector := s.currentStates
  power := s.currentPower
  -- Ws into kWm
  energy := (s.deliveredEnergy + s.currentEnergy ts).tdiv 60000

def adjust (step : Step) (p : SiteProperties) (s : MultiPhaseStrategy) :
    MultiPhaseStrategy × Published :=
  let s := s.rollDay p.ts
  let s := match step with
    | .Keep => s
    | .Down => s.stepDown p.ts
    | .Up => s.stepUp p.ts
  (s, s.publish p.ts)

/-! ### What the queries take and leave -/

/- The queries and the subscription leave everything but the phase limit and the
input flag. -/
theorem incrementPhaseLimit_frame (cfg : ConfigRepository) (now : ℤ) (s : MultiPhaseStrategy) :
    ∃ t l, s.incrementPhaseLimit cfg now = { s with phaseLimitTimepoint := t, phaseLimit := l } := by
  unfold incrementPhaseLimit
  split_ifs
  · exact ⟨_, _, rfl⟩
  · exact ⟨_, _, rfl⟩
  · exact ⟨_, _, rfl⟩

theorem onDigitalInput_frame (now : ℤ) (value : List Bool) (s : MultiPhaseStrategy) :
    ∃ t l a, s.onDigitalInput now value =
      { s with phaseLimitTimepoint := t, phaseLimit := l, isInputActive := a } := by
  unfold onDigitalInput decrementPhaseLimit
  dsimp only
  split_ifs
  · exact ⟨_, _, _, rfl⟩
  · exact ⟨_, _, _, rfl⟩
  · exact ⟨_, _, _, rfl⟩

/- All that a wish to step up takes; the limit is the one the query leaves. -/
structure WantsUp (cfg : ConfigRepository) (now : ℤ) (thing : Reported) (p : SiteProperties)
    (s : MultiPhaseStrategy) : Prop where
  inputs : (inputsAndStates thing).1.length = s.powerThresholds.length
  states : (inputsAndStates thing).2.length = s.powerThresholds.length
  off : (inputsAndStates thing).2.getD s.nextStepUpPhase false = false
  active : (inputsAndStates thing).1.getD s.nextStepUpPhase false = true
  below : ((inputsAndStates thing).2.count true : ℤ) < (s.incrementPhaseLimit cfg now).phaseLimit
  surplus : p.longTermGridPower <
    -s.powerThresholds.getD s.nextStepUpPhase 0 - s.hystereses.getD s.nextStepUpPhase 0

/- The query ends before it looks at the limit, or it has raised it where it may. -/
theorem wantsToStepUp_cases (cfg : ConfigRepository) (now : ℤ) (thing : Reported)
    (p : SiteProperties) (s : MultiPhaseStrategy) :
    s.wantsToStepUp cfg now thing p = (false, s) ∨
    ((s.wantsToStepUp cfg now thing p).2 = s.incrementPhaseLimit cfg now ∧
      ((s.wantsToStepUp cfg now thing p).1 = true → s.WantsUp cfg now thing p)) := by
  obtain ⟨t, l, hf⟩ := incrementPhaseLimit_frame cfg now s
  unfold wantsToStepUp
  dsimp only
  split_ifs with hsize hon hin hcount
  · exact Or.inl rfl
  · exact Or.inl rfl
  · exact Or.inl rfl
  · exact Or.inr ⟨rfl, by simp⟩
  · refine Or.inr ⟨rfl, ?_⟩
    intro h
    simp only [not_or, not_not] at hsize
    simp only [Bool.not_eq_true', Bool.not_eq_false] at hin
    have hsurplus := of_decide_eq_true h
    rw [hf] at hsurplus
    exact ⟨hsize.1, hsize.2, Bool.eq_false_iff.mpr hon, hin, not_le.mp hcount, hsurplus⟩

theorem wantsToStepUp_true {cfg : ConfigRepository} {now : ℤ} {thing : Reported}
    {p : SiteProperties} {s : MultiPhaseStrategy} (h : (s.wantsToStepUp cfg now thing p).1 = true) :
    (s.wantsToStepUp cfg now thing p).2 = s.incrementPhaseLimit cfg now ∧
      s.WantsUp cfg now thing p := by
  rcases wantsToStepUp_cases cfg now thing p s with hc | ⟨hleft, hwants⟩
  · simp [hc] at h
  · exact ⟨hleft, hwants h⟩

theorem wantsToStepUp_frame (cfg : ConfigRepository) (now : ℤ) (thing : Reported)
    (p : SiteProperties) (s : MultiPhaseStrategy) : ∃ t l,
      (s.wantsToStepUp cfg now thing p).2 = { s with phaseLimitTimepoint := t, phaseLimit := l } := by
  rcases wantsToStepUp_cases cfg now thing p s with hc | ⟨hleft, -⟩
  · rw [hc]
    exact ⟨_, _, rfl⟩
  · rw [hleft]
    exact incrementPhaseLimit_frame cfg now s

/- A wish to step down takes readings of the right length, the next phase reported on,
and a reason. -/
theorem wantsToStepDown_iff (thing : Reported) (p : SiteProperties) (s : MultiPhaseStrategy) :
    s.wantsToStepDown thing p = true ↔
      ((inputsAndStates thing).1.length = s.powerThresholds.length ∧
        (inputsAndStates thing).2.length = s.powerThresholds.length) ∧
      (inputsAndStates thing).2.getD s.nextStepDownPhase false = true ∧
      (s.isInputActive = false ∨ 0 < p.longTermGridPower) := by
  unfold wantsToStepDown
  dsimp only
  generalize (inputsAndStates thing).2.getD s.nextStepDownPhase false = on
  generalize s.isInputActive = active
  by_cases hsize : (inputsAndStates thing).1.length = s.powerThresholds.length ∧
      (inputsAndStates thing).2.length = s.powerThresholds.length
  · simp only [hsize.1, hsize.2, ne_eq, not_true_eq_false, or_self, if_false, and_self, true_and]
    cases on <;> cases active <;> simp
  · simp only [ne_eq, not_and_or.mp hsize, if_true, hsize, false_and, Bool.false_eq_true]

/- The members the ring of phases is made of. -/
def ring (s : MultiPhaseStrategy) : List ℤ × ℕ × ℕ × List Bool :=
  (s.powerThresholds, s.nextStepUpPhase, s.nextStepDownPhase, s.currentStates)

theorem onDigitalInput_ring (now : ℤ) (value : List Bool) (s : MultiPhaseStrategy) :
    (s.onDigitalInput now value).ring = s.ring := by
  obtain ⟨t, l, a, hf⟩ := onDigitalInput_frame now value s
  rw [hf]
  rfl

theorem rollDay_ring (ts : ℤ) (s : MultiPhaseStrategy) : (s.rollDay ts).ring = s.ring := by
  unfold rollDay
  dsimp only
  split_ifs <;> rfl

theorem wantsToStepUp_ring (cfg : ConfigRepository) (now : ℤ) (thing : Reported)
    (p : SiteProperties) (s : MultiPhaseStrategy) :
    (s.wantsToStepUp cfg now thing p).2.ring = s.ring := by
  obtain ⟨t, l, hf⟩ := wantsToStepUp_frame cfg now thing p s
  rw [hf]
  rfl

theorem adjust_ring (step : Step) (p : SiteProperties) (s : MultiPhaseStrategy) :
    (s.adjust step p).1.ring = match step with
      | .Keep => s.ring
      | .Down => (s.stepDown p.ts).ring
      | .Up => (s.stepUp p.ts).ring := by
  have hr := rollDay_ring p.ts s
  simp only [ring, Prod.mk.injEq] at hr
  obtain ⟨ht, hu, hd, hc⟩ := hr
  cases step <;> simp only [adjust, ring, stepDown, stepUp, ht, hu, hd, hc]

end MultiPhaseStrategy

/-! ### Runs with a device that follows its commands -/

/- The strategy and its device, which reports back the selector it was last
commanded. `ups` and `downs` record the phases switched on and off, in order. -/
structure Plant where
  strategy : MultiPhaseStrategy
  thing : Reported
  ups : List ℕ
  downs : List ℕ
  deriving DecidableEq, Repr

/- Inputs, clock and readings are whatever they are at each event. -/
inductive PlantEvent
  | report (now : ℤ) (digitalInput : List Bool)
  | queryDown (p : SiteProperties)
  | queryUp (now : ℤ) (p : SiteProperties)
  | keep (p : SiteProperties)
  | down (p : SiteProperties)
  | up (now : ℤ) (p : SiteProperties)
  deriving DecidableEq, Repr

namespace Plant
open MultiPhaseStrategy

def start (cfg : ConfigRepository) (powerThresholds : List ℤ) : Plant where
  strategy := construct cfg powerThresholds
  thing := ⟨none, some (List.replicate powerThresholds.length false)⟩
  ups := []
  downs := []

/- `adjust`, and the device taking over what it publishes. -/
def adjust (k : Step) (p : SiteProperties) (s : MultiPhaseStrategy) (q : Plant) : Plant :=
  let r := s.adjust k p
  { q with strategy := r.1, thing := { q.thing with multistateSelector := some r.2.multistateSelector } }

/- `none` where the strategy is not to be stepped: it does not want to. -/
def step (cfg : ConfigRepository) (q : Plant) : PlantEvent → Option Plant
  | .report now value =>
    some { q with
      strategy := q.strategy.onDigitalInput now value
      thing := { q.thing with digitalInput := some value } }
  | .queryDown _ => some q
  | .queryUp now p => some { q with strategy := (q.strategy.wantsToStepUp cfg now q.thing p).2 }
  | .keep p => some (q.adjust .Keep p q.strategy)
  | .down p =>
    if q.strategy.wantsToStepDown q.thing p then
      some { q.adjust .Down p q.strategy with downs := q.downs ++ [q.strategy.nextStepDownPhase] }
    else none
  | .up now p =>
    let r := q.strategy.wantsToStepUp cfg now q.thing p
    if r.1 then some { q.adjust .Up p r.2 with ups := q.ups ++ [r.2.nextStepUpPhase] } else none

/- The device echoes the commanded states, these are `k` phases in a row from
`_nextStepDownPhase`, and what was switched off so far is what was switched on
first. -/
structure Ring (n k : ℕ) (q : Plant) : Prop where
  size : q.strategy.powerThresholds.length = n
  holds : CyclicRun.Holds n q.strategy.nextStepDownPhase q.strategy.nextStepUpPhase k
    q.strategy.currentStates
  echo : q.thing.multistateSelector = some q.strategy.currentStates
  fifo : q.ups = q.downs ++ CyclicRun.positions n q.strategy.nextStepDownPhase k

theorem start_ring (cfg : ConfigRepository) {powerThresholds : List ℤ}
    (h : 0 < powerThresholds.length) : (start cfg powerThresholds).Ring powerThresholds.length 0 where
  size := rfl
  holds := CyclicRun.holds_empty h
  echo := rfl
  fifo := rfl

/- `Ring` reads nothing of the strategy but its ring members. -/
theorem Ring.congr {n k : ℕ} {q q' : Plant} (h : q.Ring n k) (hr : q'.strategy.ring = q.strategy.ring)
    (ht : q'.thing.multistateSelector = q.thing.multistateSelector) (hu : q'.ups = q.ups)
    (hd : q'.downs = q.downs) : q'.Ring n k := by
  simp only [MultiPhaseStrategy.ring, Prod.mk.injEq] at hr
  obtain ⟨h1, h2, h3, h4⟩ := hr
  constructor
  · rw [h1, h.size]
  · rw [h2, h3, h4]
    exact h.holds
  · rw [ht, h4, h.echo]
  · rw [hu, hd, h3, h.fifo]

theorem Ring.reported {n k : ℕ} {q : Plant} (h : q.Ring n k) :
    (inputsAndStates q.thing).2 = q.strategy.currentStates := by
  simp only [inputsAndStates, h.echo, Option.getD_some]

theorem keep_ring {n k : ℕ} {q : Plant} (p : SiteProperties) (h : q.Ring n k) :
    (q.adjust .Keep p q.strategy).Ring n k := by
  have hr : (q.adjust .Keep p q.strategy).strategy.ring = q.strategy.ring :=
    adjust_ring .Keep p q.strategy
  have hc : (q.adjust .Keep p q.strategy).strategy.currentStates = q.strategy.currentStates :=
    congrArg (fun r => r.2.2.2) hr
  refine h.congr hr ?_ rfl rfl
  show some (q.adjust .Keep p q.strategy).strategy.currentStates = q.thing.multistateSelector
  rw [hc, h.echo]

theorem down_ring {n k : ℕ} {q : Plant} (p : SiteProperties) (h : q.Ring n k)
    (hw : q.strategy.wantsToStepDown q.thing p = true) :
    ∃ j, ({ q.adjust .Down p q.strategy with
      downs := q.downs ++ [q.strategy.nextStepDownPhase] } : Plant).Ring n j := by
  have hon := ((wantsToStepDown_iff q.thing p q.strategy).mp hw).2.1
  rw [h.reported, List.getD_eq_getElem?_getD] at hon
  have hflag : q.strategy.currentStates[q.strategy.nextStepDownPhase]? = some true := by
    cases hs : q.strategy.currentStates[q.strategy.nextStepDownPhase]? with
    | none => simp [hs] at hon
    | some b => simpa [hs] using hon
  have hk := h.holds.count_pos hflag
  obtain ⟨j, rfl⟩ : ∃ j, k = j + 1 := ⟨k - 1, by omega⟩
  have hr := adjust_ring .Down p q.strategy
  simp only [MultiPhaseStrategy.ring, stepDown, Prod.mk.injEq] at hr
  obtain ⟨h1, h2, h3, h4⟩ := hr
  rw [h.holds.length] at h3
  refine ⟨j, ?_, ?_, rfl, ?_⟩
  · exact (congrArg List.length h1).trans h.size
  · show CyclicRun.Holds n (q.strategy.adjust .Down p).1.nextStepDownPhase
      (q.strategy.adjust .Down p).1.nextStepUpPhase j (q.strategy.adjust .Down p).1.currentStates
    rw [h2, h3, h4]
    exact h.holds.pop
  · show q.ups = q.downs ++ [q.strategy.nextStepDownPhase] ++
      CyclicRun.positions n (q.strategy.adjust .Down p).1.nextStepDownPhase j
    rw [h3, h.fifo, CyclicRun.positions_cons n _ j h.holds.first_lt]
    simp

theorem up_ring {n k : ℕ} {q : Plant} (cfg : ConfigRepository) (now : ℤ) (p : SiteProperties)
    (h : q.Ring n k) (hw : (q.strategy.wantsToStepUp cfg now q.thing p).1 = true) :
    ∃ j, ({ q.adjust .Up p (q.strategy.wantsToStepUp cfg now q.thing p).2 with
      ups := q.ups ++ [(q.strategy.wantsToStepUp cfg now q.thing p).2.nextStepUpPhase] } :
        Plant).Ring n j := by
  have hoff := (wantsToStepUp_true hw).2.off
  have hs := wantsToStepUp_ring cfg now q.thing p q.strategy
  rw [h.reported, List.getD_eq_getElem?_getD] at hoff
  have hflag : q.strategy.currentStates[q.strategy.nextStepUpPhase]? ≠ some true := by
    intro hc
    simp [hc] at hoff
  generalize (q.strategy.wantsToStepUp cfg now q.thing p).2 = s at hs
  have hr := adjust_ring .Up p s
  simp only [MultiPhaseStrategy.ring, stepUp, Prod.mk.injEq] at hr hs
  obtain ⟨h1, h2, h3, h4⟩ := hr
  obtain ⟨e1, e2, e3, e4⟩ := hs
  rw [e4, e2] at h4
  rw [e4, e2, h.holds.length] at h2
  refine ⟨k + 1, ?_, ?_, rfl, ?_⟩
  · exact (congrArg List.length (h1.trans e1)).trans h.size
  · show CyclicRun.Holds n (s.adjust .Up p).1.nextStepDownPhase
      (s.adjust .Up p).1.nextStepUpPhase (k + 1) (s.adjust .Up p).1.currentStates
    rw [h2, h3, h4, e3]
    exact h.holds.push hflag
  · show q.ups ++ [s.nextStepUpPhase] = q.downs ++
      CyclicRun.positions n (s.adjust .Up p).1.nextStepDownPhase (k + 1)
    rw [h3, e3, e2, h.fifo, CyclicRun.positions_snoc, ← h.holds.next_eq, List.append_assoc]

theorem step_ring {n k : ℕ} (cfg : ConfigRepository) {q q' : Plant} (e : PlantEvent)
    (h : q.Ring n k) (hs : q.step cfg e = some q') : ∃ j, q'.Ring n j := by
  cases e with
  | report now value =>
    obtain rfl := Option.some.inj hs
    exact ⟨k, h.congr (onDigitalInput_ring now value q.strategy) rfl rfl rfl⟩
  | queryDown p =>
    obtain rfl := Option.some.inj hs
    exact ⟨k, h⟩
  | queryUp now p =>
    obtain rfl := Option.some.inj hs
    exact ⟨k, h.congr (wantsToStepUp_ring cfg now q.thing p q.strategy) rfl rfl rfl⟩
  | keep p =>
    obtain rfl := Option.some.inj hs
    exact ⟨k, keep_ring p h⟩
  | down p =>
    rw [step] at hs
    split_ifs at hs with hw
    obtain rfl := Option.some.inj hs
    exact down_ring p h hw
  | up now p =>
    rw [step] at hs
    dsimp only at hs
    split_ifs at hs with hw
    obtain rfl := Option.some.inj hs
    exact up_ring cfg now p h hw

/- Whatever the inputs, the readings and the clock do: both pointers stay inside
the ring, the commanded phases are the `k` in a row from `_nextStepDownPhase` to
just before `_nextStepUpPhase`, and phases go off in the order they went on. -/
theorem ring_run (cfg : ConfigRepository) (powerThresholds : List ℤ)
    (hn : 1 ≤ powerThresholds.length) (events : List PlantEvent) (q : Plant)
    (h : Runs.Run (fun s e t => step cfg s e = some t) (start cfg powerThresholds) events q) :
    q.strategy.nextStepUpPhase < powerThresholds.length ∧
    q.strategy.nextStepDownPhase < powerThresholds.length ∧
    ∃ k ≤ powerThresholds.length,
      q.strategy.nextStepUpPhase = (q.strategy.nextStepDownPhase + k) % powerThresholds.length ∧
      (q.strategy.nextStepUpPhase = q.strategy.nextStepDownPhase →
        k = 0 ∨ k = powerThresholds.length) ∧
      (∀ i, q.strategy.currentStates[i]? = some true ↔
        i ∈ CyclicRun.positions powerThresholds.length q.strategy.nextStepDownPhase k) ∧
      q.ups = q.downs ++
        CyclicRun.positions powerThresholds.length q.strategy.nextStepDownPhase k := by
  have hinv : ∃ k, q.Ring powerThresholds.length k :=
    h.invariant (I := fun q => ∃ k, q.Ring powerThresholds.length k)
      (fun s e t ⟨_, hs⟩ he => step_ring cfg e hs he) ⟨0, start_ring cfg hn⟩
  obtain ⟨k, hk⟩ := hinv
  refine ⟨hk.holds.next_lt, hk.holds.first_lt, k, hk.holds.count_le, hk.holds.next_eq, ?_,
    hk.holds.flag_iff_mem, hk.fifo⟩
  intro he
  by_contra hc
  have hlt : k < powerThresholds.length := by have := hk.holds.count_le; omega
  have hm : (q.strategy.nextStepDownPhase + k) % powerThresholds.length =
      (q.strategy.nextStepDownPhase + 0) % powerThresholds.length := by
    rw [← hk.holds.next_eq, he, Nat.add_zero, Nat.mod_eq_of_lt hk.holds.first_lt]
  have hz := CyclicRun.offset_inj hlt (by omega) hm
  omega

/- Three phases on, one off again. -/
theorem ring_run_three :
    let cfg : ConfigRepository := ⟨fun _ _ => none⟩
    let surplus : SiteProperties := ⟨1800, -2751, -2751, -2751, 3000⟩
    let demand : SiteProperties := ⟨3600, 100, 100, 100, 0⟩
    ∃ q, Runs.exec (step cfg) (start cfg [1000, 1000, 1000]) [.report 0 [true, true, true],
      .up 1 surplus, .up 2 surplus, .keep surplus, .up 3 surplus, .down demand] = some q ∧
      q.strategy.nextStepUpPhase < 3 := by
  intro cfg surplus demand
  obtain ⟨q, hq⟩ := Option.isSome_iff_exists.mp (show (Runs.exec (step cfg)
    (start cfg [1000, 1000, 1000]) [.report 0 [true, true, true], .up 1 surplus, .up 2 surplus,
      .keep surplus, .up 3 surplus, .down demand]).isSome = true by decide +kernel)
  exact ⟨q, hq, (ring_run cfg [1000, 1000, 1000] (by decide) _ q (Runs.run_of_exec hq)).1⟩

end Plant
end Iotic.Strategies
