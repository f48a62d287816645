import Iotic.Strategies.DailyEnergy

/-!
# The steps and the wishes of a multi-phase strategy

The guards of both queries read what the device reports, a step changes what the
strategy commands. Here both are followed over runs in which the device reports
anything: late, offline, switched by hand.
-/

namespace Iotic.Strategies
open Config Things

/-! ### What a step does to the commanded phases -/

namespace MultiPhaseStrategy

/- The number of phases commanded on. -/
def commandedOn (s : MultiPhaseStrategy) : ℕ := s.currentStates.count true

/- Whether the device reports phase `i` on. -/
def reportedOn (thing : Reported) (i : ℕ) : Bool := (inputsAndStates thing).2.getD i false

/- Both steps set one flag. From `s` to `t` phase `i` is commanded to `b`; if it
was not before, it is one more, or one less, that is on. -/
def Switches (i : ℕ) (b : Bool) (s t : MultiPhaseStrategy) : Prop :=
  t.isOn i = b ∧ (∀ j, j ≠ i → t.isOn j = s.isOn j) ∧
    if s.isOn i = b then t.currentStates = s.currentStates
    else if b then t.commandedOn = s.commandedOn + 1
    else t.commandedOn + 1 = s.commandedOn

theorem getElem_of_isOn {s : MultiPhaseStrategy} {i : ℕ} (hi : i < s.currentStates.length) :
    s.currentStates[i] = s.isOn i := by
  simp [isOn, List.getD_eq_getElem?_getD, List.getElem?_eq_getElem hi]

theorem set_switches {s t : MultiPhaseStrategy} {i : ℕ} {b : Bool}
    (hi : i < s.currentStates.length) (ht : t.currentStates = s.currentStates.set i b) :
    Switches i b s t := by
  have hon : t.isOn i = b := by
    unfold isOn
    rw [ht, getD_set _ _ _ hi, if_pos rfl]
  have hother : ∀ j, j ≠ i → t.isOn j = s.isOn j := by
    intro j hj
    simp only [isOn, ht, List.getD_eq_getElem?_getD, List.getElem?_set_ne (Ne.symm hj)]
  refine ⟨hon, hother, ?_⟩
  have hcount : t.commandedOn = s.commandedOn - (if s.isOn i == true then 1 else 0) +
      if b == true then 1 else 0 := by
    unfold commandedOn
    rw [ht, List.count_set hi, getElem_of_isOn hi]
  split_ifs with hs hb
  · rw [ht, ← hs, ← getElem_of_isOn hi]
    exact List.set_getElem_self hi
  · have hoff : s.isOn i = false := by simpa [hb] using hs
    simpa [hb, hoff] using hcount
  · have hson : s.isOn i = true := by simpa [hb] using hs
    have hpos : 0 < s.commandedOn := by
      apply List.count_pos_iff.mpr
      rw [← hson, ← getElem_of_isOn hi]
      exact List.getElem_mem hi
    have hless : t.commandedOn = s.commandedOn - 1 := by simpa [hb, hson] using hcount
    omega

/- What the queries decide on, and the phase limit, are not the steps' business. -/
theorem adjust_frame (k : Step) (p : SiteProperties) (s : MultiPhaseStrategy) :
    (s.adjust k p).1.powerThresholds = s.powerThresholds ∧
    (s.adjust k p).1.hystereses = s.hystereses ∧
    (s.adjust k p).1.phaseLimit = s.phaseLimit ∧
    (s.adjust k p).1.phaseLimitTimepoint = s.phaseLimitTimepoint ∧
    (s.adjust k p).1.isInputActive = s.isInputActive := by
  unfold adjust
  rw [rollDay_eq]
  cases k <;> simp [stepDown, stepUp]

/- The pointers stay inside the ring. -/
structure Pointed (s : MultiPhaseStrategy) : Prop where
  up : s.nextStepUpPhase < s.currentStates.length
  down : s.nextStepDownPhase < s.currentStates.length

theorem construct_pointed (cfg : ConfigRepository) {powerThresholds : List ℤ}
    (h : 0 < powerThresholds.length) : (construct cfg powerThresholds).Pointed := by
  constructor
  · simpa [construct] using h
  · simpa [construct] using h

theorem Pointed.congr {s t : MultiPhaseStrategy} (h : s.Pointed) (hr : t.ring = s.ring) :
    t.Pointed := by
  simp only [ring, Prod.mk.injEq] at hr
  obtain ⟨-, hu, hd, hc⟩ := hr
  constructor
  · rw [hu, hc]
    exact h.up
  · rw [hd, hc]
    exact h.down

theorem adjust_pointed {s : MultiPhaseStrategy} (k : Step) (p : SiteProperties) (h : s.Pointed) :
    (s.adjust k p).1.Pointed := by
  have hpos : 0 < s.currentStates.length := Nat.zero_lt_of_lt h.up
  have hr := adjust_ring k p s
  cases k with
  | Keep => exact h.congr hr
  | Down =>
    apply Pointed.congr _ hr
    constructor
    · simpa [stepDown] using h.up
    · simpa [stepDown] using Nat.mod_lt _ hpos
  | Up =>
    apply Pointed.congr _ hr
    constructor
    · simpa [stepUp] using Nat.mod_lt _ hpos
    · simpa [stepUp] using h.down

theorem wantsTo_ring (cfg : ConfigRepository) (now : ℤ) (thing : Reported) (p : SiteProperties)
    (s : MultiPhaseStrategy) (k : Step) : (s.wantsTo cfg now thing p k).2.ring = s.ring := by
  cases k with
  | Keep => rfl
  | Down => rfl
  | Up => exact wantsToStepUp_ring cfg now thing p s

end MultiPhaseStrategy

/-! ### Runs with any device -/

/- A strategy and the digitalInput that was reported last. -/
structure Wired where
  strategy : MultiPhaseStrategy
  digitalInput : Option (List Bool)
  deriving DecidableEq, Repr

namespace Wired
open MultiPhaseStrategy

def start (cfg : ConfigRepository) (powerThresholds : List ℤ) : Wired :=
  ⟨construct cfg powerThresholds, none⟩

/- `none` where the strategy would be stepped against its wish. -/
def step (cfg : ConfigRepository) (q : Wired) : MeterEvent → Option Wired
  | .input now value => some ⟨q.strategy.onDigitalInput now value, some value⟩
  | .queryUp now thing p =>
    some { q with strategy := (q.strategy.wantsToStepUp cfg now thing p).2 }
  | .adjust k now thing p =>
    let answer := q.strategy.wantsTo cfg now thing p k
    if answer.1 = true then some { q with strategy := (answer.2.adjust k p).1 } else none

theorem step_pointed (cfg : ConfigRepository) (q : Wired) (e : MeterEvent) (r : Wired)
    (h : q.strategy.Pointed) (hs : q.step cfg e = some r) : r.strategy.Pointed := by
  cases e with
  | input now value =>
    obtain rfl := Option.some.inj hs
    exact h.congr (onDigitalInput_ring now value q.strategy)
  | queryUp now thing p =>
    obtain rfl := Option.some.inj hs
    exact h.congr (wantsToStepUp_ring cfg now thing p q.strategy)
  | adjust k now thing p =>
    simp only [step] at hs
    split_ifs at hs with hw
    obtain rfl := Option.some.inj hs
    exact adjust_pointed k p (h.congr (wantsTo_ring cfg now thing p q.strategy k))

theorem up_switches (cfg : ConfigRepository) (now : ℤ) (thing : Reported) (p : SiteProperties)
    {s : MultiPhaseStrategy} (h : s.Pointed) :
    Switches s.nextStepUpPhase true s ((s.wantsToStepUp cfg now thing p).2.adjust .Up p).1 := by
  obtain ⟨t, l, hf⟩ := wantsToStepUp_frame cfg now thing p s
  have hr := adjust_ring .Up p (s.wantsToStepUp cfg now thing p).2
  rw [hf] at hr ⊢
  simp only [ring, Prod.mk.injEq] at hr
  exact set_switches h.up hr.2.2.2

theorem down_switches (p : SiteProperties) {s : MultiPhaseStrategy} (h : s.Pointed) :
    Switches s.nextStepDownPhase false s (s.adjust .Down p).1 := by
  have hr := adjust_ring .Down p s
  simp only [ring, Prod.mk.injEq] at hr
  exact set_switches h.down hr.2.2.2

/-- In every run, a step up that is wanted commands on the phase at the step-up
pointer, which the device reports off, and a step down that is wanted commands off
the phase at the step-down pointer, which the device reports on. The number of
phases commanded on changes by one exactly where the strategy itself had that
phase commanded the other way. -/
theorem steps_run (cfg : ConfigRepository) (powerThresholds : List ℤ)
    (hn : 1 ≤ powerThresholds.length) (events : List MeterEvent) (q : Wired)
    (h : Runs.Run (fun q e r => q.step cfg e = some r) (start cfg powerThresholds) events q)
    (now : ℤ) (thing : Reported) (p : SiteProperties) :
    ((q.strategy.wantsToStepUp cfg now thing p).1 = true →
      reportedOn thing q.strategy.nextStepUpPhase = false ∧
      Switches q.strategy.nextStepUpPhase true q.strategy
        ((q.strategy.wantsToStepUp cfg now thing p).2.adjust .Up p).1) ∧
    (q.strategy.wantsToStepDown thing p = true →
      reportedOn thing q.strategy.nextStepDownPhase = true ∧
      Switches q.strategy.nextStepDownPhase false q.strategy (q.strategy.adjust .Down p).1) := by
  have hp : q.strategy.Pointed := h.invariant (I := fun q => q.strategy.Pointed)
    (fun q e r hq hs => step_pointed cfg q e r hq hs) (construct_pointed cfg hn)
  constructor
  · intro hw
    exact ⟨(wantsToStepUp_true hw).2.off, up_switches cfg now thing p hp⟩
  · intro hw
    exact ⟨((wantsToStepDown_iff thing p q.strategy).mp hw).2.1, down_switches p hp⟩

/- Three phases, the first of them on: the second is wanted on, and the first off once
there is demand. -/
theorem steps_run_three :
    let cfg : ConfigRepository := ⟨fun _ _ => none⟩
    let surplus : SiteProperties := ⟨1800, -2751, -2751, -2751, 3000⟩
    let demand : SiteProperties := ⟨3600, 100, 100, 100, 0⟩
    let thing : Reported := ⟨some [true, true, true], some [true, false, false]⟩
    ∃ q, Runs.exec (step cfg) (start cfg [1000, 2000, 1500]) [.input 0 [true, true, true],
        .adjust .Up 1 ⟨some [true, true, true], some [false, false, false]⟩ surplus] = some q ∧
      ((q.strategy.wantsToStepUp cfg 2 thing surplus).1 = true ∧
        reportedOn thing q.strategy.nextStepUpPhase = false ∧
        Switches q.strategy.nextStepUpPhase true q.strategy
          ((q.strategy.wantsToStepUp cfg 2 thing surplus).2.adjust .Up surplus).1) ∧
      q.strategy.wantsToStepDown thing demand = true ∧
        reportedOn thing q.strategy.nextStepDownPhase = true ∧
        Switches q.strategy.nextStepDownPhase false q.strategy (q.strategy.adjust .Down demand).1 ∧
      q.strategy.nextStepUpPhase = 1 ∧ q.strategy.nextStepDownPhase = 0 := by
  intro cfg surplus demand thing
  have hexec : Runs.exec (step cfg) (start cfg [1000, 2000, 1500]) [.input 0 [true, true, true],
      .adjust .Up 1 ⟨some [true, true, true], some [false, false, false]⟩ surplus] =
      some ⟨⟨[1000, 2000, 1500], [200, 200, 200], 0, 3, 1, 0, [true, false, false], [1800, 0, 0], 0,
        0, true⟩, some [true, true, true]⟩ := by decide +kernel
  refine ⟨_, hexec, ?_⟩
  have hrun := steps_run cfg [1000, 2000, 1500] (by decide) _ _ (Runs.run_of_exec hexec) 2 thing
  obtain ⟨hoff, hup⟩ := (hrun surplus).1 (by decide +kernel)
  obtain ⟨hon, hdown⟩ := (hrun demand).2 (by decide)
  exact ⟨⟨by decide +kernel, hoff, hup⟩, by decide, hon, hdown, rfl, rfl⟩

/- A device that has not followed yet is stepped up once more on the phase that
is commanded on already, and one that was on before the start is stepped down on
a phase that never was commanded. -/
theorem not_steps_byOne :
    let cfg : ConfigRepository := ⟨fun _ _ => none⟩
    let surplus : SiteProperties := ⟨1800, -2751, -2751, -2751, 3000⟩
    let late : Reported := ⟨some [true], some [false]⟩
    let started : Reported := ⟨some [true], some [true]⟩
    (∃ q, Runs.exec (step cfg) (start cfg [1000])
        [.input 0 [true], .adjust .Up 1 late surplus] = some q ∧
      (q.strategy.wantsToStepUp cfg 2 late surplus).1 = true ∧
      q.strategy.commandedOn = 1 ∧
      ((q.strategy.wantsToStepUp cfg 2 late surplus).2.adjust .Up surplus).1.commandedOn = 1) ∧
    (∃ q, Runs.exec (step cfg) (start cfg [1000]) [] = some q ∧
      q.strategy.wantsToStepDown started surplus = true ∧
      q.strategy.commandedOn = 0 ∧
      (q.strategy.adjust .Down surplus).1.commandedOn = 0) := by
  refine ⟨⟨⟨⟨[1000], [200], 0, 1, 0, 0, [true], [1800], 0, 0, true⟩, some [true]⟩, ?_⟩,
    start ⟨fun _ _ => none⟩ [1000], ?_⟩
  · decide +kernel
  · decide +kernel

/-! ### Both wishes at once -/

/- What the queries read besides the device: the input flag is that of the last
report, and false before the first. -/
structure Informed (cfg : ConfigRepository) (powerThresholds : List ℤ) (q : Wired) : Prop where
  thresholds : q.strategy.powerThresholds = powerThresholds
  hystereses : q.strategy.hystereses = powerThresholds.map cfg.hysteresisFor
  input : q.strategy.isInputActive = q.digitalInput.elim false fun value => value.all id

theorem step_informed (cfg : ConfigRepository) (powerThresholds : List ℤ) (q : Wired)
    (e : MeterEvent) (r : Wired) (h : q.Informed cfg powerThresholds)
    (hs : q.step cfg e = some r) : r.Informed cfg powerThresholds := by
  cases e with
  | input now value =>
    obtain ⟨t, l, a, hf⟩ := onDigitalInput_frame now value q.strategy
    have ha : (q.strategy.onDigitalInput now value).isInputActive = value.all id := rfl
    obtain rfl := Option.some.inj hs
    rw [hf] at ha ⊢
    exact ⟨h.thresholds, h.hystereses, ha⟩
  | queryUp now thing p =>
    obtain ⟨t, l, hf⟩ := wantsToStepUp_frame cfg now thing p q.strategy
    obtain rfl := Option.some.inj hs
    rw [hf]
    exact ⟨h.thresholds, h.hystereses, h.input⟩
  | adjust k now thing p =>
    obtain ⟨t, l, hf⟩ := wantsTo_frame cfg now thing p q.strategy k
    simp only [step] at hs
    split_ifs at hs with hw
    obtain rfl := Option.some.inj hs
    obtain ⟨ht, hh, -, -, ha⟩ := adjust_frame k p (q.strategy.wantsTo cfg now thing p k).2
    rw [hf] at ht hh ha ⊢
    exact ⟨ht.trans h.thresholds, hh.trans h.hystereses, ha.trans h.input⟩

theorem all_id_eq_false (value : List Bool) : value.all id = false ↔ false ∈ value := by
  simp

/-- In every run, while a step up is wanted the input of its phase is active, and a
step down is wanted on the same readings exactly where the device reports the
phase at the step-down pointer on and another input is not active. -/
theorem wishes_run (cfg : ConfigRepository) (powerThresholds : List ℤ)
    (hw : ∀ x ∈ powerThresholds, 0 ≤ x) (hh : ∀ x ∈ powerThresholds, 0 ≤ cfg.hysteresisFor x)
    (events : List MeterEvent) (q : Wired)
    (h : Runs.Run (fun q e r => q.step cfg e = some r) (start cfg powerThresholds) events q)
    (now : ℤ) (thing : Reported) (p : SiteProperties)
    (hin : thing.digitalInput = q.digitalInput)
    (hup : (q.strategy.wantsToStepUp cfg now thing p).1 = true) :
    (inputsAndStates thing).1.getD q.strategy.nextStepUpPhase false = true ∧
    (q.strategy.wantsToStepDown thing p = true ↔
      reportedOn thing q.strategy.nextStepDownPhase = true ∧ false ∈ (inputsAndStates thing).1) := by
  have hq : q.Informed cfg powerThresholds := h.invariant (I := fun q => q.Informed cfg powerThresholds)
    (fun q e r hq hs => step_informed cfg powerThresholds q e r hq hs) ⟨rfl, rfl, rfl⟩
  obtain ⟨-, hwants⟩ := wantsToStepUp_true hup
  have hactive := hwants.active
  have hgrid := hwants.surplus
  have hthreshold : 0 ≤ q.strategy.powerThresholds.getD q.strategy.nextStepUpPhase 0 := by
    rw [hq.thresholds]
    exact getD_nonneg hw _
  have hhysteresis : 0 ≤ q.strategy.hystereses.getD q.strategy.nextStepUpPhase 0 := by
    rw [hq.hystereses]
    apply getD_nonneg
    simpa using hh
  have hflag : q.strategy.isInputActive = false ↔ false ∈ (inputsAndStates thing).1 := by
    rw [hq.input, ← hin]
    cases hd : thing.digitalInput with
    | none => simp [inputsAndStates, hd] at hactive
    | some value => simp only [inputsAndStates, hd, Option.elim_some, Option.getD_some,
        all_id_eq_false]
  refine ⟨hactive, ?_⟩
  have hexport : ¬ 0 < p.longTermGridPower := by omega
  rw [wantsToStepDown_iff, hflag]
  simp only [hwants.inputs, hwants.states, hexport, or_false, and_self, true_and]
  rfl

/- Three phases, the first of them on: with all inputs there the next one is wanted on
and none off, with the third input gone the first is wanted off as well. -/
theorem wishes_run_three :
    let cfg : ConfigRepository := ⟨fun _ _ => none⟩
    let surplus : SiteProperties := ⟨1800, -2751, -2751, -2751, 3000⟩
    let up : MeterEvent := .adjust .Up 1 ⟨some [true, true, true], some [false, false, false]⟩ surplus
    let all : Reported := ⟨some [true, true, true], some [true, false, false]⟩
    let two : Reported := ⟨some [true, true, false], some [true, false, false]⟩
    (∃ q, Runs.exec (step cfg) (start cfg [1000, 2000, 1500]) [.input 0 [true, true, true], up] =
        some q ∧
      (q.strategy.wantsToStepUp cfg 2 all surplus).1 = true ∧
      q.strategy.wantsToStepDown all surplus = false) ∧
    ∃ q, Runs.exec (step cfg) (start cfg [1000, 2000, 1500]) [.input 0 [true, true, true], up,
        .input 2 [true, true, false]] = some q ∧
      (q.strategy.wantsToStepUp cfg 3 two surplus).1 = true ∧
      q.strategy.wantsToStepDown two surplus = true := by
  intro cfg surplus up all two
  have hwishes := wishes_run cfg [1000, 2000, 1500] (by decide) (by decide +kernel)
  constructor
  · have hexec : Runs.exec (step cfg) (start cfg [1000, 2000, 1500])
        [.input 0 [true, true, true], up] =
        some ⟨⟨[1000, 2000, 1500], [200, 200, 200], 0, 3, 1, 0, [true, false, false], [1800, 0, 0],
          0, 0, true⟩, some [true, true, true]⟩ := by decide +kernel
    refine ⟨_, hexec, by decide +kernel, Bool.eq_false_iff.mpr fun hd => ?_⟩
    have hdown := (hwishes _ _ (Runs.run_of_exec hexec) 2 all surplus rfl (by decide +kernel)).2
    exact absurd (hdown.mp hd).2 (by decide)
  · have hexec : Runs.exec (step cfg) (start cfg [1000, 2000, 1500])
        [.input 0 [true, true, true], up, .input 2 [true, true, false]] =
        some ⟨⟨[1000, 2000, 1500], [200, 200, 200], 2, 2, 1, 0, [true, false, false], [1800, 0, 0],
          0, 0, false⟩, some [true, true, false]⟩ := by decide +kernel
    refine ⟨_, hexec, by decide +kernel, ?_⟩
    have hdown := (hwishes _ _ (Runs.run_of_exec hexec) 3 two surplus rfl (by decide +kernel)).2
    exact hdown.mpr ⟨by decide, by decide⟩

/- Two phases, the first on while its input goes and the other's comes: the first
is wanted off for the input that is missing, the second on for its own. -/
theorem not_wishes_apart :
    let cfg : ConfigRepository := ⟨fun _ _ => none⟩
    let surplus : SiteProperties := ⟨1800, -2751, -2751, -2751, 3000⟩
    let thing : Reported := ⟨some [false, true], some [true, false]⟩
    ∃ q, Runs.exec (step cfg) (start cfg [1000, 1000]) [.input 0 [true, false],
        .adjust .Up 1 ⟨some [true, false], some [false, false]⟩ surplus,
        .input 2 [false, true]] = some q ∧
      thing.digitalInput = q.digitalInput ∧
      (q.strategy.wantsToStepUp cfg 3 thing surplus).1 = true ∧
      q.strategy.wantsToStepDown thing surplus = true := by
  refine ⟨⟨⟨[1000, 1000], [200, 200], 0, 2, 1, 0, [true, false], [1800, 0], 0, 0, false⟩,
    some [false, true]⟩, ?_, rfl, ?_, ?_⟩
  · decide +kernel
  · decide +kernel
  · decide +kernel

end Wired
end Iotic.Strategies
