import Iotic.Lib.Timeline
import Iotic.Strategies.MultiPhaseStrategy
import Mathlib.Algebra.Order.BigOperators.Group.Finset

/-!
# The energy a multi-phase strategy publishes

`adjust` publishes the energy of the day: what the phases switched off so far
have delivered, and what those still on have since their timestamp. Here this
is compared with the energy the commanded phases have taken since midnight.
-/

namespace Iotic.Strategies
open Config Things

/-! ### Runs with any device -/

/- A strategy with what it has commanded so far, latest first, and what its last
`adjust` has published. -/
structure Meter where
  strategy : MultiPhaseStrategy
  commands : List (ℤ × List Bool)
  published : Option Published
  deriving DecidableEq, Repr

/- The device reports anything at any event, and the clock is its own. -/
inductive MeterEvent
  | input (now : ℤ) (value : List Bool)
  | queryUp (now : ℤ) (thing : Reported) (p : SiteProperties)
  | adjust (k : Step) (now : ℤ) (thing : Reported) (p : SiteProperties)
  deriving DecidableEq, Repr

namespace MultiPhaseStrategy

/- Whether the strategy may be stepped, and the members the query leaves. -/
def wantsTo (cfg : ConfigRepository) (now : ℤ) (thing : Reported) (p : SiteProperties)
    (s : MultiPhaseStrategy) : Step → Bool × MultiPhaseStrategy
  | .Keep => (true, s)
  | .Down => (s.wantsToStepDown thing p, s)
  | .Up => s.wantsToStepUp cfg now thing p

def isOn (s : MultiPhaseStrategy) (i : ℕ) : Bool := s.currentStates.getD i false

end MultiPhaseStrategy

def secondsPerDay : ℤ := 86400

/- The energy of the UTC day up to `ts`, in Ws: for each phase its threshold times
the seconds of that day during which it was commanded on. -/
def dailyWork (powerThresholds : List ℤ) (commands : List (ℤ × List Bool)) (ts : ℤ) : ℤ :=
  (Finset.range powerThresholds.length).sum fun i => powerThresholds.getD i 0 *
    (Timeline.timeIn (fun states => states.getD i false) [] commands
      (ts / secondsPerDay * secondsPerDay) ts : ℤ)

namespace Meter
open MultiPhaseStrategy

def start (cfg : ConfigRepository) (powerThresholds : List ℤ) : Meter :=
  ⟨construct cfg powerThresholds, [], none⟩

/- `none` where the site's time would go back, or the strategy be stepped
against its wish. -/
def step (cfg : ConfigRepository) (m : Meter) : MeterEvent → Option Meter
  | .input now value => some { m with strategy := m.strategy.onDigitalInput now value }
  | .queryUp now thing p =>
    some { m with strategy := (m.strategy.wantsToStepUp cfg now thing p).2 }
  | .adjust k now thing p =>
    let answer := m.strategy.wantsTo cfg now thing p k
    if (∀ last ∈ m.commands.head?, last.1 ≤ p.ts) ∧ answer.1 = true then
      let r := answer.2.adjust k p
      some ⟨r.1, (p.ts, r.2.multistateSelector) :: m.commands, some r.2⟩
    else none

/- The published energy is the day's, in units of 60000 Ws. -/
def EnergyIsDaily (m : Meter) : Prop :=
  ∀ last ∈ m.commands.head?, ∀ published ∈ m.published,
    published.energy = dailyWork m.strategy.powerThresholds m.commands last.1 / 60000

/- What `adjust` computes in `int`s: a sum of terms none of which is negative, so
that it fits where its total does. -/
def IntsFit (m : Meter) : Prop :=
  ∀ last ∈ m.commands.head?,
    0 ≤ m.strategy.deliveredEnergy ∧
    (∀ i ∈ m.strategy.phasesOn,
      0 ≤ (last.1 - m.strategy.timestamps.getD i 0) * m.strategy.powerThresholds.getD i 0) ∧
    m.strategy.deliveredEnergy + m.strategy.currentEnergy last.1 < 2 ^ 31 ∧
    0 ≤ m.strategy.currentPower ∧ m.strategy.currentPower < 2 ^ 31

/- The condition on an update: no phase that draws power is on at the turn of the
day, a phase that draws power is switched off when it is on and on when it is
off, and the day's energy fits an `int`. -/
def Regular (m : Meter) : MeterEvent → Prop
  | .adjust k _ _ p =>
    let s := m.strategy
    (0 ≤ p.ts ∧ p.ts < 2 ^ 31) ∧
    (s.currentDay = p.ts / secondsPerDay ∨
      ∀ i < s.currentStates.length, s.isOn i = true → s.powerThresholds.getD i 0 = 0) ∧
    (k = .Down → s.isOn s.nextStepDownPhase = true ∨
      s.powerThresholds.getD s.nextStepDownPhase 0 = 0) ∧
    (k = .Up → s.isOn s.nextStepUpPhase = false ∨
      s.powerThresholds.getD s.nextStepUpPhase 0 = 0) ∧
    dailyWork s.powerThresholds m.commands p.ts < 2 ^ 31
  | _ => True

instance decidableRegular (m : Meter) : (e : MeterEvent) → Decidable (m.Regular e)
  | .input _ _ => inferInstanceAs (Decidable True)
  | .queryUp _ _ _ => inferInstanceAs (Decidable True)
  | .adjust _ _ _ _ =>
    inferInstanceAs (Decidable ((_ ∧ _) ∧ (_ ∨ _) ∧ (_ → _) ∧ (_ → _) ∧ _ < _))

instance decidableEnergyIsDaily (m : Meter) : Decidable m.EnergyIsDaily :=
  inferInstanceAs (Decidable (∀ last ∈ m.commands.head?, ∀ published ∈ m.published,
    published.energy = dailyWork m.strategy.powerThresholds m.commands last.1 / 60000))

end Meter

/-! ### The energy as a sum over the phases -/

namespace MultiPhaseStrategy

/- What phase `i` has taken since its timestamp, if it is on. -/
def phaseEnergy (ts : ℤ) (s : MultiPhaseStrategy) (i : ℕ) : ℤ :=
  if s.isOn i then (ts - s.timestamps.getD i 0) * s.powerThresholds.getD i 0 else 0

def totalEnergy (ts : ℤ) (s : MultiPhaseStrategy) : ℤ :=
  s.deliveredEnergy + (Finset.range s.currentStates.length).sum (s.phaseEnergy ts)

theorem sum_filter_map (l : List ℕ) (q : ℕ → Bool) (f : ℕ → ℤ) :
    ((l.filter q).map f).sum = (l.map fun i => if q i then f i else 0).sum := by
  induction l with
  | nil => rfl
  | cons i l ih =>
    cases hq : q i with
    | true => simp only [List.filter_cons_of_pos hq, List.map_cons, List.sum_cons, hq, if_true, ih]
    | false => simp [List.filter_cons_of_neg, hq, ih]

theorem sum_phasesOn (s : MultiPhaseStrategy) (f : ℕ → ℤ) :
    (s.phasesOn.map f).sum =
      (Finset.range s.currentStates.length).sum fun i => if s.isOn i then f i else 0 := by
  unfold phasesOn
  rw [sum_filter_map]
  rfl

theorem delivered_add_currentEnergy (ts : ℤ) (s : MultiPhaseStrategy) :
    s.deliveredEnergy + s.currentEnergy ts = s.totalEnergy ts := by
  unfold currentEnergy totalEnergy
  rw [sum_phasesOn]
  rfl

theorem getD_set {α : Type*} {l : List α} {i : ℕ} (j : ℕ) (v d : α) (hi : i < l.length) :
    (l.set j v).getD i d = if i = j then v else l.getD i d := by
  simp only [List.getD_eq_getElem?_getD, List.getElem?_set]
  by_cases h : i = j
  · subst h
    simp [hi]
  · simp [h, Ne.symm h]

theorem isOn_lt {s : MultiPhaseStrategy} {i : ℕ} (h : s.isOn i = true) :
    i < s.currentStates.length := by
  by_contra hi
  simp [isOn, List.getD_eq_getElem?_getD, List.getElem?_eq_none (not_lt.mp hi)] at h

theorem phaseEnergy_eq_zero {s : MultiPhaseStrategy} {i : ℕ} (ts : ℤ)
    (h : s.isOn i = false ∨ s.powerThresholds.getD i 0 = 0) : s.phaseEnergy ts i = 0 := by
  unfold phaseEnergy
  rcases h with h | h
  · simp only [h, Bool.false_eq_true, if_false]
  · simp only [h, mul_zero, ite_self]

theorem phaseEnergy_of_on {s : MultiPhaseStrategy} {i : ℕ} (ts : ℤ)
    (h : s.isOn i = true ∨ s.powerThresholds.getD i 0 = 0) :
    s.phaseEnergy ts i = (ts - s.timestamps.getD i 0) * s.powerThresholds.getD i 0 := by
  unfold phaseEnergy
  rcases h with h | h
  · simp only [h, if_true]
  · simp only [h, mul_zero, ite_self]

theorem phaseEnergy_stepDown {s : MultiPhaseStrategy} {i : ℕ} (ts t : ℤ)
    (hi : i < s.currentStates.length) : (s.stepDown ts).phaseEnergy t i =
      if i = s.nextStepDownPhase then 0 else s.phaseEnergy t i := by
  unfold phaseEnergy isOn stepDown
  dsimp only
  rw [getD_set _ _ _ hi]
  by_cases h : i = s.nextStepDownPhase
  · rw [if_pos h, if_pos h, if_neg Bool.false_ne_true]
  · rw [if_neg h, if_neg h]

theorem phaseEnergy_stepUp {s : MultiPhaseStrategy} {i : ℕ} (ts t : ℤ)
    (hi : i < s.currentStates.length) (hlen : s.timestamps.length = s.currentStates.length) :
    (s.stepUp ts).phaseEnergy t i =
      if i = s.nextStepUpPhase then (t - ts) * s.powerThresholds.getD i 0 else s.phaseEnergy t i := by
  unfold phaseEnergy isOn stepUp
  dsimp only
  rw [getD_set _ _ _ hi, getD_set _ _ _ (hlen ▸ hi)]
  by_cases h : i = s.nextStepUpPhase
  · rw [if_pos h, if_pos h, if_pos h, if_pos rfl]
  · rw [if_neg h, if_neg h, if_neg h]

/- A step down moves what its phase has taken to the delivered energy. -/
theorem totalEnergy_stepDown {s : MultiPhaseStrategy} (ts : ℤ)
    (hon : s.isOn s.nextStepDownPhase = true ∨
      s.powerThresholds.getD s.nextStepDownPhase 0 = 0) :
    (s.stepDown ts).totalEnergy ts = s.totalEnergy ts := by
  let j := s.nextStepDownPhase
  have hterm : ∀ i ∈ Finset.range s.currentStates.length, s.phaseEnergy ts i =
      (s.stepDown ts).phaseEnergy ts i + if i = j then s.phaseEnergy ts j else 0 := by
    intro i hi
    rw [phaseEnergy_stepDown ts ts (Finset.mem_range.mp hi)]
    by_cases hij : i = j
    · simp only [hij, j, if_true, zero_add]
    · simp only [hij, j, if_false, add_zero]
  have hmoved : (Finset.range s.currentStates.length).sum
      (fun i => if i = j then s.phaseEnergy ts j else 0) = s.phaseEnergy ts j := by
    rw [Finset.sum_ite_eq']
    rcases hon with hon | hon
    · rw [if_pos (Finset.mem_range.mpr (isOn_lt hon))]
    · rw [phaseEnergy_eq_zero ts (Or.inr hon), ite_self]
  have hlen : (s.stepDown ts).currentStates.length = s.currentStates.length := List.length_set
  have hdelivered : (s.stepDown ts).deliveredEnergy = s.deliveredEnergy + s.phaseEnergy ts j := by
    rw [phaseEnergy_of_on ts hon]
    rfl
  unfold totalEnergy
  rw [Finset.sum_congr rfl hterm, Finset.sum_add_distrib, hmoved, hlen, hdelivered]
  ring

/- A step up starts its phase with nothing taken. -/
theorem totalEnergy_stepUp {s : MultiPhaseStrategy} (ts : ℤ)
    (hoff : s.isOn s.nextStepUpPhase = false ∨
      s.powerThresholds.getD s.nextStepUpPhase 0 = 0)
    (hlen : s.timestamps.length = s.currentStates.length) :
    (s.stepUp ts).totalEnergy ts = s.totalEnergy ts := by
  have hterm : ∀ i ∈ Finset.range s.currentStates.length,
      (s.stepUp ts).phaseEnergy ts i = s.phaseEnergy ts i := by
    intro i hi
    rw [phaseEnergy_stepUp ts ts (Finset.mem_range.mp hi) hlen, sub_self, zero_mul]
    by_cases hij : i = s.nextStepUpPhase
    · rw [if_pos hij, hij, phaseEnergy_eq_zero ts hoff]
    · rw [if_neg hij]
  have hlen' : (s.stepUp ts).currentStates.length = s.currentStates.length := List.length_set
  have hdelivered : (s.stepUp ts).deliveredEnergy = s.deliveredEnergy := rfl
  unfold totalEnergy
  rw [hlen', hdelivered, Finset.sum_congr rfl hterm]

/- Later, each phase on has taken its threshold for as long. -/
theorem totalEnergy_later (s : MultiPhaseStrategy) (ts t : ℤ) :
    s.totalEnergy t = s.totalEnergy ts + (Finset.range s.currentStates.length).sum
      fun i => s.powerThresholds.getD i 0 * if s.isOn i then t - ts else 0 := by
  unfold totalEnergy
  rw [add_assoc, ← Finset.sum_add_distrib]
  congr 1
  refine Finset.sum_congr rfl fun i _ => ?_
  unfold phaseEnergy
  cases s.isOn i with
  | true => simp only [if_true]; ring
  | false => simp only [Bool.false_eq_true, if_false, mul_zero, add_zero]

theorem wantsTo_frame (cfg : ConfigRepository) (now : ℤ) (thing : Reported) (p : SiteProperties)
    (s : MultiPhaseStrategy) (k : Step) : ∃ t l,
      (s.wantsTo cfg now thing p k).2 = { s with phaseLimitTimepoint := t, phaseLimit := l } := by
  cases k with
  | Keep => exact ⟨_, _, rfl⟩
  | Down => exact ⟨_, _, rfl⟩
  | Up => exact wantsToStepUp_frame cfg now thing p s

/- What a step at `ts` keeps of the members the energy is computed from. -/
structure KeepsAccounts (ts : ℤ) (s t : MultiPhaseStrategy) : Prop where
  thresholds : t.powerThresholds = s.powerThresholds
  states : t.currentStates.length = s.currentStates.length
  stamps : t.timestamps.length = s.timestamps.length
  day : t.currentDay = s.currentDay
  delivered : s.deliveredEnergy ≤ t.deliveredEnergy
  stamped : ∀ i, t.timestamps.getD i 0 ≤ ts
  total : t.totalEnergy ts = s.totalEnergy ts

theorem getD_nonneg {l : List ℤ} (h : ∀ x ∈ l, 0 ≤ x) (i : ℕ) : 0 ≤ l.getD i 0 := by
  rw [List.getD_eq_getElem?_getD]
  cases hi : l[i]? with
  | none => exact le_rfl
  | some x => exact h x (List.mem_of_getElem? hi)

theorem phase_nonneg {s : MultiPhaseStrategy} {ts : ℤ} (hw : ∀ w ∈ s.powerThresholds, 0 ≤ w)
    (ht : ∀ i, s.timestamps.getD i 0 ≤ ts) (i : ℕ) :
    0 ≤ (ts - s.timestamps.getD i 0) * s.powerThresholds.getD i 0 :=
  mul_nonneg (sub_nonneg.mpr (ht i)) (getD_nonneg hw i)

theorem keep_keepsAccounts {s : MultiPhaseStrategy} {ts : ℤ}
    (ht : ∀ i, s.timestamps.getD i 0 ≤ ts) : KeepsAccounts ts s s :=
  ⟨rfl, rfl, rfl, rfl, le_rfl, ht, rfl⟩

theorem stepDown_keepsAccounts {s : MultiPhaseStrategy} {ts : ℤ}
    (hw : ∀ w ∈ s.powerThresholds, 0 ≤ w) (ht : ∀ i, s.timestamps.getD i 0 ≤ ts)
    (hon : s.isOn s.nextStepDownPhase = true ∨
      s.powerThresholds.getD s.nextStepDownPhase 0 = 0) :
    KeepsAccounts ts s (s.stepDown ts) where
  thresholds := rfl
  states := List.length_set
  stamps := rfl
  day := rfl
  delivered := Int.le_add_of_nonneg_right (phase_nonneg hw ht s.nextStepDownPhase)
  stamped := ht
  total := totalEnergy_stepDown ts hon

theorem stepUp_keepsAccounts {s : MultiPhaseStrategy} {ts : ℤ}
    (ht : ∀ i, s.timestamps.getD i 0 ≤ ts)
    (hoff : s.isOn s.nextStepUpPhase = false ∨ s.powerThresholds.getD s.nextStepUpPhase 0 = 0)
    (hlen : s.timestamps.length = s.currentStates.length) :
    KeepsAccounts ts s (s.stepUp ts) where
  thresholds := rfl
  states := List.length_set
  stamps := List.length_set
  day := rfl
  delivered := le_rfl
  stamped := by
    intro i
    have hi := ht i
    simp only [List.getD_eq_getElem?_getD] at hi
    simp only [stepUp, List.getD_eq_getElem?_getD, List.getElem?_set]
    by_cases hij : s.nextStepUpPhase = i
    · by_cases hl : s.nextStepUpPhase < s.timestamps.length
      · simp only [hij, if_true, hij ▸ hl, Option.getD_some, le_refl]
      · have hn : s.timestamps[i]? = none := List.getElem?_eq_none (by omega)
        rw [hn] at hi
        rw [if_pos hij, if_neg hl]
        exact hi
    · rw [if_neg hij]
      exact hi
  total := totalEnergy_stepUp ts hoff hlen

theorem rollDay_eq (ts : ℤ) (s : MultiPhaseStrategy) :
    s.rollDay ts = { s with
      currentDay := ts.tdiv 86400
      deliveredEnergy := if ts.tdiv 86400 = s.currentDay then s.deliveredEnergy else 0 } := by
  unfold rollDay
  norm_num
  by_cases h : ts.tdiv 86400 = s.currentDay
  · simp only [h, if_true]
  · simp only [h, if_false]

end MultiPhaseStrategy

/-! ### Runs whose updates are regular -/

namespace Meter
open MultiPhaseStrategy

/- The strategy's accounts, compared with what it has commanded up to the last
update, at `ts`. -/
structure Metered (ts : ℤ) (m : Meter) : Prop where
  thresholds : ∀ w ∈ m.strategy.powerThresholds, 0 ≤ w
  power : m.strategy.powerThresholds.sum < 2 ^ 31
  states : m.strategy.currentStates.length = m.strategy.powerThresholds.length
  stamps : m.strategy.timestamps.length = m.strategy.currentStates.length
  nonneg : 0 ≤ ts
  first : m.commands = [] → ts = 0
  last : ∀ c ∈ m.commands.head?, c.1 = ts
  day : m.strategy.currentDay = ts / secondsPerDay
  delivered : 0 ≤ m.strategy.deliveredEnergy
  stamped : ∀ i, m.strategy.timestamps.getD i 0 ≤ ts
  commanded : ∀ i a b, ts ≤ a → a ≤ b →
    (Timeline.timeIn (fun states => states.getD i false) [] m.commands a b : ℤ) =
      if m.strategy.isOn i then b - a else 0
  work : m.strategy.totalEnergy ts = dailyWork m.strategy.powerThresholds m.commands ts
  fits : m.strategy.totalEnergy ts < 2 ^ 31
  published : m.commands ≠ [] → m.published = some (m.strategy.publish ts)

/- A command takes effect from its own time on. -/
theorem dailyWork_cons (powerThresholds : List ℤ) (commands : List (ℤ × List Bool)) (ts : ℤ)
    (states : List Bool) : dailyWork powerThresholds ((ts, states) :: commands) ts =
      dailyWork powerThresholds commands ts := by
  unfold dailyWork
  exact Finset.sum_congr rfl fun i _ => by rw [Timeline.timeIn_cons le_rfl]

theorem Metered.dailyWork_sameDay {ts t : ℤ} {m : Meter} (h : m.Metered ts) (ht : ts ≤ t)
    (hd : ts / secondsPerDay = t / secondsPerDay) :
    dailyWork m.strategy.powerThresholds m.commands t =
      dailyWork m.strategy.powerThresholds m.commands ts +
        (Finset.range m.strategy.currentStates.length).sum fun i =>
          m.strategy.powerThresholds.getD i 0 * if m.strategy.isOn i then t - ts else 0 := by
  have hmidnight : ts / secondsPerDay * secondsPerDay ≤ ts := Int.ediv_mul_le ts (by decide)
  unfold dailyWork
  rw [h.states, ← Finset.sum_add_distrib, ← hd]
  refine Finset.sum_congr rfl fun i _ => ?_
  rw [Timeline.timeIn_add hmidnight ht, Nat.cast_add, h.commanded i ts t le_rfl ht, mul_add]

theorem Metered.dailyWork_newDay {ts t : ℤ} {m : Meter} (h : m.Metered ts) (ht : ts ≤ t)
    (hd : ts / secondsPerDay ≠ t / secondsPerDay) :
    dailyWork m.strategy.powerThresholds m.commands t =
      (Finset.range m.strategy.currentStates.length).sum fun i =>
        m.strategy.powerThresholds.getD i 0 *
          if m.strategy.isOn i then t - t / secondsPerDay * secondsPerDay else 0 := by
  have hmidnight : t / secondsPerDay * secondsPerDay ≤ t := Int.ediv_mul_le t (by decide)
  have hlast : ts ≤ t / secondsPerDay * secondsPerDay := by
    unfold secondsPerDay at hd ⊢
    omega
  unfold dailyWork
  rw [h.states]
  refine Finset.sum_congr rfl fun i _ => ?_
  rw [h.commanded i _ t hlast hmidnight]

/- Once the day is rolled, the accounts are those of the day of `t`. -/
theorem Metered.rollDay_total {ts t : ℤ} {m : Meter} (h : m.Metered ts) (ht : ts ≤ t)
    (hm : m.strategy.currentDay = t / secondsPerDay ∨
      ∀ i < m.strategy.currentStates.length, m.strategy.isOn i = true →
        m.strategy.powerThresholds.getD i 0 = 0) :
    (m.strategy.rollDay t).totalEnergy t = dailyWork m.strategy.powerThresholds m.commands t := by
  have hday : t.tdiv 86400 = t / secondsPerDay := Int.tdiv_eq_ediv_of_nonneg (h.nonneg.trans ht)
  have hsum : (m.strategy.rollDay t).totalEnergy t =
      (if t / secondsPerDay = ts / secondsPerDay then m.strategy.deliveredEnergy else 0) +
        (Finset.range m.strategy.currentStates.length).sum (m.strategy.phaseEnergy t) := by
    rw [rollDay_eq, hday, h.day]
    rfl
  rw [hsum]
  by_cases hd : ts / secondsPerDay = t / secondsPerDay
  · rw [if_pos hd.symm, h.dailyWork_sameDay ht hd, ← h.work]
    exact totalEnergy_later m.strategy ts t
  · have hidle : ∀ i ∈ Finset.range m.strategy.currentStates.length,
        m.strategy.isOn i = false ∨ m.strategy.powerThresholds.getD i 0 = 0 := by
      intro i hi
      have hoff := hm.resolve_left (by rw [h.day]; exact hd) i (Finset.mem_range.mp hi)
      cases hs : m.strategy.isOn i with
      | false => exact Or.inl rfl
      | true => exact Or.inr (hoff hs)
    rw [if_neg (Ne.symm hd), h.dailyWork_newDay ht hd, zero_add]
    refine Finset.sum_congr rfl fun i hi => ?_
    rw [phaseEnergy_eq_zero t (hidle i hi)]
    rcases hidle i hi with hs | hs
    · simp only [hs, Bool.false_eq_true, if_false, mul_zero]
    · simp only [hs, zero_mul]

theorem adjust_keepsAccounts {ts : ℤ} {m : Meter} (h : m.Metered ts) {k : Step} {now : ℤ}
    {thing : Reported} {p : SiteProperties} (ht : ts ≤ p.ts)
    (hr : m.Regular (.adjust k now thing p)) :
    KeepsAccounts p.ts (m.strategy.rollDay p.ts) (m.strategy.adjust k p).1 := by
  obtain ⟨-, -, hdown, hup, -⟩ := hr
  have hstamped : ∀ i, (m.strategy.rollDay p.ts).timestamps.getD i 0 ≤ p.ts := by
    rw [rollDay_eq]
    exact fun i => (h.stamped i).trans ht
  have hthresholds : ∀ w ∈ (m.strategy.rollDay p.ts).powerThresholds, 0 ≤ w := by
    rw [rollDay_eq]
    exact h.thresholds
  cases k with
  | Keep => exact keep_keepsAccounts hstamped
  | Down =>
    refine stepDown_keepsAccounts hthresholds hstamped ?_
    rw [rollDay_eq]
    exact hdown rfl
  | Up =>
    refine stepUp_keepsAccounts hstamped ?_ ?_
    · rw [rollDay_eq]
      exact hup rfl
    · rw [rollDay_eq]
      exact h.stamps

theorem adjust_metered {ts : ℤ} {m : Meter} (h : m.Metered ts) {k : Step} {now : ℤ}
    {thing : Reported} {p : SiteProperties} (ht : ts ≤ p.ts)
    (hr : m.Regular (.adjust k now thing p)) :
    let r := m.strategy.adjust k p
    (⟨r.1, (p.ts, r.2.multistateSelector) :: m.commands, some r.2⟩ : Meter).Metered p.ts := by
  have hk := adjust_keepsAccounts h ht hr
  have htotal := hk.total.trans (h.rollDay_total ht hr.2.1)
  have hthresholds := hk.thresholds
  have hstates := hk.states
  have hstamps := hk.stamps
  have hday := hk.day
  have hdelivered := hk.delivered
  rw [rollDay_eq] at hthresholds hstates hstamps hday hdelivered
  dsimp only at hthresholds hstates hstamps hday hdelivered
  have hnonneg : 0 ≤ p.ts := h.nonneg.trans ht
  dsimp only
  constructor
  · rw [hthresholds]
    exact h.thresholds
  · rw [hthresholds]
    exact h.power
  · rw [hthresholds, hstates, h.states]
  · rw [hstamps, hstates, h.stamps]
  · exact hnonneg
  · intro hc
    cases hc
  · intro c hc
    obtain rfl := Option.some.inj hc
    rfl
  · rw [hday]
    exact Int.tdiv_eq_ediv_of_nonneg hnonneg
  · refine le_trans ?_ hdelivered
    split_ifs
    · exact h.delivered
    · exact le_rfl
  · exact hk.stamped
  · intro i a b ha hab
    exact Timeline.timeIn_head hab ha
  · rw [htotal, hthresholds, dailyWork_cons]
  · rw [htotal]
    exact hr.2.2.2.2
  · exact fun _ => rfl

/- The accounts do not depend on the phase limit and the input flag. -/
theorem Metered.frame {ts : ℤ} {m : Meter} (h : m.Metered ts) (t l : ℤ) (a : Bool) :
    ({ m with strategy := { m.strategy with
      phaseLimitTimepoint := t, phaseLimit := l, isInputActive := a } } : Meter).Metered ts :=
  ⟨h.thresholds, h.power, h.states, h.stamps, h.nonneg, h.first, h.last, h.day, h.delivered,
    h.stamped, h.commanded, h.work, h.fits, h.published⟩

theorem start_metered (cfg : ConfigRepository) {powerThresholds : List ℤ}
    (hw : ∀ w ∈ powerThresholds, 0 ≤ w) (hp : powerThresholds.sum < 2 ^ 31) :
    (start cfg powerThresholds).Metered 0 := by
  have hoff : ∀ i, (construct cfg powerThresholds).isOn i = false := by
    intro i
    simp only [isOn, construct, List.getD_eq_getElem?_getD, List.getElem?_replicate]
    split_ifs <;> rfl
  have htotal : (construct cfg powerThresholds).totalEnergy 0 = 0 := by
    unfold totalEnergy
    rw [Finset.sum_eq_zero fun i _ => phaseEnergy_eq_zero 0 (Or.inl (hoff i))]
    rfl
  have hwork : dailyWork powerThresholds [] 0 = 0 := by
    unfold dailyWork
    refine Finset.sum_eq_zero fun i _ => ?_
    rw [Timeline.timeIn_nil rfl, Nat.cast_zero, mul_zero]
  constructor
  · exact hw
  · exact hp
  · exact List.length_replicate
  · simp only [start, construct, List.length_replicate]
  · exact le_rfl
  · exact fun _ => rfl
  · intro c hc
    cases hc
  · rfl
  · exact le_rfl
  · intro i
    simp only [start, construct, List.getD_eq_getElem?_getD, List.getElem?_replicate]
    split_ifs <;> simp
  · intro i a b _ _
    rw [show (start cfg powerThresholds).strategy.isOn i = false from hoff i]
    exact congrArg Nat.cast (Timeline.timeIn_nil rfl)
  · exact htotal.trans hwork.symm
  · rw [show (start cfg powerThresholds).strategy.totalEnergy 0 = 0 from htotal]
    decide
  · intro hc
    exact absurd rfl hc

theorem step_metered (cfg : ConfigRepository) (m : Meter) (e : MeterEvent) (m' : Meter)
    (h : ∃ ts, m.Metered ts) (hs : m.step cfg e = some m' ∧ m.Regular e) :
    ∃ ts, m'.Metered ts := by
  obtain ⟨ts, h⟩ := h
  obtain ⟨hs, hr⟩ := hs
  cases e with
  | input now value =>
    obtain ⟨t, l, a, hf⟩ := onDigitalInput_frame now value m.strategy
    obtain rfl := Option.some.inj hs
    rw [hf]
    exact ⟨ts, h.frame t l a⟩
  | queryUp now thing p =>
    obtain ⟨t, l, hf⟩ := wantsToStepUp_frame cfg now thing p m.strategy
    obtain rfl := Option.some.inj hs
    rw [hf]
    exact ⟨ts, h.frame t l m.strategy.isInputActive⟩
  | adjust k now thing p =>
    obtain ⟨t, l, hf⟩ := wantsTo_frame cfg now thing p m.strategy k
    have h' := h.frame t l m.strategy.isInputActive
    have hr' : ({ m with strategy := { m.strategy with
      phaseLimitTimepoint := t, phaseLimit := l } } : Meter).Regular (.adjust k now thing p) := hr
    simp only [step] at hs
    split_ifs at hs with hg
    obtain rfl := Option.some.inj hs
    have ht : ts ≤ p.ts := by
      cases hc : m.commands with
      | nil =>
        rw [h.first hc]
        exact hr.1.1
      | cons c older =>
        have hlast := h.last c (by rw [hc]; rfl)
        rw [← hlast]
        exact hg.1 c (by rw [hc]; rfl)
    rw [hf]
    exact ⟨p.ts, adjust_metered h' ht hr'⟩

theorem Metered.totalEnergy_nonneg {ts : ℤ} {m : Meter} (h : m.Metered ts) :
    0 ≤ m.strategy.totalEnergy ts := by
  refine add_nonneg h.delivered (Finset.sum_nonneg fun i _ => ?_)
  unfold phaseEnergy
  split_ifs
  · exact phase_nonneg h.thresholds h.stamped i
  · exact le_rfl

theorem Metered.energyIsDaily {ts : ℤ} {m : Meter} (h : m.Metered ts) : m.EnergyIsDaily := by
  intro last hlast published hp
  have hc : m.commands ≠ [] := by
    intro hc
    rw [hc] at hlast
    cases hlast
  rw [h.published hc] at hp
  obtain rfl := Option.some.inj hp
  rw [h.last last hlast, ← h.work, ← delivered_add_currentEnergy]
  have hnonneg := h.totalEnergy_nonneg
  rw [← delivered_add_currentEnergy] at hnonneg
  exact Int.tdiv_eq_ediv_of_nonneg hnonneg

theorem sum_range_getD (l : List ℤ) :
    ((Finset.range l.length).sum fun i => l.getD i 0) = l.sum := by
  have hl : (List.range l.length).map (fun i => l.getD i 0) = l := by
    refine List.ext_getElem (by simp) fun i hi hi' => ?_
    simp [List.getD_eq_getElem?_getD, List.getElem?_eq_getElem hi']
  conv_rhs => rw [← hl]
  rfl

theorem Metered.intsFit {ts : ℤ} {m : Meter} (h : m.Metered ts) : m.IntsFit := by
  intro last hlast
  have hphase : ∀ i ∈ Finset.range m.strategy.currentStates.length,
      0 ≤ (if m.strategy.isOn i then m.strategy.powerThresholds.getD i 0 else 0) ∧
      (if m.strategy.isOn i then m.strategy.powerThresholds.getD i 0 else 0) ≤
        m.strategy.powerThresholds.getD i 0 := by
    intro i _
    have hi := getD_nonneg h.thresholds i
    split_ifs <;> omega
  rw [h.last last hlast, delivered_add_currentEnergy]
  refine ⟨h.delivered, fun i _ => phase_nonneg h.thresholds h.stamped i, h.fits, ?_, ?_⟩
  · unfold currentPower
    rw [sum_phasesOn]
    exact Finset.sum_nonneg fun i hi => (hphase i hi).1
  · refine lt_of_le_of_lt ?_ h.power
    unfold currentPower
    rw [sum_phasesOn, ← sum_range_getD, ← h.states]
    exact Finset.sum_le_sum fun i hi => (hphase i hi).2

/-- In every run whose updates are all regular, of a strategy whose thresholds
are not negative, every energy published is that of the day, and no `int` of its
computation overflows. -/
theorem energy_run (cfg : ConfigRepository) (powerThresholds : List ℤ)
    (hw : ∀ w ∈ powerThresholds, 0 ≤ w) (hp : powerThresholds.sum < 2 ^ 31)
    (events : List MeterEvent) (m : Meter)
    (h : Runs.Run (fun m e m' => m.step cfg e = some m' ∧ m.Regular e) (start cfg powerThresholds)
      events m) : m.EnergyIsDaily ∧ m.IntsFit := by
  obtain ⟨ts, hm⟩ := h.invariant (step_metered cfg) ⟨0, start_metered cfg hw hp⟩
  exact ⟨hm.energyIsDaily, hm.intsFit⟩

theorem energy_run_one :
    let cfg : ConfigRepository := ⟨fun _ _ => none⟩
    let thing : Reported := ⟨some [true], some [false]⟩
    ∃ m, Runs.exec (Runs.guarded Regular (step cfg)) (start cfg [30000])
      [.input 0 [true], .adjust .Up 1 thing ⟨10, -40000, -40000, -40000, 40000⟩,
        .queryUp 2 ⟨some [true], some [true]⟩ ⟨14, 100, 100, 100, 0⟩,
        .adjust .Keep 2 ⟨some [true], some [true]⟩ ⟨14, 100, 100, 100, 0⟩,
        .adjust .Down 3 ⟨some [true], some [true]⟩ ⟨15, 100, 100, 100, 0⟩] = some m ∧
      m.EnergyIsDaily ∧ m.IntsFit := by
  intro cfg thing
  obtain ⟨m, hm⟩ := Option.isSome_iff_exists.mp (show (Runs.exec (Runs.guarded Regular (step cfg))
    (start cfg [30000]) [.input 0 [true], .adjust .Up 1 thing ⟨10, -40000, -40000, -40000, 40000⟩,
      .queryUp 2 ⟨some [true], some [true]⟩ ⟨14, 100, 100, 100, 0⟩,
      .adjust .Keep 2 ⟨some [true], some [true]⟩ ⟨14, 100, 100, 100, 0⟩,
      .adjust .Down 3 ⟨some [true], some [true]⟩ ⟨15, 100, 100, 100, 0⟩]).isSome = true
    by decide +kernel)
  exact ⟨m, hm, energy_run cfg [30000] (by decide) (by decide) _ m (Runs.run_of_guarded hm)⟩

/- A phase of 1000 W switched on a minute before midnight and on for two: a minute
into the new day its energy is still that of both. -/
theorem not_energy_acrossMidnight :
    let cfg : ConfigRepository := ⟨fun _ _ => none⟩
    ∃ m, Runs.exec (step cfg) (start cfg [1000])
      [.input 0 [true],
        .adjust .Up 1 ⟨some [true], some [false]⟩ ⟨86340, -2000, -2000, -2000, 2000⟩,
        .adjust .Keep 2 ⟨some [true], some [true]⟩ ⟨86460, 0, 0, 0, 0⟩] = some m ∧
      m.published.map Published.energy = some 2 ∧ ¬ m.EnergyIsDaily := by
  refine ⟨⟨⟨[1000], [200], 0, 1, 0, 0, [true], [86340], 0, 1, true⟩,
    [(86460, [true]), (86340, [true])], some ⟨[true], 1000, 2⟩⟩, ?_, rfl, ?_⟩
  · decide +kernel
  · decide +kernel

end Meter
end Iotic.Strategies
