import Iotic.Config.Persistence
import Iotic.Lib.Rounding
import Iotic.Things.Thing

/-!
# The wallbox strategy (WallboxStrategy.cpp)

A wallbox charges on no, one or three phases. Both queries compute the number of
phases the available power is good for and leave it in `_nextPhases`; a step takes
it over from there, and every `adjust` sets the current for the phases that are on.
-/

namespace Iotic.Strategies
open Config Things

/-! ### State -/

/- `std::array<int, 3>`. -/
abbrev Voltages := Vector ℤ 3

namespace Voltages

def front (v : Voltages) : ℤ := v[0]

/- `std::reduce`. Sums compared with a power are exact: past 2^31 V the `int` has no
defined value. -/
def reduce (v : Voltages) : ℤ := v.toList.sum

end Voltages

/- A double that is converted has to fit: `none` is no defined value. The powers are
exact, and so are their quotients. -/
structure WallboxStrategy where
  powerMeasured : ℚ
  lastMeasurementTs : ℤ
  voltages : Voltages
  powerOffset : ℤ
  status : ThingStatus
  phases : ℤ
  current : Option ℤ
  nextPhases : ℤ
  onePhaseHysteresis : ℤ
  threePhaseHysteresis : ℤ
  deriving DecidableEq, Repr

/- What the strategy reads of a report of its thing, and when it came. -/
structure WallboxReport where
  nowMs : ℤ
  power : Option ℤ
  voltage : Option Voltages
  offset : Option Offset
  status : Option ℤ
  deriving DecidableEq, Repr

/- What `adjust` hands to `setThingProperties`. -/
structure WallboxSettings where
  phases : ℤ
  nextPhases : ℤ
  countdown : ℤ
  current : Option ℤ
  deriving DecidableEq, Repr

/- ConfigRepository.h:96, in milliseconds. -/
def shortTermTau : ℤ := 10000

def powerOffsetOf (offset : Offset) : ℤ := offsetTable.getD offset.1.toNat 0

namespace WallboxStrategy

/- The constructor, without its subscription. Time stamp and voltages are not
initialised: they are whatever was in their place. -/
def construct (cfg : ConfigRepository) (offset : Option Offset) (lastMeasurementTs : ℤ)
    (voltages : Voltages) : WallboxStrategy where
  powerMeasured := 0
  lastMeasurementTs := lastMeasurementTs
  voltages := voltages
  powerOffset := offset.elim 0 powerOffsetOf
  status := .unknown
  phases := 0
  current := some 0
  nextPhases := 0
  onePhaseHysteresis := cfg.hysteresisFor (6 * 230)
  threePhaseHysteresis := cfg.hysteresisFor (3 * 6 * 230)

def onStatus (status : ThingStatus) (s : WallboxStrategy) : WallboxStrategy := { s with status }

/- The subscription to the thing's properties. `ema` moves an average on by a value,
the time passed and a time constant. -/
def onProperties (ema : ℚ → ℤ → ℤ → ℤ → ℚ) (map : WallboxReport) (s : WallboxStrategy) :
    WallboxStrategy :=
  let s := map.power.elim s fun value =>
    { s with
      powerMeasured :=
        ema s.powerMeasured (max value 0) (map.nowMs - s.lastMeasurementTs) shortTermTau }
  let s := map.voltage.elim s fun value => { s with voltages := value }
  let s := map.offset.elim s fun value => { s with powerOffset := powerOffsetOf value }
  let s := map.status.elim s fun value => s.onStatus (.ofInt value)
  { s with lastMeasurementTs := map.nowMs }

/-! ### Phases -/

def computePhases (availablePower : ℚ) (applyHysteresis : Bool) (s : WallboxStrategy) : ℤ :=
  let onePhaseHysteresis := if applyHysteresis then s.onePhaseHysteresis else 0
  let threePhaseHysteresis := if applyHysteresis then s.threePhaseHysteresis else 0
  if availablePower - threePhaseHysteresis > (6 * s.voltages.reduce : ℤ) then 3
  else if availablePower - onePhaseHysteresis > (6 * s.voltages.front : ℤ) then 1
  else 0

/- `_powerOffset == offsetTable.front()`. -/
def IsOff (s : WallboxStrategy) : Prop := offsetTable.head? = some s.powerOffset

instance decidableIsOff (s : WallboxStrategy) : Decidable s.IsOff :=
  inferInstanceAs (Decidable (offsetTable.head? = some s.powerOffset))

def wantsToStepDown (p : SiteProperties) (s : WallboxStrategy) : Bool × WallboxStrategy :=
  let nextPhases :=
    if s.IsOff then 0
    else
      let longTermAvailablePower := (max 0 s.powerOffset : ℤ) + s.powerMeasured - p.longTermGridPower
      s.computePhases longTermAvailablePower false
  let s := { s with nextPhases }
  (decide (s.nextPhases < s.phases), s)

def wantsToStepUp (p : SiteProperties) (s : WallboxStrategy) : Bool × WallboxStrategy :=
  if s.status ≠ .waiting ∧ s.status ≠ .charging then (false, s)
  else
    let longTermAvailablePower := s.powerOffset + s.powerMeasured - p.longTermGridPower
    let s := { s with nextPhases := s.computePhases longTermAvailablePower true }
    (decide (s.nextPhases > s.phases), s)

/-! ### Adjusting -/

/- `(int)(availablePower / voltage)`. A division by zero, a sum of voltages that is no
`int` and a quotient that is none have no defined result. -/
def quotient? (availablePower : ℚ) (voltage : ℤ) : Option ℤ :=
  if voltage = 0 ∨ ¬ (-2 ^ 31 ≤ voltage ∧ voltage < 2 ^ 31) then none
  else
    let current := truncate (availablePower / voltage)
    if -2 ^ 31 ≤ current ∧ current < 2 ^ 31 then some current else none

/- The voltage that the current of so many phases is computed with. -/
def voltageOf (v : Voltages) (phases : ℤ) : Option ℤ :=
  if phases = 1 then some v.front else if phases = 3 then some v.reduce else none

def computeCurrent (availablePower : ℚ) (s : WallboxStrategy) : Option ℤ × WallboxStrategy :=
  let current := match voltageOf s.voltages s.phases with
    | some voltage => quotient? availablePower voltage
    | none => some 0
  (current, { s with current })

def shortTermAvailablePower (p : SiteProperties) (s : WallboxStrategy) : ℚ :=
  (max 0 s.powerOffset : ℤ) + s.powerMeasured - p.shortTermGridPower

def adjust (step : Step) (p : SiteProperties) (s : WallboxStrategy) :
    WallboxStrategy × WallboxSettings :=
  let s := if step ≠ .Keep then { s with phases := s.nextPhases } else s
  let (current, s) := s.computeCurrent (s.shortTermAvailablePower p)
  (s, ⟨s.phases, s.nextPhases, 0, current⟩)

/-! ### What the queries and the steps do -/

/- The numbers of phases the two queries compute. -/
def upPhases (p : SiteProperties) (s : WallboxStrategy) : ℤ :=
  s.computePhases (s.powerOffset + s.powerMeasured - p.longTermGridPower) true

def downPhases (p : SiteProperties) (s : WallboxStrategy) : ℤ :=
  if s.IsOff then 0
  else s.computePhases ((max 0 s.powerOffset : ℤ) + s.powerMeasured - p.longTermGridPower) false

/- Whether a step up is allowed by the status. -/
def Ready (s : WallboxStrategy) : Prop := s.status = .waiting ∨ s.status = .charging

instance decidableReady (s : WallboxStrategy) : Decidable s.Ready :=
  inferInstanceAs (Decidable (_ ∨ _))

theorem wantsToStepDown_eq (p : SiteProperties) (s : WallboxStrategy) :
    s.wantsToStepDown p =
      (decide (s.downPhases p < s.phases), { s with nextPhases := s.downPhases p }) := rfl

theorem wantsToStepUp_eq (p : SiteProperties) (s : WallboxStrategy) :
    s.wantsToStepUp p = if s.Ready then
      (decide (s.phases < s.upPhases p), { s with nextPhases := s.upPhases p }) else (false, s) := by
  unfold wantsToStepUp Ready
  by_cases hw : s.status = .waiting
  · simp only [hw, true_or, ne_eq, not_true_eq_false, false_and, if_false, if_true]
    rfl
  · by_cases hc : s.status = .charging
    · simp only [hc, or_true, ne_eq, not_true_eq_false, and_false, if_false, if_true]
      rfl
    · simp only [hw, hc, or_self, ne_eq, not_false_eq_true, and_self, if_true, if_false]

theorem wantsToStepDown_true (p : SiteProperties) (s : WallboxStrategy) :
    (s.wantsToStepDown p).1 = true ↔ s.downPhases p < s.phases := by
  rw [wantsToStepDown_eq]
  exact decide_eq_true_iff

theorem wantsToStepUp_true (p : SiteProperties) (s : WallboxStrategy) :
    (s.wantsToStepUp p).1 = true ↔ s.Ready ∧ s.phases < s.upPhases p := by
  rw [wantsToStepUp_eq]
  split_ifs with h
  · simp only [h, true_and, decide_eq_true_iff]
  · simp [h]

/- A step takes over the phases computed last. Else `adjust` sets nothing but the
current. -/
theorem adjust_frame (step : Step) (p : SiteProperties) (s : WallboxStrategy) :
    (s.adjust step p).1 = { s with
      phases := if step = .Keep then s.phases else s.nextPhases
      current := (s.adjust step p).1.current } := by
  cases step <;> rfl

theorem adjust_phases (step : Step) (p : SiteProperties) (s : WallboxStrategy) :
    (s.adjust step p).1.phases = if step = .Keep then s.phases else s.nextPhases := by
  rw [adjust_frame]

def IsPhases (n : ℤ) : Prop := n = 0 ∨ n = 1 ∨ n = 3

theorem computePhases_isPhases (availablePower : ℚ) (applyHysteresis : Bool)
    (s : WallboxStrategy) : IsPhases (s.computePhases availablePower applyHysteresis) := by
  unfold computePhases IsPhases
  dsimp only
  split_ifs <;> simp

/- The query before a step; to keep takes none. -/
def wantsTo (p : SiteProperties) (s : WallboxStrategy) : Step → Bool × WallboxStrategy
  | .Keep => (true, s)
  | .Down => s.wantsToStepDown p
  | .Up => s.wantsToStepUp p

/- A query leaves everything but the phases it computed. -/
theorem wantsTo_frame (p : SiteProperties) (s : WallboxStrategy) (step : Step) :
    (s.wantsTo p step).2 = { s with nextPhases := (s.wantsTo p step).2.nextPhases } := by
  cases step with
  | Keep => rfl
  | Down => rfl
  | Up =>
    simp only [wantsTo, wantsToStepUp_eq]
    split_ifs <;> rfl

/- A query that answers yes has just computed phases in the direction it was asked
for. -/
theorem wantsTo_true {p : SiteProperties} {s : WallboxStrategy} {step : Step}
    (h : (s.wantsTo p step).1 = true) :
    (step = .Up → s.Ready ∧ s.phases < (s.wantsTo p step).2.nextPhases) ∧
    (step = .Down → (s.wantsTo p step).2.nextPhases < s.phases) ∧
    (step ≠ .Keep → IsPhases (s.wantsTo p step).2.nextPhases) := by
  cases step with
  | Keep => simp
  | Down =>
    have hdown := (wantsToStepDown_true p s).mp h
    have hphases : IsPhases (s.downPhases p) := by
      unfold downPhases
      split_ifs
      · exact Or.inl rfl
      · exact computePhases_isPhases _ _ s
    simpa [wantsTo, wantsToStepDown_eq, hphases] using hdown
  | Up =>
    obtain ⟨hready, hup⟩ := (wantsToStepUp_true p s).mp h
    have hphases : IsPhases (s.upPhases p) := computePhases_isPhases _ _ s
    simpa [wantsTo, wantsToStepUp_eq, hready, hphases] using hup

/-! ### Hysteresis -/

/- More power is good for more phases, and all the more so without the hysteresis. -/
theorem computePhases_mono {s : WallboxStrategy} {a b : ℚ} (h1 : 0 ≤ s.onePhaseHysteresis)
    (h3 : 0 ≤ s.threePhaseHysteresis) (hab : a ≤ b) :
    s.computePhases a true ≤ s.computePhases b false := by
  have hone : (0 : ℚ) ≤ s.onePhaseHysteresis := Int.cast_nonneg h1
  have hthree : (0 : ℚ) ≤ s.threePhaseHysteresis := Int.cast_nonneg h3
  unfold computePhases
  simp only [if_true, Bool.false_eq_true, if_false, Int.cast_zero, sub_zero, gt_iff_lt]
  by_cases ha3 : ((6 * s.voltages.reduce : ℤ) : ℚ) < a - s.threePhaseHysteresis
  · have hb3 : ((6 * s.voltages.reduce : ℤ) : ℚ) < b := by linarith
    simp only [ha3, hb3, if_true, le_refl]
  · by_cases ha1 : ((6 * s.voltages.front : ℤ) : ℚ) < a - s.onePhaseHysteresis
    · have hb1 : ((6 * s.voltages.front : ℤ) : ℚ) < b := by linarith
      simp only [ha3, ha1, hb1, if_true, if_false]
      split_ifs <;> decide
    · simp only [ha3, ha1, if_false]
      split_ifs <;> decide

/- At every offset but Off the step-up query asks for more than the step-down query. -/
theorem upPhases_le_downPhases {s : WallboxStrategy} (p : SiteProperties)
    (hoff : s.powerOffset ∈ offsetTable.tail) (h1 : 0 ≤ s.onePhaseHysteresis)
    (h3 : 0 ≤ s.threePhaseHysteresis) : s.upPhases p ≤ s.downPhases p := by
  have hon : ¬ s.IsOff := by
    intro h
    have hfirst : (-32768 : ℤ) = s.powerOffset := Option.some.inj h
    rw [← hfirst] at hoff
    exact absurd hoff (by decide)
  unfold upPhases downPhases
  rw [if_neg hon]
  apply computePhases_mono h1 h3
  have hmax : (s.powerOffset : ℚ) ≤ (max 0 s.powerOffset : ℤ) :=
    Int.cast_le.mpr (le_max_right 0 s.powerOffset)
  linarith

/-- At every offset but Off, the two queries never both answer yes, and neither
answers yes on the readings the other has just made a step on. -/
theorem hysteresis_holds (s : WallboxStrategy) (p : SiteProperties)
    (hoff : s.powerOffset ∈ offsetTable.tail) (h1 : 0 ≤ s.onePhaseHysteresis)
    (h3 : 0 ≤ s.threePhaseHysteresis) :
    ¬ ((s.wantsToStepUp p).1 = true ∧ (s.wantsToStepDown p).1 = true) ∧
    ((s.wantsToStepUp p).1 = true →
      (((s.wantsToStepUp p).2.adjust .Up p).1.wantsToStepDown p).1 = false) ∧
    ((s.wantsToStepDown p).1 = true →
      (((s.wantsToStepDown p).2.adjust .Down p).1.wantsToStepUp p).1 = false) := by
  have hle := upPhases_le_downPhases p hoff h1 h3
  refine ⟨?_, ?_, ?_⟩
  · intro h
    have hup := ((wantsToStepUp_true p s).mp h.1).2
    have hdown := (wantsToStepDown_true p s).mp h.2
    omega
  · intro h
    obtain ⟨hready, -⟩ := (wantsToStepUp_true p s).mp h
    rw [Bool.eq_false_iff, Ne, wantsToStepDown_true, wantsToStepUp_eq, if_pos hready, adjust_frame]
    exact not_lt.mpr hle
  · intro _
    rw [Bool.eq_false_iff, Ne, wantsToStepUp_true, wantsToStepDown_eq, adjust_frame]
    intro h
    exact not_lt.mpr hle h.2

/- A wallbox that waits with 3 kW to spare goes to one phase, and from three phases
with none to spare to none. -/
theorem hysteresis_holds_waiting :
    let s := (construct ⟨fun _ _ => none⟩ (some defaultOffset) 0 #v[230, 230, 230]).onStatus .waiting
    let surplus : SiteProperties := ⟨1000, -3000, -3000, -3000, 3000⟩
    let demand : SiteProperties := ⟨2000, 3000, 3000, 3000, 0⟩
    ((s.wantsToStepUp surplus).1 = true ∧
      (((s.wantsToStepUp surplus).2.adjust .Up surplus).1.wantsToStepDown surplus).1 = false) ∧
    (({ s with phases := 3 } : WallboxStrategy).wantsToStepDown demand).1 = true ∧
      (((({ s with phases := 3 } : WallboxStrategy).wantsToStepDown demand).2.adjust .Down
        demand).1.wantsToStepUp demand).1 = false := by
  intro s surplus demand
  have hup : (s.wantsToStepUp surplus).1 = true := by decide +kernel
  have hdown : (({ s with phases := 3 } : WallboxStrategy).wantsToStepDown demand).1 = true := by
    decide +kernel
  have h1 : 0 ≤ s.onePhaseHysteresis := by decide +kernel
  have h3 : 0 ≤ s.threePhaseHysteresis := by decide +kernel
  exact ⟨⟨hup, (hysteresis_holds s surplus (by decide) h1 h3).2.1 hup⟩,
    hdown, (hysteresis_holds { s with phases := 3 } demand (by decide) h1 h3).2.2 hdown⟩

/-! ### Off -/

/- No phases more than those that are on, for the status or for want of power: what is
exported and drawn, less the 32768 W that stand for Off. -/
def StaysOff (p : SiteProperties) (s : WallboxStrategy) : Prop :=
  let power := s.powerMeasured - p.longTermGridPower - 32768
  ¬ s.Ready ∨ (0 ≤ s.phases ∧
    ((6 * s.voltages.reduce : ℤ) < power - s.threePhaseHysteresis → 3 ≤ s.phases) ∧
    ((6 * s.voltages.front : ℤ) < power - s.onePhaseHysteresis → 1 ≤ s.phases))

instance decidableStaysOff (p : SiteProperties) (s : WallboxStrategy) : Decidable (s.StaysOff p) :=
  inferInstanceAs (Decidable (¬ _ ∨ (_ ∧ (_ → _) ∧ (_ → _))))

theorem quotient?_eq_some {power : ℚ} {voltage current : ℤ} :
    quotient? power voltage = some current ↔
      (voltage ≠ 0 ∧ -2 ^ 31 ≤ voltage ∧ voltage < 2 ^ 31) ∧
      truncate (power / voltage) = current ∧ -2 ^ 31 ≤ current ∧ current < 2 ^ 31 := by
  unfold quotient?
  dsimp only
  split_ifs with hv hc
  · simp only [false_iff]
    omega
  · rw [Option.some_inj]
    constructor
    · intro h
      omega
    · exact fun h => h.2.1
  · simp only [false_iff]
    intro h
    obtain ⟨-, rfl, hlo, hhi⟩ := h
    exact hc ⟨hlo, hhi⟩

theorem exists_quotient?_iff (power : ℚ) (voltage : ℤ) :
    (∃ current, quotient? power voltage = some current ∧ 0 ≤ current) ↔
      (voltage ≠ 0 ∧ -2 ^ 31 ≤ voltage ∧ voltage < 2 ^ 31) ∧
      -1 < power / voltage ∧ power / voltage < 2 ^ 31 := by
  have hnonneg := truncate_nonneg_iff (power / voltage)
  have hlt := truncate_lt_iff (n := 2 ^ 31) (by decide) (power / voltage)
  push_cast at hlt
  constructor
  · intro h
    obtain ⟨current, hq, hc⟩ := h
    obtain ⟨hv, htruncate, -, hhi⟩ := quotient?_eq_some.mp hq
    rw [htruncate] at hnonneg hlt
    exact ⟨hv, hnonneg.mp hc, hlt.mp hhi⟩
  · intro h
    obtain ⟨hv, hlo, hhi⟩ := h
    have hc := hnonneg.mpr hlo
    refine ⟨truncate (power / voltage), quotient?_eq_some.mpr ⟨hv, rfl, ?_, hlt.mpr hhi⟩, hc⟩
    omega

theorem quotient?_mul_le {power : ℚ} {voltage current : ℤ}
    (h : quotient? power voltage = some current) (hc : 0 ≤ current) (hp : 0 ≤ power) :
    (current * voltage : ℚ) ≤ power := by
  obtain ⟨⟨hv, -, -⟩, htruncate, -, -⟩ := quotient?_eq_some.mp h
  have hpower : power / voltage * voltage = power :=
    div_mul_cancel₀ power (Int.cast_ne_zero.mpr hv)
  by_cases hpos : 0 < voltage
  · have hvq : (0 : ℚ) ≤ voltage := Int.cast_nonneg hpos.le
    have hle := truncate_le (div_nonneg hp hvq)
    rw [htruncate] at hle
    rw [← hpower]
    exact mul_le_mul_of_nonneg_right hle hvq
  · -- a negative voltage leaves no more than a fraction, which is cut off
    have hvq : (voltage : ℚ) ≤ 0 := Int.cast_nonpos.mpr (not_lt.mp hpos)
    have hlo : -1 < power / voltage := by
      rw [← truncate_nonneg_iff, htruncate]
      exact hc
    have hzero := truncate_eq_zero hlo (div_nonpos_of_nonneg_of_nonpos hp hvq)
    rw [← htruncate, hzero, Int.cast_zero, zero_mul]
    exact hp

/- The current is defined and not negative; where it is computed with a voltage, that
is not zero, and the power available is enough for it, unless that is negative. -/
def CurrentSound (p : SiteProperties) (s : WallboxStrategy) (settings : WallboxSettings) : Prop :=
  ∃ current, settings.current = some current ∧ 0 ≤ current ∧
    ∀ voltage, voltageOf s.voltages s.phases = some voltage → voltage ≠ 0 ∧
      (0 ≤ s.shortTermAvailablePower p → (current * voltage : ℚ) ≤ s.shortTermAvailablePower p)

/- The condition on the members a step finds: the voltage for the phases it leaves is
an `int` but zero, and the power over it more than -1 and less than 2^31. -/
def CurrentFits (step : Step) (p : SiteProperties) (s : WallboxStrategy) : Prop :=
  ∀ voltage,
    voltageOf s.voltages (if step = .Keep then s.phases else s.nextPhases) = some voltage →
    (voltage ≠ 0 ∧ -2 ^ 31 ≤ voltage ∧ voltage < 2 ^ 31) ∧
      -1 < s.shortTermAvailablePower p / voltage ∧ s.shortTermAvailablePower p / voltage < 2 ^ 31

theorem adjust_current (step : Step) (p : SiteProperties) (s : WallboxStrategy) :
    (s.adjust step p).2.current =
      match voltageOf s.voltages (if step = .Keep then s.phases else s.nextPhases) with
      | some voltage => quotient? (s.shortTermAvailablePower p) voltage
      | none => some 0 := by
  cases step <;> rfl

theorem adjust_sound_iff (step : Step) (p : SiteProperties) (s : WallboxStrategy) :
    CurrentSound p (s.adjust step p).1 (s.adjust step p).2 ↔ s.CurrentFits step p := by
  have hpower : (s.adjust step p).1.shortTermAvailablePower p = s.shortTermAvailablePower p := by
    rw [adjust_frame]
    rfl
  have hvoltages : (s.adjust step p).1.voltages = s.voltages := by
    rw [adjust_frame]
  unfold CurrentSound CurrentFits
  rw [hpower, hvoltages, adjust_phases, adjust_current]
  cases voltageOf s.voltages (if step = .Keep then s.phases else s.nextPhases) with
  | none => simp
  | some voltage =>
    simp only [Option.some_inj, forall_eq']
    rw [← exists_quotient?_iff]
    apply exists_congr
    intro current
    constructor
    · exact fun h => ⟨h.1, h.2.1⟩
    · intro h
      obtain ⟨⟨hv, -, -⟩, -⟩ := quotient?_eq_some.mp h.1
      exact ⟨h.1, h.2, hv, quotient?_mul_le h.1 h.2⟩

end WallboxStrategy
end Iotic.Strategies
