import Iotic.Lib.Limiter
import Iotic.Strategies.PhaseSteps

/-!
# The phase limit of a multi-phase strategy

Where an input goes, the number of phases that may be on is lowered by one; a query
for a step up raises it again, once `phaseLimitDuration` has passed. The clock counts
nanoseconds.
-/

namespace Iotic.Strategies
open Config Things

/-! ### Each operation is one change of the limit -/

namespace MultiPhaseStrategy

def limiter (s : MultiPhaseStrategy) : Limiter.State := ⟨s.phaseLimit, s.phaseLimitTimepoint⟩

/- The number of phases the device reports on. -/
def phaseCount (thing : Reported) : ℕ := (inputsAndStates thing).2.count true

theorem decrementPhaseLimit_change (d n now : ℤ) {s : MultiPhaseStrategy} (h : 0 ≤ s.phaseLimit) :
    Limiter.Change d n now s.limiter (s.decrementPhaseLimit now).limiter := by
  unfold decrementPhaseLimit
  split_ifs with h0
  · exact Limiter.Change.same _
  · have hmax : max (s.phaseLimit - 1) 0 = s.phaseLimit - 1 := max_eq_left (by omega)
    simp only [limiter, hmax]
    apply Limiter.Change.lower
    dsimp only
    omega

theorem incrementPhaseLimit_change (cfg : ConfigRepository) (now : ℤ) (s : MultiPhaseStrategy) :
    Limiter.Change (nanoseconds cfg.phaseLimitDuration) s.powerThresholds.length now s.limiter
      (s.incrementPhaseLimit cfg now).limiter := by
  unfold incrementPhaseLimit
  split_ifs with hfull hearly
  · exact Limiter.Change.same _
  · exact Limiter.Change.same _
  · have hmin : min (s.phaseLimit + 1) (s.powerThresholds.length : ℤ) = s.phaseLimit + 1 :=
      min_eq_left (by omega)
    simp only [limiter, hmin]
    apply Limiter.Change.raise
    · dsimp only
      omega
    · dsimp only
      omega

theorem onDigitalInput_change (d n now : ℤ) (value : List Bool) {s : MultiPhaseStrategy}
    (h : 0 ≤ s.phaseLimit) :
    Limiter.Change d n now s.limiter (s.onDigitalInput now value).limiter := by
  unfold onDigitalInput
  dsimp only
  split_ifs
  · exact decrementPhaseLimit_change d n now h
  · exact Limiter.Change.same _

theorem wantsToStepUp_change (cfg : ConfigRepository) (now : ℤ) (thing : Reported)
    (p : SiteProperties) (s : MultiPhaseStrategy) :
    Limiter.Change (nanoseconds cfg.phaseLimitDuration) s.powerThresholds.length now s.limiter
      (s.wantsToStepUp cfg now thing p).2.limiter := by
  rcases wantsToStepUp_cases cfg now thing p s with hc | ⟨hleft, -⟩
  · rw [hc]
    exact Limiter.Change.same _
  · rw [hleft]
    exact incrementPhaseLimit_change cfg now s

theorem wantsToStepUp_below {cfg : ConfigRepository} {now : ℤ} {thing : Reported}
    {p : SiteProperties} {s : MultiPhaseStrategy} (h : (s.wantsToStepUp cfg now thing p).1 = true) :
    (phaseCount thing : ℤ) < (s.wantsToStepUp cfg now thing p).2.phaseLimit := by
  obtain ⟨hleft, hwants⟩ := wantsToStepUp_true h
  rw [hleft]
  exact hwants.below

theorem wantsTo_change (cfg : ConfigRepository) (now : ℤ) (thing : Reported) (p : SiteProperties)
    (s : MultiPhaseStrategy) (k : Step) :
    Limiter.Change (nanoseconds cfg.phaseLimitDuration) s.powerThresholds.length now s.limiter
      (s.wantsTo cfg now thing p k).2.limiter := by
  cases k with
  | Keep => exact Limiter.Change.same _
  | Down => exact Limiter.Change.same _
  | Up => exact wantsToStepUp_change cfg now thing p s

theorem adjust_limiter (k : Step) (p : SiteProperties) (s : MultiPhaseStrategy) :
    (s.adjust k p).1.limiter = s.limiter := by
  obtain ⟨-, -, hl, ht, -⟩ := adjust_frame k p s
  simp only [limiter, hl, ht]

end MultiPhaseStrategy

/-! ### Runs -/

/- An event as far as the limit goes: what it did to the limit, and whether it was a
query that allowed a step up, with how many phases reported on. -/
structure LimitRecord where
  change : Limiter.Entry
  wantsUp : Bool
  phaseCount : ℕ
  deriving DecidableEq, Repr

/- A strategy and the records of its events, latest first. -/
structure LimitLog where
  strategy : MultiPhaseStrategy
  records : List LimitRecord
  deriving DecidableEq, Repr

def MeterEvent.now : MeterEvent → ℤ
  | .input now _ => now
  | .queryUp now _ _ => now
  | .adjust _ now _ _ => now

namespace LimitLog
open MultiPhaseStrategy

def start (cfg : ConfigRepository) (powerThresholds : List ℤ) : LimitLog :=
  ⟨construct cfg powerThresholds, []⟩

def record (now : ℤ) (wantsUp : Bool) (phaseCount : ℕ) (s : MultiPhaseStrategy) (m : LimitLog) :
    LimitLog :=
  ⟨s, ⟨⟨now, m.strategy.phaseLimit, s.phaseLimit⟩, wantsUp, phaseCount⟩ :: m.records⟩

/- `none` where the clock would go back, or the strategy be stepped against its wish. -/
def step (cfg : ConfigRepository) (m : LimitLog) (e : MeterEvent) : Option LimitLog :=
  if ∀ last ∈ m.records.head?, last.change.now ≤ e.now then
    match e with
    | .input now value => some (m.record now false 0 (m.strategy.onDigitalInput now value))
    | .queryUp now thing p =>
      let answer := m.strategy.wantsToStepUp cfg now thing p
      some (m.record now answer.1 (phaseCount thing) answer.2)
    | .adjust k now thing p =>
      let answer := m.strategy.wantsTo cfg now thing p k
      if answer.1 = true then
        some (m.record now (decide (k = .Up)) (phaseCount thing) (answer.2.adjust k p).1)
      else none
  else none

/- The limit of `n` phases, tracked by the records; a step up was allowed only with
fewer phases on than the limit. -/
structure Limited (cfg : ConfigRepository) (n : ℕ) (m : LimitLog) : Prop where
  size : m.strategy.powerThresholds.length = n
  tracks : Limiter.Tracks (nanoseconds cfg.phaseLimitDuration) n m.strategy.limiter
    (m.records.map LimitRecord.change)
  below : ∀ r ∈ m.records, r.wantsUp = true → (r.phaseCount : ℤ) < r.change.after

theorem start_limited (cfg : ConfigRepository) (powerThresholds : List ℤ) :
    (start cfg powerThresholds).Limited cfg powerThresholds.length where
  size := rfl
  tracks := Limiter.tracks_nil ⟨Int.natCast_nonneg _, le_rfl⟩
  below := by simp [start]

/- A clock that has not gone back before the latest record has not before any. -/
theorem Limited.latest {cfg : ConfigRepository} {n : ℕ} {m : LimitLog} (h : m.Limited cfg n)
    {now : ℤ} (hnow : ∀ last ∈ m.records.head?, last.change.now ≤ now) :
    ∀ e ∈ m.records.map LimitRecord.change, e.now ≤ now := by
  have hs := h.tracks.sorted
  cases hr : m.records with
  | nil => simp
  | cons last older =>
    have hlast : last.change.now ≤ now := hnow last (by rw [hr]; rfl)
    rw [hr, List.map_cons, List.pairwise_cons] at hs
    rw [List.map_cons]
    refine List.forall_mem_cons.mpr ⟨hlast, ?_⟩
    intro e he
    exact (hs.1 e he).trans hlast

theorem Limited.record {cfg : ConfigRepository} {n : ℕ} {m : LimitLog} (h : m.Limited cfg n)
    {now : ℤ} {wantsUp : Bool} {count : ℕ} {s : MultiPhaseStrategy}
    (hnow : ∀ last ∈ m.records.head?, last.change.now ≤ now)
    (hsize : s.powerThresholds = m.strategy.powerThresholds)
    (hc : Limiter.Change (nanoseconds cfg.phaseLimitDuration) n now m.strategy.limiter s.limiter)
    (hup : wantsUp = true → (count : ℤ) < s.phaseLimit) :
    (m.record now wantsUp count s).Limited cfg n where
  size := by rw [← h.size, ← hsize]; rfl
  tracks := h.tracks.change hc (h.latest hnow)
  below := List.forall_mem_cons.mpr ⟨hup, h.below⟩

theorem step_limited (cfg : ConfigRepository) (n : ℕ) (m : LimitLog) (e : MeterEvent)
    (m' : LimitLog) (h : m.Limited cfg n) (hs : m.step cfg e = some m') : m'.Limited cfg n := by
  unfold step at hs
  split_ifs at hs with hnow
  cases e with
  | input now value =>
    obtain ⟨t, l, a, hf⟩ := onDigitalInput_frame now value m.strategy
    obtain rfl := Option.some.inj hs
    apply h.record hnow
    · rw [hf]
    · exact onDigitalInput_change _ _ now value h.tracks.limit.1
    · simp
  | queryUp now thing p =>
    obtain ⟨t, l, hf⟩ := wantsToStepUp_frame cfg now thing p m.strategy
    have hc := wantsToStepUp_change cfg now thing p m.strategy
    rw [h.size] at hc
    obtain rfl := Option.some.inj hs
    apply h.record hnow
    · rw [hf]
    · exact hc
    · exact wantsToStepUp_below
  | adjust k now thing p =>
    obtain ⟨t, l, hf⟩ := wantsTo_frame cfg now thing p m.strategy k
    obtain ⟨hsize, -, hlimit, -, -⟩ := adjust_frame k p (m.strategy.wantsTo cfg now thing p k).2
    have hc := wantsTo_change cfg now thing p m.strategy k
    rw [h.size] at hc
    dsimp only at hs
    split_ifs at hs with hw
    obtain rfl := Option.some.inj hs
    apply h.record hnow
    · rw [hsize, hf]
    · rw [adjust_limiter]
      exact hc
    · intro hk
      obtain rfl := of_decide_eq_true hk
      rw [hlimit]
      exact wantsToStepUp_below hw

/- What is asked of a run with a limit of `n` phases: the limit stays between 0 and `n`
and moves by at most one, a step up is allowed only with fewer phases on than the
limit, a raise comes at least `phaseLimitDuration` after every change before it, and,
for as long after the limit was lowered, a step up is allowed only with fewer phases
on than it was lowered to. -/
structure KeepsLimit (cfg : ConfigRepository) (n : ℕ) (m : LimitLog) : Prop where
  limit : 0 ≤ m.strategy.phaseLimit ∧ m.strategy.phaseLimit ≤ n
  gradual : ∀ r ∈ m.records, r.change.Gradual n
  below : ∀ r ∈ m.records, r.wantsUp = true → (r.phaseCount : ℤ) < r.change.after
  spaced : m.records.Pairwise fun later earlier =>
    (earlier.change.after ≠ earlier.change.before → later.change.before < later.change.after →
      cfg.phaseLimitDuration * 60000000000 ≤ later.change.now - earlier.change.now) ∧
    (earlier.change.after < earlier.change.before →
      later.change.now - earlier.change.now < cfg.phaseLimitDuration * 60000000000 →
      later.wantsUp = true → (later.phaseCount : ℤ) < earlier.change.after)

/- A duration that is no longer than the one in 64 bits is kept. -/
theorem Limited.keepsLimit {cfg : ConfigRepository} {n : ℕ} {m : LimitLog} (h : m.Limited cfg n)
    (hd : cfg.phaseLimitDuration * 60000000000 ≤ nanoseconds cfg.phaseLimitDuration) :
    m.KeepsLimit cfg n := by
  have hspaced := List.pairwise_map.mp h.tracks.spaced
  refine ⟨h.tracks.limit, ?_, h.below, ?_⟩
  · intro r hr
    exact h.tracks.gradual r.change (List.mem_map_of_mem hr)
  · apply hspaced.imp_of_mem
    intro later earlier hl _ hs
    constructor
    · intro hne hr
      exact hd.trans (hs.1 hne hr)
    · intro hlower hearly hup
      exact lt_of_lt_of_le (h.below later hl hup) (hs.2 hlower (lt_of_lt_of_le hearly hd))

/- Without phases the limit never changes, and nothing is allowed. -/
theorem Limited.keepsLimit_zero {cfg : ConfigRepository} {m : LimitLog} (h : m.Limited cfg 0) :
    m.KeepsLimit cfg 0 := by
  have hsame : ∀ r ∈ m.records, r.change.before = 0 ∧ r.change.after = 0 := by
    intro r hr
    obtain ⟨hbefore, hafter, -⟩ := h.tracks.gradual r.change (List.mem_map_of_mem hr)
    omega
  have hspaced := List.pairwise_map.mp h.tracks.spaced
  refine ⟨h.tracks.limit, ?_, h.below, ?_⟩
  · intro r hr
    exact h.tracks.gradual r.change (List.mem_map_of_mem hr)
  · apply hspaced.imp_of_mem
    intro later earlier _ he _
    have h0 := hsame earlier he
    omega

/- Minutes that overflow upwards come out too short; the others do not. -/
theorem le_nanoseconds_iff (cfg : ConfigRepository) :
    cfg.phaseLimitDuration * 60000000000 ≤ nanoseconds cfg.phaseLimitDuration ↔
      cfg.phaseLimitDuration ≤ 153722867 := by
  unfold nanoseconds
  generalize cfg.phaseLimitDuration = minutes
  have hlow := Int.le_bmod (x := minutes * 60000000000) (m := 2 ^ 64) (by decide)
  have hhigh := Int.bmod_lt (x := minutes * 60000000000) (m := 2 ^ 64) (by decide)
  constructor
  · intro h
    omega
  · intro h
    by_cases hmin : -153722867 ≤ minutes
    · rw [Int.bmod_eq_of_le_mul_two]
      all_goals omega
    · omega

/- A device of `n` phases with every input there and no phase on. -/
def ready (n : ℕ) : Reported := ⟨some (List.replicate n true), some (List.replicate n false)⟩

/- The input goes at once, and a query asks as soon as the wait of 64 bits allows. -/
def cutOff (cfg : ConfigRepository) (n : ℕ) : List MeterEvent :=
  [.input 0 [true], .input 0 [false],
    .queryUp (max 0 (nanoseconds cfg.phaseLimitDuration)) (ready n) ⟨0, 0, 0, 0, 0⟩]

theorem wantsToStepUp_raises {cfg : ConfigRepository} {now : ℤ} {p : SiteProperties}
    {s : MultiPhaseStrategy} (hn : s.nextStepUpPhase < s.powerThresholds.length) :
    (s.wantsToStepUp cfg now (ready s.powerThresholds.length) p).2 =
      s.incrementPhaseLimit cfg now := by
  unfold wantsToStepUp inputsAndStates ready
  simp only [Option.getD_some, List.length_replicate, ne_eq, not_true_eq_false, or_self, if_false,
    List.getD_eq_getElem?_getD, List.getElem?_replicate, hn, if_true, Bool.not_true,
    Bool.false_eq_true]
  split_ifs <;> rfl

theorem onDigitalInput_cutOff (cfg : ConfigRepository) {powerThresholds : List ℤ}
    (hn : powerThresholds ≠ []) :
    ((construct cfg powerThresholds).onDigitalInput 0 [true]).onDigitalInput 0 [false] =
      { construct cfg powerThresholds with phaseLimit := powerThresholds.length - 1 } := by
  have hpos : 0 < powerThresholds.length := List.length_pos_of_ne_nil hn
  have hmax : max ((powerThresholds.length : ℤ) - 1) 0 = powerThresholds.length - 1 := by omega
  simp [onDigitalInput, construct, decrementPhaseLimit, hn, hmax]

/- The limit is lowered and raised again, no more than the wait of 64 bits apart. -/
theorem cutOff_run (cfg : ConfigRepository) {powerThresholds : List ℤ} (hn : powerThresholds ≠ []) :
    ∃ m wantsUp count,
      Runs.exec (step cfg) (start cfg powerThresholds) (cutOff cfg powerThresholds.length) = some m ∧
      m.records =
        [⟨⟨max 0 (nanoseconds cfg.phaseLimitDuration), powerThresholds.length - 1,
            powerThresholds.length⟩, wantsUp, count⟩,
          ⟨⟨0, powerThresholds.length, powerThresholds.length - 1⟩, false, 0⟩,
          ⟨⟨0, powerThresholds.length, powerThresholds.length⟩, false, 0⟩] := by
  have hpos : 0 < powerThresholds.length := List.length_pos_of_ne_nil hn
  let s := { construct cfg powerThresholds with phaseLimit := (powerThresholds.length : ℤ) - 1 }
  let late := max 0 (nanoseconds cfg.phaseLimitDuration)
  let answer := s.wantsToStepUp cfg late (ready powerThresholds.length) ⟨0, 0, 0, 0, 0⟩
  have hanswer : answer.2 = s.incrementPhaseLimit cfg late := wantsToStepUp_raises (s := s) hpos
  have hraised : answer.2.phaseLimit = powerThresholds.length := by
    have hroom : ¬ s.phaseLimit ≥ s.powerThresholds.length := by
      show ¬ (powerThresholds.length : ℤ) - 1 ≥ powerThresholds.length
      omega
    have hwait : ¬ late - s.phaseLimitTimepoint < nanoseconds cfg.phaseLimitDuration := by
      show ¬ max 0 (nanoseconds cfg.phaseLimitDuration) - 0 < _
      omega
    rw [hanswer, incrementPhaseLimit, if_neg hroom, if_neg hwait]
    show min ((powerThresholds.length : ℤ) - 1 + 1) powerThresholds.length = _
    omega
  let m₁ := (start cfg powerThresholds).record 0 false 0
    ((construct cfg powerThresholds).onDigitalInput 0 [true])
  let m₂ := m₁.record 0 false 0 s
  have h₁ : (start cfg powerThresholds).step cfg (.input 0 [true]) = some m₁ :=
    if_pos (by simp [start])
  have h₂ : m₁.step cfg (.input 0 [false]) = some m₂ := by
    show (if _ then some (m₁.record 0 false 0
      (((construct cfg powerThresholds).onDigitalInput 0 [true]).onDigitalInput 0 [false])) else none) = _
    rw [onDigitalInput_cutOff cfg hn]
    exact if_pos (by simp [m₁, record, MeterEvent.now])
  have h₃ : m₂.step cfg (.queryUp late (ready powerThresholds.length) ⟨0, 0, 0, 0, 0⟩) =
      some (m₂.record late answer.1 (phaseCount (ready powerThresholds.length)) answer.2) :=
    if_pos (by simp [m₂, record, MeterEvent.now, late])
  have hrun := (Runs.exec_cons h₁ _).trans ((Runs.exec_cons h₂ _).trans (Runs.exec_cons h₃ []))
  refine ⟨_, answer.1, phaseCount (ready powerThresholds.length), hrun, ?_⟩
  have hlast : (⟨late, s.phaseLimit, answer.2.phaseLimit⟩ : Limiter.Entry) =
      ⟨late, powerThresholds.length - 1, powerThresholds.length⟩ := by
    rw [hraised]
  exact congrArg (fun change => LimitRecord.mk change answer.1
    (phaseCount (ready powerThresholds.length)) :: m₂.records) hlast

/- The raise comes too early after the change before it. -/
theorem cutOff_not_keepsLimit {cfg : ConfigRepository} {n : ℕ} {m : LimitLog} {wantsUp : Bool}
    {count : ℕ} {older : List LimitRecord} {late : ℤ}
    (hshort : late < cfg.phaseLimitDuration * 60000000000)
    (hm : m.records = ⟨⟨late, n - 1, n⟩, wantsUp, count⟩ :: ⟨⟨0, n, n - 1⟩, false, 0⟩ :: older) :
    ¬ m.KeepsLimit cfg n := by
  intro h
  have hspaced := h.spaced
  rw [hm, List.pairwise_cons] at hspaced
  have hwait := (hspaced.1 _ List.mem_cons_self).1
  dsimp only at hwait
  have hlate := hwait (by omega) (by omega)
  omega

/-- Whatever the inputs, the readings and the device, on a clock that does not go
back: every run keeps the limit where the duration in nanoseconds fits 64 bits, up to
292 years (or there is no phase to limit), and not otherwise. -/
theorem phaseLimit_run_iff (cfg : ConfigRepository) (powerThresholds : List ℤ) :
    (∀ events m,
      Runs.Run (fun m e m' => m.step cfg e = some m') (start cfg powerThresholds) events m →
        m.KeepsLimit cfg powerThresholds.length) ↔
      powerThresholds = [] ∨ cfg.phaseLimitDuration ≤ 153722867 := by
  constructor
  · intro hall
    by_contra! hnot
    obtain ⟨hn, hlong⟩ := hnot
    obtain ⟨m, wantsUp, count, hrun, hm⟩ := cutOff_run cfg hn
    have hshort : nanoseconds cfg.phaseLimitDuration < cfg.phaseLimitDuration * 60000000000 :=
      not_le.mp (mt (le_nanoseconds_iff cfg).mp (by omega))
    exact cutOff_not_keepsLimit (by omega) hm (hall _ m (Runs.run_of_exec hrun))
  · intro hfits events m h
    have hm : m.Limited cfg powerThresholds.length :=
      h.invariant (step_limited cfg powerThresholds.length) (start_limited cfg powerThresholds)
    rcases hfits with rfl | hfits
    · exact hm.keepsLimit_zero
    · exact hm.keepsLimit ((le_nanoseconds_iff cfg).mpr hfits)

/- 200000000 minutes: the product overflows to less than nothing, and the limit that was
lowered grows again at once. -/
theorem not_phaseLimit_run :
    let cfg : ConfigRepository :=
      ⟨fun _ key => if key = .phase_limit_duration_minutes then some (.integer 200000000) else none⟩
    cfg.phaseLimitDuration = 200000000 ∧
    ∃ m, Runs.exec (step cfg) (start cfg [1000, 1000]) [.input 0 [true, true],
        .input 5 [false, true], .input 6 [true, true],
        .queryUp 7 (ready 2) ⟨1800, -2751, -2751, -2751, 3000⟩] = some m ∧
      m.records.map LimitRecord.change = [⟨7, 1, 2⟩, ⟨6, 1, 1⟩, ⟨5, 2, 1⟩, ⟨0, 2, 2⟩] ∧
      ¬ m.KeepsLimit cfg 2 := by
  intro cfg
  refine ⟨rfl, ⟨⟨[1000, 1000], [200, 200], 7, 2, 0, 0, [false, false], [0, 0], 0, 0, true⟩,
    [⟨⟨7, 1, 2⟩, true, 0⟩, ⟨⟨6, 1, 1⟩, false, 0⟩, ⟨⟨5, 2, 1⟩, false, 0⟩, ⟨⟨0, 2, 2⟩, false, 0⟩]⟩,
    ?_, rfl, ?_⟩
  · decide +kernel
  · intro h
    have hspaced := (List.pairwise_cons.mp h.spaced).1 ⟨⟨5, 2, 1⟩, false, 0⟩ (by simp)
    exact absurd (hspaced.1 (by decide) (by decide)) (by decide +kernel)

/- One of two inputs goes and comes back: a step up is allowed with no phase on, and
no longer with one. -/
theorem phaseLimit_run_cutOff :
    let cfg : ConfigRepository := ⟨fun _ _ => none⟩
    let surplus : SiteProperties := ⟨1800, -2751, -2751, -2751, 3000⟩
    ∃ m, Runs.exec (step cfg) (start cfg [1000, 1000]) [.input 0 [true, true],
        .input 5 [false, true], .input 6 [true, true],
        .adjust .Up 10 ⟨some [true, true], some [false, false]⟩ surplus,
        .queryUp 20 ⟨some [true, true], some [true, false]⟩ surplus] = some m ∧
      m.records.map LimitRecord.wantsUp = [false, true, false, false, false] ∧
      m.KeepsLimit cfg 2 := by
  intro cfg surplus
  obtain ⟨m, hm, hup⟩ : ∃ m, Runs.exec (step cfg) (start cfg [1000, 1000])
      [.input 0 [true, true], .input 5 [false, true], .input 6 [true, true],
        .adjust .Up 10 ⟨some [true, true], some [false, false]⟩ surplus,
        .queryUp 20 ⟨some [true, true], some [true, false]⟩ surplus] = some m ∧
      m.records.map LimitRecord.wantsUp = [false, true, false, false, false] := by
    refine ⟨⟨⟨[1000, 1000], [200, 200], 5, 1, 1, 0, [true, false], [1800, 0], 0, 0, true⟩,
      [⟨⟨20, 1, 1⟩, false, 1⟩, ⟨⟨10, 1, 1⟩, true, 0⟩, ⟨⟨6, 1, 1⟩, false, 0⟩,
        ⟨⟨5, 2, 1⟩, false, 0⟩, ⟨⟨0, 2, 2⟩, false, 0⟩]⟩, ?_, rfl⟩
    decide +kernel
  have hfits : cfg.phaseLimitDuration ≤ 153722867 := by decide +kernel
  exact ⟨m, hm, hup, (phaseLimit_run_iff cfg [1000, 1000]).mpr (Or.inr hfits) _ m (Runs.run_of_exec hm)⟩

end LimitLog
end Iotic.Strategies
