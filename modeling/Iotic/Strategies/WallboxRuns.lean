import Iotic.Lib.Runs
import Iotic.Strategies.PowerManager
import Iotic.Strategies.WallboxStrategy

/-!
# A wallbox under the power manager

Between its updates the manager knows nothing of the wallbox: reports of the thing
come in at any time, and other strategies are asked and stepped around it. Here all
that the wallbox strategy is asked and told in a run is recorded.
-/

namespace Iotic.Strategies
open Config Things

/-! ### The wallbox among other strategies -/

/- A report of the thing; a query or a call of `adjust`, with the members it found and
those it left. -/
inductive WallboxEntry
  | reported (map : WallboxReport)
  | asked (step : Step) (p : SiteProperties) (before after : WallboxStrategy) (answer : Bool)
  | adjusted (step : Step) (p : SiteProperties) (before after : WallboxStrategy)
      (settings : WallboxSettings)
  deriving DecidableEq, Repr

/- The status reported last, in a log with the latest entry first. -/
def lastStatus : List WallboxEntry → ThingStatus
  | [] => .unknown
  | .reported map :: log => map.status.elim (lastStatus log) .ofInt
  | .asked _ _ _ _ _ :: log => lastStatus log
  | .adjusted _ _ _ _ _ :: log => lastStatus log

/- The wallbox strategy, what became of it, latest first, and all the rest. -/
structure WallboxWorld (τ : Type) where
  wallbox : WallboxStrategy
  log : List WallboxEntry
  others : τ

/- The code around the strategy. To set properties of a thing may make it report. -/
structure Surroundings (τ : Type) where
  ema : ℚ → ℤ → ℤ → ℤ → ℚ
  symbols : SymbolRepository τ
  setThingProperties : WallboxSettings → τ → τ × List WallboxReport

/- A strategy in the manager's list: the wallbox's, or one that acts on the rest and
hands on what that makes the wallbox report. -/
inductive Member (τ : Type)
  | wallbox (thingId : Name) (priority : ℤ)
  | other (strategy : Strategy (τ × List WallboxReport))

namespace WallboxWorld
variable {τ : Type}

def deliver (env : Surroundings τ) (reports : List WallboxReport) (w : WallboxWorld τ) :
    WallboxWorld τ :=
  reports.foldl (fun w r =>
    { w with wallbox := w.wallbox.onProperties env.ema r, log := .reported r :: w.log }) w

def ask (step : Step) (p : SiteProperties) (w : WallboxWorld τ) : Bool × WallboxWorld τ :=
  let r := w.wallbox.wantsTo p step
  (r.1, ⟨r.2, .asked step p w.wallbox r.2 r.1 :: w.log, w.others⟩)

def adjust (env : Surroundings τ) (step : Step) (p : SiteProperties) (w : WallboxWorld τ) :
    WallboxWorld τ :=
  let r := w.wallbox.adjust step p
  let o := env.setThingProperties r.2 w.others
  deliver env o.2 ⟨r.1, .adjusted step p w.wallbox r.1 r.2 :: w.log, o.1⟩

/- Something happens outside the wallbox strategy. -/
def besides (env : Surroundings τ) (f : τ × List WallboxReport → τ × List WallboxReport)
    (w : WallboxWorld τ) : WallboxWorld τ :=
  let r := f (w.others, [])
  deliver env r.2 { w with others := r.1 }

end WallboxWorld

def Member.strategy {τ : Type} (env : Surroundings τ) : Member τ → Strategy (WallboxWorld τ)
  | .wallbox thingId priority =>
    { thingId := thingId
      priority := priority
      wantsToStepDown := WallboxWorld.ask .Down
      wantsToStepUp := WallboxWorld.ask .Up
      adjust := WallboxWorld.adjust env }
  | .other s =>
    { thingId := s.thingId
      priority := s.priority
      wantsToStepDown := fun p w => ((s.wantsToStepDown p (w.others, [])).1,
        w.besides env fun o => (s.wantsToStepDown p o).2)
      wantsToStepUp := fun p w => ((s.wantsToStepUp p (w.others, [])).1,
        w.besides env fun o => (s.wantsToStepUp p o).2)
      adjust := fun step p w => w.besides env (s.adjust step p) }

def Surroundings.symbolRepository {τ : Type} (env : Surroundings τ) :
    SymbolRepository (WallboxWorld τ) where
  setSymbol name value w := { w with others := env.symbols.setSymbol name value w.others }

inductive WallboxEvent (τ : Type)
  | report (map : WallboxReport)
  | update (members : List (Member τ)) (p : SiteProperties)
  | outside (others : τ)

namespace WallboxRun
variable {τ : Type}

/- Members the constructor does not initialise are anything. -/
def start (cfg : ConfigRepository) (offset : Option Offset) (lastMeasurementTs : ℤ)
    (voltages : Voltages) (others : τ) : PowerManager (WallboxWorld τ) :=
  ⟨0, ⟨.construct cfg offset lastMeasurementTs voltages, [], others⟩⟩

def handle (env : Surroundings τ) (m : PowerManager (WallboxWorld τ)) :
    WallboxEvent τ → PowerManager (WallboxWorld τ)
  | .report map => { m with world := m.world.deliver env [map] }
  | .update members p =>
    (onSiteProperties env.symbolRepository (members.map (Member.strategy env)) p m).1
  | .outside others => { m with world := { m.world with others } }

end WallboxRun

/-! ### What is recorded -/

namespace WallboxWorld
open WallboxStrategy
variable {τ : Type}

/- Every entry is what the code does there, and a step up or down comes after a query
that answered yes and left the members as the step found them. -/
def Lawful (log : List WallboxEntry) : WallboxEntry → Prop
  | .reported _ => True
  | .asked k p s t answer => (answer, t) = s.wantsTo p k
  | .adjusted k p s t settings =>
    (t, settings) = s.adjust k p ∧ IsPhases s.phases ∧ IsPhases t.phases ∧
      (k ≠ .Keep → ∃ u, .asked k p u s true ∈ log)

/- Each `adjust` found the status of the last report before it. -/
def Informed (log : List WallboxEntry) : Prop :=
  ∀ later k p s t settings earlier,
    log = later ++ .adjusted k p s t settings :: earlier → s.status = lastStatus earlier

structure Recorded (w : WallboxWorld τ) : Prop where
  phases : IsPhases w.wallbox.phases
  lawful : ∀ e ∈ w.log, Lawful w.log e
  status : w.wallbox.status = lastStatus w.log
  informed : Informed w.log

theorem Lawful.mono {log log' : List WallboxEntry} (hsub : ∀ e ∈ log, e ∈ log')
    {e : WallboxEntry} (h : Lawful log e) : Lawful log' e := by
  cases e with
  | reported map => exact h
  | asked k p s t answer => exact h
  | adjusted k p s t settings =>
    obtain ⟨heq, hs, ht, hasked⟩ := h
    refine ⟨heq, hs, ht, ?_⟩
    intro hk
    obtain ⟨u, hu⟩ := hasked hk
    exact ⟨u, hsub _ hu⟩

/- What a new entry has to say of the status: the last report is still the last one. -/
theorem Informed.cons {log : List WallboxEntry} (h : Informed log) {e : WallboxEntry}
    (he : ∀ k p s t settings, e = .adjusted k p s t settings → s.status = lastStatus log) :
    Informed (e :: log) := by
  intro later k p s t settings earlier heq
  rcases List.cons_eq_append_iff.mp heq with ⟨rfl, hhead⟩ | ⟨later', rfl, htail⟩
  · obtain ⟨rfl, rfl⟩ := List.cons.inj hhead
    exact he k p s t settings rfl
  · exact h later' k p s t settings earlier htail

theorem Recorded.cons {w : WallboxWorld τ} (h : w.Recorded) {s : WallboxStrategy}
    {e : WallboxEntry} {others : τ} (hs : IsPhases s.phases) (he : Lawful (e :: w.log) e)
    (hstatus : s.status = lastStatus (e :: w.log))
    (hfound : ∀ k p s t settings, e = .adjusted k p s t settings → s.status = lastStatus w.log) :
    (⟨s, e :: w.log, others⟩ : WallboxWorld τ).Recorded where
  phases := hs
  lawful := List.forall_mem_cons.mpr
    ⟨he, fun e' he' => (h.lawful e' he').mono fun _ => List.mem_cons_of_mem _⟩
  status := hstatus
  informed := h.informed.cons hfound

/- The query a step up or down comes right after. -/
theorem Recorded.query {w : WallboxWorld τ} (h : w.Recorded) {k : Step} {p : SiteProperties}
    {s t : WallboxStrategy} {settings : WallboxSettings}
    (he : .adjusted k p s t settings ∈ w.log) (hk : k ≠ .Keep) :
    ∃ u, .asked k p u s true ∈ w.log ∧ (u.wantsTo p k).1 = true ∧ (u.wantsTo p k).2 = s := by
  obtain ⟨-, -, -, hasked⟩ := h.lawful _ he
  obtain ⟨u, hu⟩ := hasked hk
  have hquery : (true, s) = u.wantsTo p k := h.lawful _ hu
  exact ⟨u, hu, (congrArg Prod.fst hquery).symm, (congrArg Prod.snd hquery).symm⟩

theorem Recorded.stepped {w : WallboxWorld τ} (h : w.Recorded) {k : Step} {p : SiteProperties}
    {s t : WallboxStrategy} {settings : WallboxSettings}
    (he : .adjusted k p s t settings ∈ w.log) :
    t.phases = if k = .Keep then s.phases else s.nextPhases := by
  obtain ⟨heq, -, -, -⟩ := h.lawful _ he
  rw [show t = (s.adjust k p).1 from congrArg Prod.fst heq, adjust_phases]

/- A step goes the way it was asked for, and up only while the status allows it. -/
def Directed (s t : WallboxStrategy) : Step → Prop
  | .Up => s.phases < t.phases ∧ s.Ready
  | .Down => t.phases < s.phases
  | .Keep => t.phases = s.phases

theorem Recorded.directed {w : WallboxWorld τ} (h : w.Recorded) {k : Step} {p : SiteProperties}
    {s t : WallboxStrategy} {settings : WallboxSettings}
    (he : .adjusted k p s t settings ∈ w.log) : Directed s t k := by
  have hphases := h.stepped he
  cases k with
  | Keep => exact hphases
  | Down =>
    obtain ⟨u, -, hyes, hquery⟩ := h.query he (by decide)
    have hdown := (wantsTo_true hyes).2.1 rfl
    have hsame : s.phases = u.phases := by rw [← hquery, wantsTo_frame]
    rw [hquery, ← hsame] at hdown
    simpa [Directed, hphases] using hdown
  | Up =>
    obtain ⟨u, -, hyes, hquery⟩ := h.query he (by decide)
    obtain ⟨hready, hup⟩ := (wantsTo_true hyes).1 rfl
    have hsame : s.phases = u.phases := by rw [← hquery, wantsTo_frame]
    have hstatus : s.status = u.status := by rw [← hquery, wantsTo_frame]
    rw [hquery, ← hsame] at hup
    refine ⟨by simpa [hphases] using hup, ?_⟩
    rwa [Ready, hstatus]

theorem onProperties_phases (ema : ℚ → ℤ → ℤ → ℤ → ℚ) (map : WallboxReport) (s : WallboxStrategy) :
    (s.onProperties ema map).phases = s.phases := by
  unfold onProperties onStatus
  cases map.power <;> cases map.voltage <;> cases map.offset <;> cases map.status <;> rfl

theorem onProperties_status (ema : ℚ → ℤ → ℤ → ℤ → ℚ) (map : WallboxReport) (s : WallboxStrategy) :
    (s.onProperties ema map).status = map.status.elim s.status .ofInt := by
  unfold onProperties onStatus
  cases map.power <;> cases map.voltage <;> cases map.offset <;> cases map.status <;> rfl

theorem deliver_recorded (env : Surroundings τ) (reports : List WallboxReport) {w : WallboxWorld τ}
    (h : w.Recorded) : (w.deliver env reports).Recorded := by
  apply Runs.foldl_invariant (I := Recorded) _ _ _ h
  intro w r hw
  apply hw.cons
  · rw [onProperties_phases]
    exact hw.phases
  · trivial
  · rw [onProperties_status, hw.status]
    rfl
  · intro k p s t settings he
    cases he

theorem besides_recorded (env : Surroundings τ)
    (f : τ × List WallboxReport → τ × List WallboxReport) {w : WallboxWorld τ} (h : w.Recorded) :
    (w.besides env f).Recorded :=
  deliver_recorded env _ ⟨h.phases, h.lawful, h.status, h.informed⟩

theorem ask_recorded (step : Step) (p : SiteProperties) {w : WallboxWorld τ} (h : w.Recorded) :
    (w.ask step p).2.Recorded := by
  apply h.cons
  · rw [wantsTo_frame]
    exact h.phases
  · exact (rfl : _ = w.wallbox.wantsTo p step)
  · rw [wantsTo_frame]
    exact h.status
  · intro k p s t settings he
    cases he

/- The phases `adjust` leaves are those it found, or those a query has just computed. -/
theorem adjust_recorded (env : Surroundings τ) (step : Step) (p : SiteProperties)
    {w : WallboxWorld τ} (h : w.Recorded)
    (hask : step ≠ .Keep → ∃ u, .asked step p u w.wallbox true ∈ w.log) :
    (w.adjust env step p).Recorded := by
  have hphases : IsPhases (w.wallbox.adjust step p).1.phases := by
    rw [adjust_frame]
    dsimp only
    split_ifs with hk
    · exact h.phases
    · obtain ⟨u, hu⟩ := hask hk
      have heq : (true, w.wallbox) = u.wantsTo p step := h.lawful _ hu
      have hyes : (u.wantsTo p step).1 = true := by rw [← heq]
      have hnext := (wantsTo_true hyes).2.2 hk
      rwa [← heq] at hnext
  apply deliver_recorded
  apply h.cons hphases
  · refine ⟨rfl, h.phases, hphases, ?_⟩
    intro hk
    obtain ⟨u, hu⟩ := hask hk
    exact ⟨u, List.mem_cons_of_mem _ hu⟩
  · rw [adjust_frame]
    exact h.status
  · intro k q s t settings he
    obtain ⟨-, -, rfl, -, -⟩ := WallboxEntry.adjusted.inj he
    exact h.status

theorem step_recorded (env : Surroundings τ) (step : Step) (p : SiteProperties)
    {w : WallboxWorld τ} (h : w.Recorded) (hw : (w.ask step p).1 = true) :
    ((w.ask step p).2.adjust env step p).Recorded := by
  apply adjust_recorded env step p (ask_recorded step p h)
  intro _
  refine ⟨w.wallbox, ?_⟩
  have hyes : (w.wallbox.wantsTo p step).1 = true := hw
  simp [ask, hyes]

theorem member_preserves (env : Surroundings τ) (member : Member τ) :
    Preserves Recorded (member.strategy env) := by
  cases member with
  | wallbox thingId priority =>
    constructor
    · exact fun p w h => ask_recorded .Down p h
    · exact fun p w h => ask_recorded .Up p h
    · exact fun p w h hw => step_recorded env .Down p h hw
    · exact fun p w h hw => step_recorded env .Up p h hw
    · exact fun p w h => adjust_recorded env .Keep p h (absurd rfl)
  | other s =>
    have hdown := fun p (w : WallboxWorld τ) (h : w.Recorded) =>
      besides_recorded env (fun o => (s.wantsToStepDown p o).2) h
    have hup := fun p (w : WallboxWorld τ) (h : w.Recorded) =>
      besides_recorded env (fun o => (s.wantsToStepUp p o).2) h
    constructor
    · exact hdown
    · exact hup
    · exact fun p w h _ => besides_recorded env (s.adjust .Down p) (hdown p w h)
    · exact fun p w h _ => besides_recorded env (s.adjust .Up p) (hup p w h)
    · exact fun p w h => besides_recorded env (s.adjust .Keep p) h

end WallboxWorld

namespace WallboxRun
open WallboxStrategy WallboxWorld
variable {τ : Type}

theorem handle_recorded (env : Surroundings τ) (m : PowerManager (WallboxWorld τ))
    (e : WallboxEvent τ) (h : m.world.Recorded) : (handle env m e).world.Recorded := by
  cases e with
  | report map => exact deliver_recorded env [map] h
  | update members p =>
    apply onSiteProperties_preserves env.symbolRepository _ _ p m h
    · exact fun _ _ w hw => ⟨hw.phases, hw.lawful, hw.status, hw.informed⟩
    · intro s hs
      obtain ⟨member, -, rfl⟩ := List.mem_map.mp hs
      exact member_preserves env member
  | outside others => exact ⟨h.phases, h.lawful, h.status, h.informed⟩

theorem run_recorded (cfg : ConfigRepository) (offset : Option Offset) (lastMeasurementTs : ℤ)
    (voltages : Voltages) (env : Surroundings τ) (others : τ) (events : List (WallboxEvent τ)) :
    (events.foldl (handle env)
      (start cfg offset lastMeasurementTs voltages others)).world.Recorded := by
  have hstart : (start cfg offset lastMeasurementTs voltages others).world.Recorded :=
    ⟨Or.inl rfl, by simp [start], rfl, by simp [start, Informed]⟩
  exact Runs.foldl_invariant (I := fun m : PowerManager (WallboxWorld τ) => m.world.Recorded)
    (handle_recorded env) events _ hstart

/-! ### Every step goes the way it was asked for -/

/-- Whatever is reported and whatever the other strategies do: the phases are always
0, 1 or 3, each step up raises them and comes while the status reported last is that the
wallbox waits or charges, each step down lowers them, and to keep leaves them alone. -/
theorem phases_run (cfg : ConfigRepository) (offset : Option Offset) (lastMeasurementTs : ℤ)
    (voltages : Voltages) (env : Surroundings τ) (others : τ) (events : List (WallboxEvent τ)) :
    let w := (events.foldl (handle env) (start cfg offset lastMeasurementTs voltages others)).world
    IsPhases w.wallbox.phases ∧
    ∀ later k p s t settings earlier, w.log = later ++ .adjusted k p s t settings :: earlier →
      (IsPhases s.phases ∧ IsPhases t.phases) ∧ Directed s t k ∧ s.status = lastStatus earlier := by
  intro w
  have hw : w.Recorded := run_recorded cfg offset lastMeasurementTs voltages env others events
  refine ⟨hw.phases, ?_⟩
  intro later k p s t settings earlier hlog
  have he : .adjusted k p s t settings ∈ w.log := by simp [hlog]
  obtain ⟨-, hs, ht, -⟩ := hw.lawful _ he
  exact ⟨⟨hs, ht⟩, hw.directed he, hw.informed _ _ _ _ _ _ _ hlog⟩

/- Nothing but the wallbox, whose measured power follows at once. -/
def quiet : Surroundings Unit where
  ema _ value _ _ := value
  symbols := ⟨fun _ _ w => w⟩
  setThingProperties _ w := (w, [])

/- The last report says nothing of the status, the one before says that it charges. -/
theorem phases_run_charging :
    let cfg : ConfigRepository := ⟨fun _ _ => none⟩
    let surplus : SiteProperties := ⟨200, -2000, -2000, -2000, 3000⟩
    let first : WallboxReport := ⟨0, none, some #v[230, 230, 230], some defaultOffset, some 4⟩
    let second : WallboxReport := ⟨0, some 0, none, none, none⟩
    let w := ([.report first, .report second, .update [.wallbox [] 0] surplus].foldl (handle quiet)
      (start cfg none 0 #v[0, 0, 0] ())).world
    ∃ s t settings u earlier, w.log = .adjusted .Up surplus s t settings ::
        .asked .Up surplus u s true :: earlier ∧
      s.phases < t.phases ∧ s.Ready ∧ s.status = lastStatus earlier ∧
      lastStatus earlier = .charging := by
  intro cfg surplus first second w
  let s : WallboxStrategy := ⟨0, 0, #v[230, 230, 230], 0, .charging, 0, some 0, 1, 200, 414⟩
  let u : WallboxStrategy := { s with nextPhases := 0 }
  let t : WallboxStrategy := { s with phases := 1, current := some 8 }
  have hlog : w.log = [.adjusted .Up surplus s t ⟨1, 1, 0, some 8⟩, .asked .Up surplus s s true,
      .asked .Down surplus u s false, .reported second, .reported first] := by decide +kernel
  obtain ⟨-, ⟨hup, hready⟩, hstatus⟩ := (phases_run cfg none 0 #v[0, 0, 0] quiet ()
    [.report first, .report second, .update [.wallbox [] 0] surplus]).2 [] _ _ _ _ _ _ hlog
  exact ⟨s, t, _, s, _, hlog, hup, hready, hstatus, rfl⟩

/-! ### Off -/

/-- Every `adjust` of a run publishes a sound current exactly where the voltage and the
power it finds fit one. -/
theorem current_run (cfg : ConfigRepository) (offset : Option Offset) (lastMeasurementTs : ℤ)
    (voltages : Voltages) (env : Surroundings τ) (others : τ) (events : List (WallboxEvent τ)) :
    let w := (events.foldl (handle env) (start cfg offset lastMeasurementTs voltages others)).world
    ∀ k p s t settings, .adjusted k p s t settings ∈ w.log →
      (CurrentSound p t settings ↔ s.CurrentFits k p) := by
  intro w k p s t settings he
  have hw : w.Recorded := run_recorded cfg offset lastMeasurementTs voltages env others events
  obtain ⟨heq, -, -, -⟩ := hw.lawful _ he
  have hiff := adjust_sound_iff k p s
  rwa [← heq] at hiff

theorem current_run_charging :
    let cfg : ConfigRepository := ⟨fun _ _ => none⟩
    let surplus : SiteProperties := ⟨200, -2000, -2000, -2000, 3000⟩
    let w := ([.report ⟨0, none, some #v[230, 230, 230], some defaultOffset, some 4⟩,
      .update [.wallbox [] 0] surplus].foldl (handle quiet) (start cfg none 0 #v[0, 0, 0] ())).world
    ∃ s t settings, .adjusted .Up surplus s t settings ∈ w.log ∧ CurrentSound surplus t settings := by
  intro cfg surplus w
  let s : WallboxStrategy := ⟨0, 0, #v[230, 230, 230], 0, .charging, 0, some 0, 1, 200, 414⟩
  let t : WallboxStrategy := { s with phases := 1, current := some 8 }
  have he : .adjusted .Up surplus s t ⟨1, 1, 0, some 8⟩ ∈ w.log := by decide +kernel
  have hfits : s.CurrentFits .Up surplus := by
    intro voltage hv
    obtain rfl : 230 = voltage := Option.some.inj hv
    have hpower : s.shortTermAvailablePower surplus = 2000 := by decide +kernel
    rw [hpower]
    norm_num
  exact ⟨s, t, _, he, (current_run cfg none 0 #v[0, 0, 0] quiet () _ _ _ _ _ _ he).mpr hfits⟩

/- On one phase, first the short-term power turns to 4600 W of import, then the
voltages are reported as 0. -/
theorem not_current_run :
    let cfg : ConfigRepository := ⟨fun _ _ => none⟩
    let surplus : SiteProperties := ⟨200, -2000, -2000, -2000, 3000⟩
    let cloud : SiteProperties := ⟨201, 4600, -2000, 4600, 0⟩
    let w := ([.report ⟨0, none, some #v[230, 230, 230], some defaultOffset, some 4⟩,
      .update [.wallbox [] 0] surplus, .update [.wallbox [] 0] cloud,
      .report ⟨0, none, some #v[0, 0, 0], none, none⟩,
      .update [.wallbox [] 0] cloud].foldl (handle quiet) (start cfg none 0 #v[0, 0, 0] ())).world
    (∃ s t, .adjusted .Keep cloud s t ⟨1, 1, 0, some (-20)⟩ ∈ w.log ∧
      ¬ CurrentSound cloud t ⟨1, 1, 0, some (-20)⟩) ∧
    (∃ s t, .adjusted .Keep cloud s t ⟨1, 3, 0, none⟩ ∈ w.log ∧
      voltageOf t.voltages t.phases = some 0 ∧ ¬ CurrentSound cloud t ⟨1, 3, 0, none⟩) := by
  intro cfg surplus cloud w
  let s : WallboxStrategy := ⟨0, 0, #v[230, 230, 230], 0, .charging, 1, some 8, 1, 200, 414⟩
  let r : WallboxStrategy := ⟨0, 0, #v[0, 0, 0], 0, .charging, 1, some (-20), 3, 200, 414⟩
  refine ⟨⟨s, { s with current := some (-20) }, ?_, ?_⟩, r, { r with current := none }, ?_, rfl, ?_⟩
  · decide +kernel
  · intro ⟨current, hc, hnonneg, _⟩
    obtain rfl : -20 = current := Option.some.inj hc
    omega
  · decide +kernel
  · intro ⟨current, hc, _⟩
    cases hc

end WallboxRun
end Iotic.Strategies
