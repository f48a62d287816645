import Iotic.Lib.Runs
import Iotic.Webapp.CborDecoder
import Mathlib.Data.Rat.Defs
import Mathlib.Order.Basic

/-!
# The chart and its requests (webapp/lib/components/chart_controller.dart)

Every selection starts a load; its answer comes later, and answers of several
loads come in any order. A load counts the requests, so that an answer that is
no longer wanted can be told.
-/

namespace Iotic.Webapp

/-! ### The chart (chart_util.dart) -/

inductive Color
  | green | yellow | orange | blue
  deriving DecidableEq, Repr

structure LineChartBarData where
  spots : List FlSpot
  color : Color
  deriving DecidableEq, Repr

def lineData (points : List FlSpot) (color : Color) : LineChartBarData := ⟨points, color⟩

def zoomLevels : List (ℤ × ℕ) :=
  [(100, 2), (150, 3), (200, 2), (300, 3), (400, 2), (600, 3), (800, 2)]

/- The first level above `maxY`, over three decades. -/
def zoomLevel (maxY : ℤ) : ℤ × ℕ :=
  let levels := [0, 1, 2].flatMap fun i => zoomLevels.map fun l => (l.1 * 10 ^ i, l.2)
  (levels.find? fun l => maxY < l.1).getD (maxY, 5)

/- By their `y`. -/
def horizontalLines (zoom : ℤ × ℕ) : List ℚ :=
  (List.range zoom.2).map fun index => (zoom.1 : ℚ) / zoom.2 * (index + 1)

structure LineChartData where
  minX : ℤ
  maxX : ℤ
  maxY : ℤ
  lineBarsData : List LineChartBarData
  horizontalLines : List ℚ
  verticalLines : List ℚ
  deriving DecidableEq, Repr

def LineChartData.shown (chart : LineChartData) : List (List FlSpot) :=
  chart.lineBarsData.map LineChartBarData.spots

/-! ### The controller -/

structure Position where
  latitude : ℚ
  longitude : ℚ
  deriving DecidableEq, Repr

structure ChartController where
  chartData : LineChartData
  isLoading : Bool
  requestCounter : ℕ
  position : Option Position
  lastDate : ℤ
  deriving DecidableEq, Repr

/- `reduce` throws on an empty list, which is tested before. -/
def reduce (f : ℤ → ℤ → ℤ) : List ℤ → ℤ
  | [] => 0
  | x :: xs => xs.foldl f x

namespace ChartController

/- `noonToX` is computed by the package solar_calculator. Nothing is assigned
where a list has no color. -/
def updatePoints (noonToX : ℤ → Position → ℚ) (newPoints : List (List FlSpot))
    (newColors : List Color) (s : ChartController) : Except DartException ChartController := do
  let allSpots := newPoints.flatten
  let minX := reduce (fun a b => if a < b then a else b) (allSpots.map FlSpot.x)
  let maxX := reduce (fun a b => if a > b then a else b) (allSpots.map FlSpot.x)
  let maxY := reduce (fun a b => if a > b then a else b) (allSpots.map FlSpot.y)
  let zoom := zoomLevel maxY
  let lineBarsData ← (List.range newPoints.length).mapM fun i => do
    let points ← index newPoints i
    let color ← index newColors i
    .ok (lineData points color)
  .ok { s with
    chartData := {
      minX := minX.tdiv 288 * 288
      maxX := (maxX.tdiv 288 + 1) * 288
      maxY := zoom.1
      lineBarsData := lineBarsData
      horizontalLines := horizontalLines zoom
      verticalLines := s.position.toList.map (noonToX s.lastDate) } }

def colorsFor (thingId : String) : List Color :=
  if thingId = "site" then [.green, .yellow, .orange] else [.green, .blue, .orange]

/- `loadData` up to its `await`. -/
def beginLoad (date : ℤ) (s : ChartController) : ChartController :=
  { s with lastDate := date, requestCounter := s.requestCounter + 1, isLoading := true }

/- `loadData` from its `await` on; nothing was fetched where the fetch has thrown.
Whatever is thrown is caught, and the chart emptied. -/
def endLoad (noonToX : ℤ → Position → ℚ) (thingId : String) (currentRequest : ℕ)
    (fetched : Option (List (List FlSpot))) (s : ChartController) : ChartController :=
  let tried := fetched.bind fun data =>
    if currentRequest ≠ s.requestCounter then some s
    else (s.updatePoints noonToX data (colorsFor thingId)).toOption
  let s := match tried with
    | some s' => s'
    | none => (s.updatePoints noonToX [] []).toOption.getD s
  -- finally
  if currentRequest = s.requestCounter then { s with isLoading := false } else s

/-! ### What an answer does to the chart -/

theorem mapM_index_error {A : Type} (f : ℕ → Except DartException A) (l : List ℕ)
    (h : ∃ i ∈ l, ∃ e, f i = .error e) : ∃ e, l.mapM f = .error e := by
  induction l with
  | nil =>
    obtain ⟨i, hi, _⟩ := h
    cases hi
  | cons j l ih =>
    rw [List.mapM_cons]
    cases hj : f j with
    | error e => exact ⟨e, rfl⟩
    | ok a =>
      obtain ⟨i, hi, e, he⟩ := h
      rcases List.mem_cons.mp hi with rfl | hi
      · rw [hj] at he
        cases he
      · obtain ⟨e', he'⟩ := ih ⟨i, hi, e, he⟩
        exact ⟨e', by rw [he']; rfl⟩

/- With a color for each list the chart shows the lists, and nothing else changes. -/
theorem updatePoints_ok (noonToX : ℤ → Position → ℚ) (newPoints : List (List FlSpot))
    (newColors : List Color) (s : ChartController) (h : newPoints.length ≤ newColors.length) :
    ∃ chart, s.updatePoints noonToX newPoints newColors = .ok { s with chartData := chart } ∧
      chart.shown = newPoints := by
  have hline : ∀ i ∈ List.range newPoints.length, (do
      let points ← index newPoints i
      let color ← index newColors i
      Except.ok (lineData points color) : Except DartException LineChartBarData) =
      pure (lineData (newPoints.getD i []) (newColors.getD i .green)) := by
    intro i hi
    have hp : i < newPoints.length := List.mem_range.mp hi
    have hc : i < newColors.length := hp.trans_le h
    simp only [index, List.getElem?_eq_getElem hp, List.getElem?_eq_getElem hc,
      List.getD_eq_getElem?_getD, Option.getD_some]
    rfl
  refine ⟨_, by rw [updatePoints, Sequences.mapM_eq_pure hline]; rfl, ?_⟩
  refine List.ext_getElem (by simp [LineChartData.shown]) fun i hi hi' => ?_
  simp [LineChartData.shown, lineData, List.getElem?_eq_getElem hi']

/- A list without a color is an error, and nothing has been assigned. -/
theorem updatePoints_error (noonToX : ℤ → Position → ℚ) (newPoints : List (List FlSpot))
    (newColors : List Color) (s : ChartController) (h : newColors.length < newPoints.length) :
    ∃ e, s.updatePoints noonToX newPoints newColors = .error e := by
  have hline := mapM_index_error (fun i => do
      let points ← index newPoints i
      let color ← index newColors i
      Except.ok (lineData points color)) (List.range newPoints.length)
    ⟨newColors.length, List.mem_range.mpr h, .rangeError, by
      simp only [index, List.getElem?_eq_getElem h, List.getElem?_eq_none le_rfl]
      rfl⟩
  obtain ⟨e, he⟩ := hline
  exact ⟨e, by rw [updatePoints, he]; rfl⟩

theorem length_colorsFor (thingId : String) : (colorsFor thingId).length = 3 := by
  unfold colorsFor
  split_ifs <;> rfl

/- The lists the chart shows after an answer. -/
def shownAfter (currentRequest : ℕ) (fetched : Option (List (List FlSpot)))
    (s : ChartController) : List (List FlSpot) :=
  match fetched with
  | none => []
  | some data =>
    if currentRequest ≠ s.requestCounter then s.chartData.shown
    else if data.length ≤ 3 then data else []

theorem endLoad_spec (noonToX : ℤ → Position → ℚ) (thingId : String) (currentRequest : ℕ)
    (fetched : Option (List (List FlSpot))) (s : ChartController) :
    ∃ chart loading, s.endLoad noonToX thingId currentRequest fetched =
      { s with chartData := chart, isLoading := loading } ∧
      chart.shown = shownAfter currentRequest fetched s := by
  -- what is left when `finally` is reached
  have htried : ∃ chart, (match fetched.bind fun data =>
      if currentRequest ≠ s.requestCounter then some s
      else (s.updatePoints noonToX data (colorsFor thingId)).toOption with
      | some s' => s'
      | none => (s.updatePoints noonToX [] []).toOption.getD s) = { s with chartData := chart } ∧
      chart.shown = shownAfter currentRequest fetched s := by
    obtain ⟨empty, hempty, hshown⟩ := updatePoints_ok noonToX [] [] s le_rfl
    cases fetched with
    | none => exact ⟨empty, by simp only [Option.bind_none, hempty]; rfl, hshown⟩
    | some data =>
      simp only [Option.bind_some, shownAfter]
      by_cases hcur : currentRequest ≠ s.requestCounter
      · simp only [if_pos hcur]
        exact ⟨s.chartData, rfl, rfl⟩
      · simp only [if_neg hcur]
        by_cases hlen : data.length ≤ 3
        · obtain ⟨chart, hok, hd⟩ := updatePoints_ok noonToX data (colorsFor thingId) s
            (by rw [length_colorsFor]; exact hlen)
          simp only [hok, if_pos hlen]
          exact ⟨chart, rfl, hd⟩
        · obtain ⟨e, he⟩ := updatePoints_error noonToX data (colorsFor thingId) s
            (by rw [length_colorsFor]; omega)
          simp only [he, hempty, if_neg hlen]
          exact ⟨empty, rfl, hshown⟩
  obtain ⟨chart, hchart, hshown⟩ := htried
  unfold endLoad
  dsimp only
  rw [hchart]
  split_ifs
  · exact ⟨chart, false, rfl, hshown⟩
  · exact ⟨chart, s.isLoading, rfl, hshown⟩

end ChartController

/-! ### Loads that overlap -/

/- A load, from its start on. -/
structure Load where
  thingId : String
  currentRequest : ℕ
  running : Bool
  deriving DecidableEq, Repr

/- The page with the loads it has started, oldest first, and what the newest of
them has fetched, once it has. -/
structure Page where
  controller : ChartController
  loads : List Load
  latest : Option (List (List FlSpot))
  deriving DecidableEq, Repr

/- A load is named by its place among the loads; the position is found at any time. -/
inductive PageEvent
  | load (thingId : String) (date : ℤ)
  | completed (load : ℕ) (data : List (List FlSpot))
  | failed (load : ℕ)
  | located (position : Option Position)
  deriving DecidableEq, Repr

namespace Page

def start (chartData : LineChartData) (date : ℤ) : Page :=
  ⟨⟨chartData, false, 0, none, date⟩, [], none⟩

def finish (noonToX : ℤ → Position → ℚ) (k : ℕ) (l : Load)
    (fetched : Option (List (List FlSpot))) (q : Page) : Page :=
  { q with
    controller := q.controller.endLoad noonToX l.thingId l.currentRequest fetched
    loads := q.loads.set k { l with running := false } }

/- A load ends once. -/
def step (noonToX : ℤ → Position → ℚ) (q : Page) : PageEvent → Option Page
  | .load thingId date =>
    let controller := q.controller.beginLoad date
    some ⟨controller, q.loads ++ [⟨thingId, controller.requestCounter, true⟩], none⟩
  | .completed k data =>
    match q.loads[k]? with
    | some l =>
      if l.running then some { q.finish noonToX k l (some data) with
        latest := if k + 1 = q.loads.length then some data else q.latest }
      else none
    | none => none
  | .failed k =>
    match q.loads[k]? with
    | some l => if l.running then some (q.finish noonToX k l none) else none
    | none => none
  | .located position => some { q with controller := { q.controller with position := position } }

/- What the newest load has fetched is what the chart shows. -/
def ShowsLatest (q : Page) : Prop := ∀ data ∈ q.latest, q.controller.chartData.shown = data

/- The condition on an event: the newest load fetches no more lists than there are
colors, and an older one does not fail once the newest has fetched some list. -/
def Calm (q : Page) : PageEvent → Prop
  | .completed k data => k + 1 = q.loads.length → data.length ≤ 3
  | .failed k => k + 1 ≠ q.loads.length → ∀ data ∈ q.latest, data = []
  | _ => True

/- Each load knows the number it was started with, and while the newest runs it
has fetched nothing. -/
structure Numbered (q : Page) : Prop where
  counter : q.controller.requestCounter = q.loads.length
  requests : ∀ k l, q.loads[k]? = some l → l.currentRequest = k + 1
  newest : ∀ k l, q.loads[k]? = some l → l.running = true → k + 1 = q.loads.length → q.latest = none

theorem start_numbered (chartData : LineChartData) (date : ℤ) : (start chartData date).Numbered where
  counter := rfl
  requests := fun k l h => by simp [start] at h
  newest := fun k l h => by simp [start] at h

theorem step_completed {noonToX : ℤ → Position → ℚ} {q q' : Page} {k : ℕ} {data : List (List FlSpot)}
    (hs : q.step noonToX (.completed k data) = some q') :
    ∃ l, q.loads[k]? = some l ∧ l.running = true ∧
      q' = { q.finish noonToX k l (some data) with
        latest := if k + 1 = q.loads.length then some data else q.latest } := by
  simp only [step] at hs
  cases hl : q.loads[k]? with
  | none => simp only [hl] at hs; cases hs
  | some l =>
    simp only [hl] at hs
    cases hrun : l.running with
    | false => simp only [hrun] at hs; cases hs
    | true =>
      simp only [hrun, if_true] at hs
      exact ⟨l, rfl, hrun, (Option.some.inj hs).symm⟩

theorem step_failed {noonToX : ℤ → Position → ℚ} {q q' : Page} {k : ℕ}
    (hs : q.step noonToX (.failed k) = some q') :
    ∃ l, q.loads[k]? = some l ∧ l.running = true ∧ q' = q.finish noonToX k l none := by
  simp only [step] at hs
  cases hl : q.loads[k]? with
  | none => simp only [hl] at hs; cases hs
  | some l =>
    simp only [hl] at hs
    split_ifs at hs with hrun
    exact ⟨l, rfl, hrun, (Option.some.inj hs).symm⟩

/- The end of a load: the loads stay, but for this one, which runs no more. -/
theorem finish_numbered (noonToX : ℤ → Position → ℚ) {q : Page} {k : ℕ} {l : Load}
    (fetched latest : Option (List (List FlSpot)))
    (h : q.Numbered) (hl : q.loads[k]? = some l)
    (hlatest : k + 1 ≠ q.loads.length → latest = q.latest) :
    ({ q.finish noonToX k l fetched with latest := latest } : Page).Numbered := by
  have hk : k < q.loads.length := (List.getElem?_eq_some_iff.mp hl).1
  have hget : ∀ j l', (q.loads.set k { l with running := false })[j]? = some l' →
      (j = k ∧ l' = { l with running := false }) ∨ (j ≠ k ∧ q.loads[j]? = some l') := by
    intro j l' hj
    rw [List.getElem?_set] at hj
    by_cases hjk : k = j
    · subst hjk
      rw [if_pos rfl, if_pos hk] at hj
      exact Or.inl ⟨rfl, (Option.some.inj hj).symm⟩
    · rw [if_neg hjk] at hj
      exact Or.inr ⟨Ne.symm hjk, hj⟩
  obtain ⟨chart, loading, hend, -⟩ :=
    ChartController.endLoad_spec noonToX l.thingId l.currentRequest fetched q.controller
  unfold finish
  rw [hend]
  refine ⟨?_, fun j l' hj => ?_, fun j l' hj hrun hlast => ?_⟩
  · rw [List.length_set]
    exact h.counter
  · rcases hget j l' hj with ⟨rfl, rfl⟩ | ⟨-, hj⟩
    · exact h.requests j l hl
    · exact h.requests j l' hj
  · rw [List.length_set] at hlast
    rcases hget j l' hj with ⟨rfl, rfl⟩ | ⟨hjk, hj⟩
    · cases hrun
    · have hne : k + 1 ≠ q.loads.length := by omega
      exact (hlatest hne).trans (h.newest j l' hj hrun hlast)

theorem step_numbered (noonToX : ℤ → Position → ℚ) (q : Page) (e : PageEvent) (q' : Page)
    (h : q.Numbered) (hs : q.step noonToX e = some q') : q'.Numbered := by
  cases e with
  | load thingId date =>
    obtain rfl := Option.some.inj hs
    refine ⟨?_, fun k l hk => ?_, fun _ _ _ _ _ => rfl⟩
    · simp only [ChartController.beginLoad, h.counter, List.length_append, List.length_singleton]
    · rw [List.getElem?_append] at hk
      split_ifs at hk with hlt
      · exact h.requests k l hk
      · have hk0 : k - q.loads.length = 0 := by
          have := (List.getElem?_eq_some_iff.mp hk).1
          simp only [List.length_singleton] at this
          omega
        rw [hk0] at hk
        obtain rfl := Option.some.inj hk
        simp only [ChartController.beginLoad, h.counter]
        omega
  | completed k data =>
    obtain ⟨l, hl, -, rfl⟩ := step_completed hs
    exact finish_numbered noonToX (some data) _ h hl fun hne => if_neg hne
  | failed k =>
    obtain ⟨l, hl, -, rfl⟩ := step_failed hs
    exact finish_numbered noonToX none q.latest h hl fun _ => rfl
  | located position =>
    obtain rfl := Option.some.inj hs
    exact ⟨h.counter, h.requests, h.newest⟩

/- What the end of a load leaves on the chart. -/
theorem finish_shown (noonToX : ℤ → Position → ℚ) {q : Page} {k : ℕ} {l : Load}
    (fetched : Option (List (List FlSpot))) (h : q.Numbered) (hl : q.loads[k]? = some l) :
    (q.finish noonToX k l fetched).controller.chartData.shown =
      match fetched with
      | none => []
      | some data =>
        if k + 1 ≠ q.loads.length then q.controller.chartData.shown
        else if data.length ≤ 3 then data else [] := by
  obtain ⟨chart, loading, hend, hshown⟩ :=
    ChartController.endLoad_spec noonToX l.thingId l.currentRequest fetched q.controller
  unfold finish
  rw [hend]
  dsimp only
  rw [hshown]
  unfold ChartController.shownAfter
  rw [h.requests k l hl, h.counter]

theorem step_showsLatest (noonToX : ℤ → Position → ℚ) (q : Page) (e : PageEvent) (q' : Page)
    (h : q.Numbered) (hq : q.ShowsLatest) (hs : q.step noonToX e = some q') :
    q'.ShowsLatest ↔ q.Calm e := by
  cases e with
  | load thingId date =>
    obtain rfl := Option.some.inj hs
    exact ⟨fun _ => trivial, fun _ _ hd => (nomatch hd)⟩
  | completed k data =>
    obtain ⟨l, hl, -, rfl⟩ := step_completed hs
    have hshown := finish_shown noonToX (some data) h hl
    dsimp only at hshown
    simp only [ShowsLatest, Calm, hshown]
    by_cases hk : k + 1 = q.loads.length
    · -- the newest: what it has fetched is shown where it has at most three lists
      rw [if_pos hk, if_neg (not_not.mpr hk)]
      by_cases hlen : data.length ≤ 3
      · rw [if_pos hlen]
        exact ⟨fun _ _ => hlen, fun _ d hd => Option.some.inj hd⟩
      · rw [if_neg hlen]
        refine ⟨fun hd => absurd (hd data rfl) ?_, fun hle => absurd (hle hk) hlen⟩
        rintro rfl
        exact hlen (Nat.zero_le 3)
    · -- an older one: it is told by its number
      rw [if_neg hk, if_pos hk]
      exact ⟨fun _ hk' => absurd hk' hk, fun _ => hq⟩
  | failed k =>
    obtain ⟨l, hl, hrun, rfl⟩ := step_failed hs
    have hshown := finish_shown noonToX none h hl
    dsimp only at hshown
    have hlatest : (q.finish noonToX k l none).latest = q.latest := rfl
    simp only [ShowsLatest, Calm, hshown, hlatest]
    constructor
    · exact fun hd _ data hdata => (hd data hdata).symm
    · intro hcalm data hdata
      by_cases hk : k + 1 = q.loads.length
      · rw [h.newest k l hl hrun hk] at hdata
        cases hdata
      · exact (hcalm hk data hdata).symm
  | located position =>
    obtain rfl := Option.some.inj hs
    exact ⟨fun _ => trivial, fun _ => hq⟩

/-- Whatever loads overlap in whatever order they end: the chart shows what the
newest load has fetched in every state of the run, if and only if every event of
the run is calm. -/
theorem shows_latest_iff (noonToX : ℤ → Position → ℚ) (chartData : LineChartData) (date : ℤ)
    (events : List PageEvent) (q : Page)
    (h : Runs.exec (step noonToX) (start chartData date) events = some q) :
    (∀ pre post q, events = pre ++ post →
      Runs.exec (step noonToX) (start chartData date) pre = some q → q.ShowsLatest) ↔
    ∀ pre e post q, events = pre ++ e :: post →
      Runs.exec (step noonToX) (start chartData date) pre = some q → q.Calm e :=
  Runs.exec_always_iff (step_numbered noonToX) (step_showsLatest noonToX) h
    (start_numbered chartData date) fun _ hd => (nomatch hd)

/- Two loads of which the older one ends last, with data. -/
theorem shows_latest_overlapping :
    let noonToX : ℤ → Position → ℚ := fun _ _ => 144
    let empty : LineChartData := ⟨0, 288, 0, [], [], []⟩
    let events : List PageEvent := [.load "site" 20000, .load "inverter" 20000,
      .completed 1 [[⟨0, 50⟩]], .completed 0 [[], [], []]]
    (∀ pre post q, events = pre ++ post →
      Runs.exec (step noonToX) (start empty 20000) pre = some q → q.ShowsLatest) ↔
    ∀ pre e post q, events = pre ++ e :: post →
      Runs.exec (step noonToX) (start empty 20000) pre = some q → q.Calm e := by
  intro noonToX empty events
  obtain ⟨q, hq⟩ := Option.isSome_iff_exists.mp
    (show (Runs.exec (step noonToX) (start empty 20000) events).isSome = true by decide +kernel)
  exact shows_latest_iff noonToX empty 20000 events q hq

/- The same two loads, but the older one fails last: the chart is empty. -/
theorem not_shows_latest :
    let noonToX : ℤ → Position → ℚ := fun _ _ => 144
    let empty : LineChartData := ⟨0, 288, 0, [], [], []⟩
    ∃ q, Runs.exec (step noonToX) (start empty 20000) [.load "site" 20000,
      .load "inverter" 20000, .completed 1 [[⟨0, 50⟩]], .failed 0] = some q ∧
      q.latest = some [[⟨0, 50⟩]] ∧ q.controller.chartData.shown = [] ∧ ¬ q.ShowsLatest := by
  refine ⟨⟨⟨⟨0, 288, 100, [], [50, 100], []⟩, false, 2, none, 20000⟩,
    [⟨"site", 1, false⟩, ⟨"inverter", 2, false⟩], some [[⟨0, 50⟩]]⟩, ?_, rfl, rfl, ?_⟩
  · decide +kernel
  · intro h
    cases h [[⟨0, 50⟩]] rfl

end Page
end Iotic.Webapp
