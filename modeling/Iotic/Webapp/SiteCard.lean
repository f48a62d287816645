import Iotic.Webapp.ChartController
import Iotic.Webapp.SiteRepository
import Iotic.Webapp.SiteService
import Mathlib.Algebra.Order.Floor.Ring
import Mathlib.Data.Rat.Floor
import Mathlib.Tactic.Linarith

/-!
# The card of the site (site_service.dart, site_card_controller.dart)

The service keeps the points of three lines: panels, grid and site. It takes what the
web socket assigns, and puts a point of its own in front where it asks for older ones.
The controller has the range of time that is shown. Doubles are rational; those of points
are whole. `none` is a thrown exception.
-/

namespace Iotic.Webapp
open ByteString Iotic.Webserver SiteService

/-! ### The points (SiteService) -/

structure SitePoints where
  pvPoints : List FlSpot := []
  gridPoints : List FlSpot := []
  sitePoints : List FlSpot := []
  deriving DecidableEq, Repr

/- The loop over the timestamps reads a power for each. -/
def spots (ts powers : List ℤ) : Option (List FlSpot) :=
  if ts.length ≤ powers.length then some (List.zipWith FlSpot.mk ts powers) else none

namespace SitePoints

def onSiteDataHistoric (lowerBound : LowerBound FlSpot) (p0 : SiteDataHistoric) (s : SitePoints) :
    Option SitePoints := do
  let pv ← spots p0.ts p0.pvPower
  let grid ← spots p0.ts p0.gridPower
  let site ← spots p0.ts (List.zipWith (fun pv grid => pv + grid) p0.pvPower p0.gridPower)
  let pvPoints ← add FlSpot.x lowerBound s.pvPoints pv
  let gridPoints ← add FlSpot.x lowerBound s.gridPoints grid
  let sitePoints ← add FlSpot.x lowerBound s.sitePoints site
  some ⟨pvPoints, gridPoints, sitePoints⟩

def onSiteDataLive (p0 : SiteDataLive) (s : SitePoints) : SitePoints where
  pvPoints := s.pvPoints ++ [⟨p0.ts, p0.pvPower⟩]
  gridPoints := s.gridPoints ++ [⟨p0.ts, p0.gridPower⟩]
  sitePoints := s.sitePoints ++ [⟨p0.ts, -p0.sitePower⟩]

/- What is kept of `requestSiteDataHistoric`: a point of zero in front. -/
def requestSiteDataHistoric (fromTs : ℤ) (s : SitePoints) : SitePoints where
  pvPoints := ⟨fromTs, 0⟩ :: s.pvPoints
  gridPoints := ⟨fromTs, 0⟩ :: s.gridPoints
  sitePoints := ⟨fromTs, 0⟩ :: s.sitePoints

end SitePoints

/-! ### The range shown (SiteCardController) -/

/- Towards zero. -/
def toInt (x : ℚ) : ℤ := if 0 ≤ x then ⌊x⌋ else ⌈x⌉

/- The greatest `y` from position `i` to before `j`. -/
def maxOfRange (points : List FlSpot) (i j : ℕ) : Option ℤ :=
  if j ≤ points.length then
    some (reduce (fun curr next => if curr > next then curr else next)
      (((points.take j).drop i).map FlSpot.y))
  else none

structure SiteCardController where
  service : SitePoints := {}
  minX : ℚ := 0
  maxX : ℚ := 0
  isFollowing : Bool := true
  deriving DecidableEq, Repr

namespace SiteCardController

def update (c : SiteCardController) : SiteCardController :=
  match c.isFollowing, c.service.pvPoints.getLast? with
  | true, some last => { c with minX := last.x - 120, maxX := last.x }
  | _, _ => c

/- Without points there is no first and no last one. Returned with the range asked for. -/
def drag (dx : ℚ) (c : SiteCardController) : Option (Option (ℤ × ℤ) × SiteCardController) := do
  let minX := c.minX + dx
  let maxX := c.maxX + dx
  let last ← c.service.pvPoints.getLast?
  let first ← c.service.pvPoints.head?
  let isFollowing := decide ((last.x : ℚ) ≤ maxX)
  if minX < first.x then
    let fromTs := toInt minX - 120
    let service := c.service.requestSiteDataHistoric fromTs
    some (some (fromTs, first.x), update ⟨service, minX, maxX, isFollowing⟩)
  else some (none, update ⟨c.service, minX, maxX, isFollowing⟩)

/- Where no point is in the range it is an `x` that is returned. -/
def maxY (lowerBound : LowerBound ℚ) (c : SiteCardController) : Option ℤ :=
  let i := lowerBound (c.service.pvPoints.map fun e => (e.x : ℚ)) c.minX (compareFirst id)
  let j := lowerBound (c.service.pvPoints.map fun e => (e.x : ℚ)) c.maxX (compareLast id)
  if i < j then do
    let pv ← maxOfRange c.service.pvPoints i j
    let site ← maxOfRange c.service.sitePoints i j
    some (max pv site)
  else do
    let pv ← c.service.pvPoints[i]?
    let site ← c.service.sitePoints[i]?
    some (max pv.x site.x)

def zoomLevel_ (lowerBound : LowerBound ℚ) (c : SiteCardController) : Option (ℤ × ℕ) :=
  (c.maxY lowerBound).map zoomLevel

end SiteCardController

/-! ### One list for the three -/

/- A reading with its two powers; the third line is their sum. -/
structure Sample where
  x : ℤ
  pv : ℤ
  grid : ℤ
  deriving DecidableEq, Repr

def SitePoints.ofSamples (samples : List Sample) : SitePoints where
  pvPoints := samples.map fun s => ⟨s.x, s.pv⟩
  gridPoints := samples.map fun s => ⟨s.x, s.grid⟩
  sitePoints := samples.map fun s => ⟨s.x, s.pv + s.grid⟩

def historicOf (samples : List Sample) : SiteDataHistoric :=
  ⟨samples.map Sample.x, samples.map Sample.pv, samples.map Sample.grid⟩

/- The old samples that stay around the new ones. -/
def merge (newList oldList : List Sample) : List Sample :=
  match newList.head?, newList.getLast? with
  | some first, some last => before Sample.x first oldList ++ newList ++ behind Sample.x last oldList
  | _, _ => oldList

theorem merge_eq {newList : List Sample} (hne : newList ≠ []) (oldList : List Sample) :
    merge newList oldList = before Sample.x (newList.head hne) oldList ++ newList ++
      behind Sample.x (newList.getLast hne) oldList := by
  rw [merge, List.head?_eq_some_head hne, List.getLast?_eq_some_getLast hne]

section Lines
variable {lowerBound : LowerBound FlSpot} {oldList newList : List Sample}

theorem sorted_map {f : Sample → FlSpot} (hf : ∀ s, (f s).x = s.x) {samples : List Sample} :
    Sorted FlSpot.x (samples.map f) ↔ Sorted Sample.x samples := by
  unfold Sorted
  rw [List.pairwise_map]
  simp only [hf]

/- A line is merged as its samples are. -/
theorem add_map (hlower : lowerBound.Faithful) (hold : Sorted Sample.x oldList)
    (hnew : Sorted Sample.x newList) {f : Sample → FlSpot} (hf : ∀ s, (f s).x = s.x) :
    add FlSpot.x lowerBound (oldList.map f) (newList.map f) = some ((merge newList oldList).map f) := by
  by_cases hne : newList = []
  · subst hne
    rfl
  · have hne' : newList.map f ≠ [] := List.map_eq_nil_iff.not.mpr hne
    obtain ⟨points, hadd, -, hpoints⟩ := add_eq FlSpot.x hlower ((sorted_map hf).mpr hold)
      ((sorted_map hf).mpr hnew) hne'
    have hbefore : before FlSpot.x ((newList.map f).head hne') (oldList.map f) =
        (before Sample.x (newList.head hne) oldList).map f := by
      unfold before
      rw [List.filter_map, List.head_map]
      simp only [Function.comp_def, hf]
    have hbehind : behind FlSpot.x ((newList.map f).getLast hne') (oldList.map f) =
        (behind Sample.x (newList.getLast hne) oldList).map f := by
      unfold behind
      rw [List.filter_map, List.getLast_map]
      simp only [Function.comp_def, hf]
    rw [hadd, hpoints, hbefore, hbehind, merge_eq hne, List.map_append, List.map_append]

theorem spots_map (samples : List Sample) (power : Sample → ℤ) :
    spots (samples.map Sample.x) (samples.map power) =
      some (samples.map fun s => ⟨s.x, power s⟩) := by
  rw [spots, if_pos (by rw [List.length_map, List.length_map]), List.zipWith_map,
    List.zipWith_self]

theorem onSiteDataHistoric_ofSamples (hlower : lowerBound.Faithful)
    (hold : Sorted Sample.x oldList) (hnew : Sorted Sample.x newList) :
    (SitePoints.ofSamples oldList).onSiteDataHistoric lowerBound (historicOf newList) =
      some (.ofSamples (merge newList oldList)) := by
  have hsum : List.zipWith (fun pv grid => pv + grid) (newList.map Sample.pv)
      (newList.map Sample.grid) = newList.map fun s => s.pv + s.grid := by
    rw [List.zipWith_map, List.zipWith_self]
  unfold SitePoints.onSiteDataHistoric historicOf SitePoints.ofSamples
  rw [hsum]
  simp only [spots_map, Option.bind_eq_bind, Option.bind_some]
  rw [add_map hlower hold hnew (fun _ => rfl), add_map hlower hold hnew (fun _ => rfl),
    add_map hlower hold hnew (fun _ => rfl)]
  rfl

/- What either message is built with: the site takes what the panels and the grid give. -/
theorem onSiteDataLive_ofSamples (s : Sample) :
    (SitePoints.ofSamples oldList).onSiteDataLive ⟨s.x, s.pv, s.grid, -s.pv - s.grid⟩ =
      .ofSamples (oldList ++ [s]) := by
  have hsite : -(-s.pv - s.grid) = s.pv + s.grid := by omega
  unfold SitePoints.onSiteDataLive SitePoints.ofSamples
  simp only [List.map_append, List.map_cons, List.map_nil, hsite]

end Lines

/-! ### What the range shows -/

/- Two minutes, up to the last sample or to before it. -/
structure SiteCardController.Framed (c : SiteCardController) (samples : List Sample) : Prop where
  service : c.service = .ofSamples samples
  sorted : Sorted Sample.x samples
  start : samples = [] → c.isFollowing = true
  width : samples ≠ [] → c.maxX = c.minX + 120
  right : ∀ last ∈ samples.getLast?,
    if c.isFollowing then c.maxX = last.x else ∃ s ∈ samples, c.maxX < s.x

/- The chart is as high as anything on it of the panels and the site. -/
def SiteCardController.ShowsWhole (lowerBound : LowerBound ℚ) (c : SiteCardController) : Prop :=
  ∃ top lines, c.zoomLevel_ lowerBound = some (top, lines) ∧
    ∀ p ∈ c.service.pvPoints ++ c.service.sitePoints, c.minX ≤ p.x → (p.x : ℚ) ≤ c.maxX → p.y ≤ top

theorem le_zoomLevel (maxY : ℤ) : maxY ≤ (zoomLevel maxY).1 := by
  unfold zoomLevel
  dsimp only
  cases hlevel : ([0, 1, 2].flatMap fun i => zoomLevels.map fun l => (l.1 * 10 ^ i, l.2)).find?
      fun l => maxY < l.1 with
  | none => exact le_rfl
  | some level =>
    have hlt := List.find?_some hlevel
    exact (of_decide_eq_true hlt).le

/- The loop keeps the greater one. -/
theorem le_reduce {ys : List ℤ} {y : ℤ} (hy : y ∈ ys) :
    y ≤ reduce (fun curr next => if curr > next then curr else next) ys := by
  have hfold : ∀ (ys : List ℤ) (acc y : ℤ), y ≤ acc ∨ y ∈ ys →
      y ≤ ys.foldl (fun curr next => if curr > next then curr else next) acc := by
    intro ys
    induction ys with
    | nil =>
      intro acc y h
      exact h.resolve_right (by simp)
    | cons z ys ih =>
      intro acc y h
      refine ih _ y ?_
      rcases h with h | h
      · exact Or.inl (by dsimp only; split_ifs <;> omega)
      · rcases List.mem_cons.mp h with rfl | h
        · exact Or.inl (by dsimp only; split_ifs <;> omega)
        · exact Or.inr h
  cases ys with
  | nil => cases hy
  | cons z ys =>
    refine hfold ys z y ?_
    rcases List.mem_cons.mp hy with rfl | h
    · exact Or.inl le_rfl
    · exact Or.inr h

namespace SiteCardController
variable {c : SiteCardController} {samples : List Sample}

/- A listener that is called twice sets the same range. -/
theorem update_update (c : SiteCardController) : c.update.update = c.update := by
  cases hf : c.isFollowing with
  | false => simp only [update, hf]
  | true =>
    cases hl : c.service.pvPoints.getLast? with
    | none => simp only [update, hf, hl]
    | some last => simp only [update, hf, hl]

theorem getLast?_pvPoints (samples : List Sample) :
    (SitePoints.ofSamples samples).pvPoints.getLast? =
      samples.getLast?.map fun s => ⟨s.x, s.pv⟩ :=
  List.getLast?_map ..

/- One that follows is set to the last sample. -/
theorem update_framed (hservice : c.service = .ofSamples samples) (hsorted : Sorted Sample.x samples)
    (hstays : c.isFollowing = false → c.maxX = c.minX + 120 ∧ ∃ s ∈ samples, c.maxX < s.x) :
    c.update.Framed samples := by
  have hstart : samples = [] → c.isFollowing = true := by
    intro hnil
    by_contra hf
    obtain ⟨-, s, hs, -⟩ := hstays (Bool.eq_false_iff.mpr hf)
    rw [hnil] at hs
    cases hs
  have hlast := getLast?_pvPoints samples
  rw [← hservice] at hlast
  cases hf : c.isFollowing with
  | false =>
    have hsame : c.update = c := by simp only [update, hf]
    obtain ⟨hwidth, hright⟩ := hstays hf
    rw [hsame]
    exact ⟨hservice, hsorted, hstart, fun _ => hwidth, fun last _ => by rw [hf]; exact hright⟩
  | true =>
    cases hl : samples.getLast? with
    | none =>
      rw [hl] at hlast
      have hsame : c.update = c := by simp only [update, hf, hlast, Option.map_none]
      rw [hsame]
      refine ⟨hservice, hsorted, hstart, fun hne => absurd (List.getLast?_eq_none_iff.mp hl) hne, ?_⟩
      intro last hmem
      rw [hl] at hmem
      cases hmem
    | some last =>
      rw [hl] at hlast
      have hset : c.update = { c with minX := last.x - 120, maxX := last.x } := by
        simp only [update, hf, hlast, Option.map_some]
      rw [hset]
      refine ⟨hservice, hsorted, fun _ => hf, fun _ => by simp, ?_⟩
      intro last' hmem
      obtain rfl := Option.some.inj (hl.symm.trans hmem)
      simp only [hf, if_true]

/- Samples may come in as long as some are not before the old ones. -/
theorem Framed.arrive (h : c.Framed samples) {samples' : List Sample}
    (hsorted : Sorted Sample.x samples') (hlater : ∀ s ∈ samples, ∃ s' ∈ samples', s.x ≤ s'.x) :
    ({ c with service := .ofSamples samples' } : SiteCardController).update.update.Framed samples' := by
  rw [update_update]
  refine update_framed rfl hsorted fun hf => ?_
  have hf' : c.isFollowing = false := hf
  have hne : samples ≠ [] := by
    intro hnil
    rw [h.start hnil] at hf'
    cases hf'
  have hright := h.right _ (List.getLast?_eq_some_getLast hne)
  rw [hf', if_neg (by simp)] at hright
  obtain ⟨s, hs, hlt⟩ := hright
  obtain ⟨s', hs', hle⟩ := hlater s hs
  exact ⟨h.width hne, s', hs', hlt.trans_le (by exact_mod_cast hle)⟩

theorem toInt_sub_bounds {x : ℚ} {bound : ℤ} (hx : 120 ≤ x) (hlt : x < bound) :
    0 ≤ toInt x - 120 ∧ toInt x - 120 + 121 ≤ bound := by
  have hnonneg : 0 ≤ x := le_trans (by norm_num) hx
  have hlo : (120 : ℤ) ≤ ⌊x⌋ := Int.le_floor.mpr (by exact_mod_cast hx)
  have hhi : ⌊x⌋ < bound := Int.floor_lt.mpr hlt
  rw [toInt, if_pos hnonneg]
  omega

/- Dragged without a request, or with one in front of all samples. -/
theorem Framed.drag (h : c.Framed samples) {first : Sample} {rest : List Sample}
    (hsamples : samples = first :: rest) {dx : ℚ} (hdx : 120 ≤ c.minX + dx) :
    ∃ asked c', c.drag dx = some (asked, c') ∧
      (asked = none ∧ c'.Framed samples ∨ ∃ fromTs, asked = some (fromTs, first.x) ∧ 0 ≤ fromTs ∧
        fromTs + 121 ≤ first.x ∧ c'.Framed (⟨fromTs, 0, 0⟩ :: samples)) := by
  have hne : samples ≠ [] := by
    rw [hsamples]
    exact List.cons_ne_nil _ _
  have hlast : c.service.pvPoints.getLast? =
      some ⟨(samples.getLast hne).x, (samples.getLast hne).pv⟩ := by
    rw [h.service, getLast?_pvPoints, List.getLast?_eq_some_getLast hne]
    rfl
  have hfirst : c.service.pvPoints.head? = some ⟨first.x, first.pv⟩ := by
    rw [h.service, hsamples]
    rfl
  have hwidth := h.width hne
  have hstays : ∀ service, decide (((samples.getLast hne).x : ℚ) ≤ c.maxX + dx) = false →
      (⟨service, c.minX + dx, c.maxX + dx, false⟩ : SiteCardController).maxX =
        (⟨service, c.minX + dx, c.maxX + dx, false⟩ : SiteCardController).minX + 120 ∧
      c.maxX + dx < (samples.getLast hne).x := by
    intro service hf
    refine ⟨by show c.maxX + dx = c.minX + dx + 120; rw [hwidth]; ring, ?_⟩
    exact not_le.mp (of_decide_eq_false hf)
  unfold SiteCardController.drag
  rw [hlast, hfirst]
  simp only [Option.bind_eq_bind, Option.bind_some]
  split_ifs with hask
  · obtain ⟨hnonneg, hfrom⟩ := toInt_sub_bounds hdx hask
    refine ⟨_, _, rfl, Or.inr ⟨_, rfl, hnonneg, hfrom, update_framed ?_ ?_ ?_⟩⟩
    · rw [h.service]
      rfl
    · refine List.pairwise_cons.mpr ⟨fun s hs => ?_, h.sorted⟩
      show toInt (c.minX + dx) - 120 ≤ s.x
      rw [hsamples] at hs
      have hsorted := h.sorted
      rw [hsamples] at hsorted
      rcases List.mem_cons.mp hs with rfl | hs
      · omega
      · have hle := List.rel_of_pairwise_cons hsorted hs
        omega
    · intro hf
      obtain ⟨hw, hlt⟩ := hstays (c.service.requestSiteDataHistoric (toInt (c.minX + dx) - 120)) hf
      exact ⟨hw, _, List.mem_cons_of_mem _ (List.getLast_mem hne), hlt⟩
  · refine ⟨_, _, rfl, Or.inl ⟨rfl, update_framed h.service h.sorted ?_⟩⟩
    intro hf
    obtain ⟨hw, hlt⟩ := hstays c.service hf
    exact ⟨hw, _, List.getLast_mem hne, hlt⟩

/- Where a position is found, between the ends of the range. -/
theorem Framed.positions (h : c.Framed samples) {lowerBound : LowerBound ℚ}
    (hlower : lowerBound.Faithful) {k : ℕ} (hk : k < samples.length) :
    let xs := c.service.pvPoints.map fun e => (e.x : ℚ)
    (k < lowerBound xs c.minX (compareFirst id) ↔ (samples[k].x : ℚ) < c.minX) ∧
      (k < lowerBound xs c.maxX (compareLast id) ↔ (samples[k].x : ℚ) ≤ c.maxX) := by
  intro xs
  have hxs : xs = samples.map fun s => (s.x : ℚ) := by
    show c.service.pvPoints.map (fun e => (e.x : ℚ)) = _
    rw [h.service]
    exact List.map_map ..
  have hsorted : Sorted id xs := by
    rw [hxs]
    exact List.pairwise_map.mpr (h.sorted.imp fun {s t} hst => Int.cast_le.mpr hst)
  have hkx : k < xs.length := by
    rw [hxs, List.length_map]
    exact hk
  have hget : xs[k] = (samples[k].x : ℚ) := by simp only [hxs, List.getElem_map]
  have hfirst := sorted_compareFirst hsorted c.minX
  have hlast := sorted_compareLast hsorted c.maxX
  rw [hlower xs c.minX _ hfirst, hlower xs c.maxX _ hlast]
  refine ⟨?_, ?_⟩
  · rw [Sequences.lt_length_takeWhile_iff (by simpa using hfirst) hkx]
    simp [compareFirst_neg_iff, hget]
  · rw [Sequences.lt_length_takeWhile_iff (by simpa using hlast) hkx]
    simp [compareLast_neg_iff, hget]

theorem maxOfRange_eq {points : List FlSpot} {i j : ℕ} (hj : j ≤ points.length) :
    ∃ m, maxOfRange points i j = some m ∧
      ∀ k (hk : k < points.length), i ≤ k → k < j → points[k].y ≤ m := by
  refine ⟨_, if_pos hj, fun k hk hik hkj => le_reduce ?_⟩
  refine List.mem_map_of_mem (List.mem_of_getElem? (i := k - i) ?_)
  rw [List.getElem?_drop, List.getElem?_take, if_pos (by omega), show i + (k - i) = k by omega,
    List.getElem?_eq_getElem hk]

/-- Nothing is read outside the lists, and nothing on the chart is higher than it. -/
theorem Framed.showsWhole (h : c.Framed samples) (hne : samples ≠ []) {lowerBound : LowerBound ℚ}
    (hlower : lowerBound.Faithful) : c.ShowsWhole lowerBound := by
  have hpositions := fun {k} => h.positions hlower (k := k)
  have hzoom : ∀ m, c.maxY lowerBound = some m → c.zoomLevel_ lowerBound = some (zoomLevel m) :=
    fun m hm => by rw [zoomLevel_, hm, Option.map_some]
  unfold maxY at hzoom
  dsimp only at hpositions hzoom
  generalize hi : lowerBound (c.service.pvPoints.map fun e => (e.x : ℚ)) c.minX (compareFirst id) = i
    at hpositions hzoom
  generalize hj : lowerBound (c.service.pvPoints.map fun e => (e.x : ℚ)) c.maxX (compareLast id) = j
    at hpositions hzoom
  have hpv : c.service.pvPoints.length = samples.length := by
    rw [h.service]
    exact List.length_map _
  have hsite : c.service.sitePoints.length = samples.length := by
    rw [h.service]
    exact List.length_map _
  -- the last sample is not before the range
  have hlt : i < samples.length := by
    by_contra hge
    have hlastlt : samples.length - 1 < samples.length :=
      Nat.sub_lt (List.length_pos_iff.mpr hne) Nat.one_pos
    have hbefore := (hpositions hlastlt).1.mp (by omega)
    have hwidth := h.width hne
    have hright := h.right _ (List.getLast?_eq_some_getLast hne)
    rw [List.getLast_eq_getElem] at hright
    cases hf : c.isFollowing with
    | true =>
      rw [hf, if_pos rfl] at hright
      linarith
    | false =>
      rw [hf, if_neg (by simp)] at hright
      obtain ⟨s, hs, hs'⟩ := hright
      obtain ⟨k, hk, rfl⟩ := List.getElem_of_mem hs
      have hks := (hpositions hk).1.mp (by omega)
      linarith
  have hwindow : ∀ k (hk : k < samples.length), c.minX ≤ samples[k].x →
      (samples[k].x : ℚ) ≤ c.maxX → i ≤ k ∧ k < j := by
    intro k hk hlo hhi
    have hnot := mt (hpositions hk).1.mp (not_lt.mpr hlo)
    exact ⟨not_lt.mp hnot, (hpositions hk).2.mpr hhi⟩
  -- a point of either line is at the position of its sample
  have hpoint : ∀ (points : List FlSpot) (f : Sample → FlSpot), points = samples.map f →
      (∀ s, (f s).x = s.x) → ∀ p ∈ points, c.minX ≤ p.x → (p.x : ℚ) ≤ c.maxX →
      ∃ k, ∃ hk : k < points.length, points[k] = p ∧ i ≤ k ∧ k < j := by
    intro points f heq hf p hp hlo hhi
    obtain ⟨k, hk, rfl⟩ := List.getElem_of_mem hp
    have hk' : k < samples.length := by
      rw [heq, List.length_map] at hk
      exact hk
    have hx : points[k].x = samples[k].x := by
      simp only [heq, List.getElem_map, hf]
    rw [hx] at hlo hhi
    exact ⟨k, hk, rfl, hwindow k hk' hlo hhi⟩
  have hpvPoint := hpoint c.service.pvPoints _ (by rw [h.service]; rfl) fun _ => rfl
  have hsitePoint := hpoint c.service.sitePoints _ (by rw [h.service]; rfl) fun _ => rfl
  by_cases hij : i < j
  · have hjlength : j ≤ samples.length := by
      by_contra hge
      -- the search finds no more positions than there are points
      have hxs := (hlower (c.service.pvPoints.map fun e => (e.x : ℚ)) c.maxX (compareLast id)
        (sorted_compareLast (x := id) (by
          rw [h.service]
          refine List.pairwise_map.mpr (List.pairwise_map.mpr (h.sorted.imp fun {s t} hst => ?_))
          exact Int.cast_le.mpr hst) c.maxX))
      have hle := (List.takeWhile_prefix (fun s => decide (compareLast id s c.maxX < 0))
        (l := c.service.pvPoints.map fun e => (e.x : ℚ))).length_le
      rw [← hxs, hj, List.length_map, hpv] at hle
      exact hge hle
    obtain ⟨pv, hpvMax, hpvLe⟩ := maxOfRange_eq (i := i) (hjlength.trans_eq hpv.symm)
    obtain ⟨site, hsiteMax, hsiteLe⟩ := maxOfRange_eq (i := i) (hjlength.trans_eq hsite.symm)
    rw [if_pos hij, hpvMax, hsiteMax] at hzoom
    refine ⟨_, _, hzoom (max pv site) rfl, fun p hp hlo hhi => ?_⟩
    refine le_trans ?_ (le_zoomLevel _)
    rcases List.mem_append.mp hp with hp | hp
    · obtain ⟨k, hk, rfl, hik, hkj⟩ := hpvPoint p hp hlo hhi
      exact (hpvLe k hk hik hkj).trans (le_max_left _ _)
    · obtain ⟨k, hk, rfl, hik, hkj⟩ := hsitePoint p hp hlo hhi
      exact (hsiteLe k hk hik hkj).trans (le_max_right _ _)
  · have hnone : ∀ k, ¬ (i ≤ k ∧ k < j) := fun k hk => hij (hk.1.trans_lt hk.2)
    rw [if_neg hij, List.getElem?_eq_getElem (hlt.trans_eq hpv.symm),
      List.getElem?_eq_getElem (hlt.trans_eq hsite.symm)] at hzoom
    refine ⟨_, _, hzoom _ rfl, fun p hp hlo hhi => ?_⟩
    rcases List.mem_append.mp hp with hp | hp
    · obtain ⟨k, -, -, hk⟩ := hpvPoint p hp hlo hhi
      exact absurd hk (hnone k)
    · obtain ⟨k, -, -, hk⟩ := hsitePoint p hp hlo hhi
      exact absurd hk (hnone k)

end SiteCardController
end Iotic.Webapp
