import Iotic.Webapp.HttpService

/-!
# The chart of a past day (http_service.dart, WebServer.cpp, Database.cpp)

From the request of the web app to the spots it draws, over any run of the daemon's
database: a past day is answered with its archive, and its chart never changes.
-/

namespace Iotic.Webapp
open ByteString Cbor Iotic.Common Iotic.Database Iotic.Database.DatabasePrivate Iotic.Webserver

/-! ### The day asked for -/

/- The days of the archive lie in years of four digits. -/
theorem year_of_inRange {date : YearMonthDay} (hok : date.ok = true) (h : InRange date.sysDays) :
    0 ≤ date.year ∧ date.year < 10000 := by
  simp only [YearMonthDay.ok, Bool.and_eq_true, decide_eq_true_eq] at hok
  obtain ⟨⟨⟨hm1, hm12⟩, hd1⟩, hlast⟩ := hok
  have hd31 : date.day ≤ 31 := by
    refine hlast.trans ?_
    unfold YearMonthDay.lastDay
    split_ifs <;> omega
  obtain ⟨h0, h1⟩ := h
  unfold YearMonthDay.sysDays at h0 h1
  dsimp only at h0 h1
  split_ifs at h0 h1 <;> constructor <;> omega

/-! ### What is stored of a day -/

/- The entries of a day are those of the map that lie in it. -/
theorem scanDay_inDay {day : ℤ} (hd : InRange day) {map : Map} {raw : Dataset}
    (h : scanDay day map = some raw) :
    ∀ e ∈ raw.entries, day * 86400 ≤ (e.1.toNat : ℤ) ∧ (e.1.toNat : ℤ) < (day + 1) * 86400 := by
  have hkeys : ∀ (scan : List (UInt32 × Bytes)) (data raw : Dataset),
      scan.foldlM (fun data kv => (datapointOf kv.2).map fun value => data.put kv.1 value) data =
        some raw → ∀ e ∈ raw.entries, e ∈ data.entries ∨ ∃ kv ∈ scan, kv.1 = e.1 := by
    intro scan
    induction scan with
    | nil =>
      intro data raw hfold e he
      obtain rfl := Option.some.inj hfold
      exact Or.inl he
    | cons kv scan ih =>
      intro data raw hfold e he
      obtain ⟨data', hdata', hrest⟩ := Option.bind_eq_some_iff.mp hfold
      obtain ⟨value, -, rfl⟩ := Option.map_eq_some_iff.mp hdata'
      rcases ih _ _ hrest e he with he | ⟨kv', hkv', heq⟩
      · rcases SortedMap.mem_putEntry he with rfl | he
        · exact Or.inr ⟨kv, List.mem_cons_self, rfl⟩
        · exact Or.inl he
      · exact Or.inr ⟨kv', List.mem_cons_of_mem _ hkv', heq⟩
  intro e he
  have hscan : scanDay day map = (map.window (dayStart day) (dayEnd day)).entries.foldlM
      (fun data kv => (datapointOf kv.2).map fun value => data.put kv.1 value) SortedMap.empty := by
    rw [scanDay]
    rw [SortedMap.scan_eq_window]
  rw [hscan] at h
  rcases hkeys (map.window (dayStart day) (dayEnd day)).entries SortedMap.empty raw h e he with
    hnil | ⟨kv, hkv, heq⟩
  · cases hnil
  · obtain ⟨-, hlo, hhi⟩ := SortedMap.mem_window.mp hkv
    have hstart := toNat_dayStart hd
    have hend := toNat_dayEnd hd
    rw [heq] at hlo hhi
    have hlo' := UInt32.le_iff_toNat_le.mp hlo
    have hhi' := UInt32.lt_iff_toNat_lt.mp hhi
    omega

/- What an operation leaves of the raw data of a past day: all. -/
theorem step_scanDay {lib : CborLibrary} {width : Name → ThingPropertyKey → ℕ} {s s' : Session}
    {op : Operation} (h : s.Inv lib width) (hs : s.step lib width op s') (t : Name)
    (k : ThingPropertyKey) {day : ℤ} (hd : InRange day) (hpast : day < s.now / 86400) :
    scanDay day (s'.db.stored t k 0) = scanDay day (s.db.stored t k 0) := by
  obtain ⟨-, happly⟩ := hs
  cases op with
  | advance now =>
    obtain rfl := Option.some.inj happly
    rfl
  | putDatapoint t' k' dp =>
    obtain rfl := Option.some.inj happly
    dsimp only
    by_cases hsame : s.db.lastValues t' k' = dp
    · rw [putDatapoint_of_eq _ hsame]
    · obtain ⟨-, -, hstored⟩ := putDatapoint_of_ne h.coherent (UInt32.ofInt s.now) hsame
      rw [hstored]
      split_ifs with hthis
      · obtain ⟨rfl, rfl, -⟩ := hthis
        exact scanDay_put_of_notMem _ _ (now_notMem_pastDay h.now_nonneg h.now_lt hd hpast)
      · rfl
  | archivedData t' k' day' r =>
    obtain ⟨⟨data, db⟩, hdata, rfl⟩ := Option.map_eq_some_iff.mp happly
    dsimp only
    rw [(archivedData_spared h.coherent hdata).2]

theorem step_now {lib : CborLibrary} {width : Name → ThingPropertyKey → ℕ} {s s' : Session}
    {op : Operation} (hs : s.step lib width op s') : s.now ≤ s'.now := by
  obtain ⟨hallowed, happly⟩ := hs
  cases op with
  | advance now =>
    obtain rfl := Option.some.inj happly
    exact hallowed.1
  | putDatapoint t k dp =>
    obtain rfl := Option.some.inj happly
    exact le_rfl
  | archivedData t k day r =>
    obtain ⟨r, -, rfl⟩ := Option.map_eq_some_iff.mp happly
    exact le_rfl

theorem run_scanDay {lib : CborLibrary} (hf : lib.Faithful) {width : Name → ThingPropertyKey → ℕ}
    {s s' : Session} {ops : List Operation} (hrun : Runs.Run (Session.step lib width) s ops s')
    (h : s.Inv lib width) (t : Name) (k : ThingPropertyKey) {day : ℤ} (hd : InRange day)
    (hpast : day < s.now / 86400) :
    s'.Inv lib width ∧ day < s'.now / 86400 ∧
      scanDay day (s'.db.stored t k 0) = scanDay day (s.db.stored t k 0) := by
  induction hrun with
  | nil s => exact ⟨h, hpast, rfl⟩
  | cons hstep hrest ih =>
    have hnow := step_now hstep
    obtain ⟨hinv, hpast', hscan⟩ := ih (Session.step_inv hf h hstep) (by omega)
    exact ⟨hinv, hpast', hscan.trans (step_scanDay h hstep t k hd hpast)⟩

/-! ### The chart -/

/- The spots of a day with these raw data: none without an entry, else those of the
archive at five minutes. -/
theorem decodeArchivedData_cborData {lib : CborLibrary} (hf : lib.Faithful) {w : ℕ} {day : ℤ}
    (hd : InRange day) {raw : Dataset} (hu : Uniform w raw.entries)
    (hday : ∀ e ∈ raw.entries, day * 86400 ≤ (e.1.toNat : ℤ) ∧ (e.1.toNat : ℤ) < (day + 1) * 86400) :
    ∃ bytes spots, cborData lib raw 300 = some bytes ∧ decodeArchivedData bytes = .ok spots ∧
      (raw.entries = [] → spots = []) ∧ (raw.entries ≠ [] → ∃ archive,
        downsample raw 300 defaultWatts = some archive ∧ Uniform w archive.entries ∧
          spots.length = w ∧ (ShowsArchive w day.toNat archive spots ↔
            DifferencesFit w archive.entries ∧ EndsShown archive.entries)) := by
  obtain ⟨hd0, -⟩ := hd
  by_cases hne : raw.entries = []
  · exact ⟨[], [], cborData_nil lib hne 300, rfl, fun _ => rfl, fun h => absurd hne h⟩
  · have hnat : ∀ e ∈ raw.entries,
        86400 * day.toNat ≤ e.1.toNat ∧ e.1.toNat < 86400 * (day.toNat + 1) := fun e he => by
      have hb := hday e he
      omega
    have hdivisor : UInt32.ofInt 300 ≠ 0 := by decide
    obtain ⟨archive, ha, hua, hbuckets⟩ := downsample_uniform hdivisor hu
    have hslots := archive_day hnat hbuckets
    obtain ⟨bytes, hb, hspots⟩ :=
      decodeArchivedData_compressed hf (archive_ne_nil hne hbuckets) hua hslots
    refine ⟨bytes, _, by rw [cborData, ha, Option.bind_some, hb], hspots, fun h => absurd h hne,
      fun _ => ⟨archive, ha, hua, by rw [List.length_map, List.length_range], ?_⟩⟩
    rw [showsArchive_iff hslots, endsShown_iff hua, ← differencesFit_changes, DifferencesFit,
      ← forall₂_and]
    exact forall₂_congr fun i _ => channelShown_iff hua archive.sorted i

section PastDay
variable {lib : CborLibrary} (hf : lib.Faithful) {keys : List ThingPropertyKey}
  {width : Name → ThingPropertyKey → ℕ} {s : Session} (hinv : s.Inv lib width)
  {thingId propertyId : Name} (ht : Segment thingId) {property : ThingPropertyKey}
  (hkey : enumCast keys propertyId = some property) {date : YearMonthDay} (hok : date.ok = true)
  (hd : InRange date.sysDays) (hpast : date.sysDays < s.now / 86400)
include hf hinv ht hkey hok hd hpast

/- A request for a past day, in any state that can be reached. -/
theorem fetchArchivedData_past :
    ∃ raw bytes s', scanDay date.sysDays (s.db.stored thingId property 0) = some raw ∧
      Uniform (width thingId property) raw.entries ∧ cborData lib raw 300 = some bytes ∧
      fetchArchivedData lib keys s thingId propertyId date = some (decodeArchivedData bytes, s') ∧
      s.step lib width (.archivedData thingId property date.sysDays 5) s' := by
  obtain ⟨raw, hraw, hu⟩ := hinv.consistent.scanDay_uniform thingId property date.sysDays
  obtain ⟨bytes, db', hdata, -, hbytes⟩ :=
    hinv.request hf thingId property hd (show (1 : ℤ) ≤ 5 by decide) (show (5 : ℤ) ≤ 1440 by decide)
  have hcbor := hbytes hpast
  rw [hraw, Option.bind_some, show factor 5 = 300 by decide] at hcbor
  refine ⟨raw, bytes, { s with db := db' }, hraw, hu, hcbor, ?_, ⟨hd, by decide, by decide⟩, ?_⟩
  · have hp : Segment propertyId := enumCast_enumName hkey ▸ segment_enumName property
    rw [fetchArchivedData_known ht hp hok s hkey (year_of_inRange hok hd), hdata]
    rfl
  · rw [Operation.apply, hdata]
    rfl

/- The same request at any later time. -/
theorem fetchArchivedData_later {s' : Session} {later : List Operation}
    (hlater : Runs.Run (Session.step lib width) s later s') :
    ∃ spots t t', fetchArchivedData lib keys s thingId propertyId date = some (.ok spots, t) ∧
      fetchArchivedData lib keys s' thingId propertyId date = some (.ok spots, t') := by
  obtain ⟨hinv', hpast', hscan⟩ := run_scanDay hf hlater hinv thingId property hd hpast
  obtain ⟨raw, bytes, t, hraw, hu, hcbor, hfetch, -⟩ :=
    fetchArchivedData_past hf hinv ht hkey hok hd hpast
  obtain ⟨raw', bytes', t', hraw', -, hcbor', hfetch', -⟩ :=
    fetchArchivedData_past hf hinv' ht hkey hok hd hpast'
  obtain rfl := Option.some.inj (hraw.symm.trans (hscan.symm.trans hraw'))
  obtain rfl := Option.some.inj (hcbor.symm.trans hcbor')
  obtain ⟨bytes'', spots, hcbor'', hspots, -⟩ :=
    decodeArchivedData_cborData hf hd hu (scanDay_inDay hd hraw)
  obtain rfl := Option.some.inj (hcbor.symm.trans hcbor'')
  exact ⟨spots, t, t', by rw [hfetch, hspots], by rw [hfetch', hspots]⟩

end PastDay

/-- At any point of any run of the daemon's database that keeps one width for each property
and is asked for 1 to 1440 minutes only, for any thing whose id is a segment of a path, any
property and any past day of the archive: the web app's request is understood, it leaves a
run of the daemon, and the chart has no line where nothing is stored of the day; else it
has a line for each value of the datapoints, on which the archive is shown if and only if
no step between buckets wraps and no repeated value other than zero ends the day. -/
theorem chart_of_pastDay (lib : CborLibrary) (hf : lib.Faithful) (keys : List ThingPropertyKey)
    (width : Name → ThingPropertyKey → ℕ) (start : ℤ) (h0 : 0 ≤ start) (h1 : start < 49673 * 86400)
    (ops : List Operation) (s : Session)
    (hrun : Runs.Run (Session.step lib width) ⟨start, fresh⟩ ops s)
    (thingId propertyId : Name) (ht : Segment thingId) (property : ThingPropertyKey)
    (hkey : enumCast keys propertyId = some property) (date : YearMonthDay) (hok : date.ok = true)
    (hd : InRange date.sysDays) (hpast : date.sysDays < s.now / 86400) :
    ∃ raw spots s', (s.db.rawData thingId property date.sysDays).1 = some raw ∧
      fetchArchivedData lib keys s thingId propertyId date = some (.ok spots, s') ∧
      s.step lib width (.archivedData thingId property date.sysDays 5) s' ∧
      (raw.entries = [] → spots = []) ∧ (raw.entries ≠ [] → ∃ archive,
        downsample raw 300 defaultWatts = some archive ∧
          spots.length = width thingId property ∧
          (ShowsArchive (width thingId property) date.sysDays.toNat archive spots ↔
            DifferencesFit (width thingId property) archive.entries ∧ EndsShown archive.entries)) := by
  have hinv := hrun.invariant (fun _ _ _ h hs => Session.step_inv hf h hs) (fresh_inv lib width h0 h1)
  obtain ⟨raw, bytes, s', hraw, hu, hcbor, hfetch, hstep⟩ :=
    fetchArchivedData_past hf hinv ht hkey hok hd hpast
  obtain ⟨bytes', spots, hcbor', hspots, hnil, hcons⟩ :=
    decodeArchivedData_cborData hf hd hu (scanDay_inDay hd hraw)
  obtain rfl := Option.some.inj (hcbor.symm.trans hcbor')
  refine ⟨raw, spots, s', ?_, by rw [hfetch, hspots], hstep, hnil, fun hne => ?_⟩
  · rw [(rawData_spec hinv.coherent thingId property date.sysDays).1]
    exact hraw
  · obtain ⟨archive, ha, -, hlength, hshows⟩ := hcons hne
    exact ⟨archive, ha, hlength, hshows⟩

theorem chart_of_nextDay :
    ∃ raw spots s', (nextDay.db.rawData "relay".toList .power 20000).1 = some raw ∧
      fetchArchivedData .shortest [.power] nextDay "relay".toList "power".toList ⟨2024, 10, 4⟩ =
        some (.ok spots, s') ∧
      nextDay.step .shortest (fun _ _ => 1) (.archivedData "relay".toList .power 20000 5) s' ∧
      (raw.entries = [] → spots = []) ∧ (raw.entries ≠ [] → ∃ archive,
        downsample raw 300 defaultWatts = some archive ∧ spots.length = 1 ∧
          (ShowsArchive 1 (20000 : ℤ).toNat archive spots ↔
            DifferencesFit 1 archive.entries ∧ EndsShown archive.entries)) :=
  chart_of_pastDay .shortest CborLibrary.shortest_faithful [.power] (fun _ _ => 1) 1728000000
    (by decide) (by decide) [.putDatapoint "relay".toList .power [5], .advance 1728086400] nextDay
    (.cons ⟨rfl, rfl⟩ (.cons ⟨⟨by decide, by decide⟩, rfl⟩ (.nil _))) "relay".toList
    "power".toList (by decide) .power (by decide) ⟨2024, 10, 4⟩ (by decide) (by decide) (by decide)

/-- In the same runs the chart of a past day never changes: whatever is stored, archived and
asked for in between, a later request gives the same spots. -/
theorem chart_never_changes (lib : CborLibrary) (hf : lib.Faithful) (keys : List ThingPropertyKey)
    (width : Name → ThingPropertyKey → ℕ) (start : ℤ) (h0 : 0 ≤ start) (h1 : start < 49673 * 86400)
    (ops later : List Operation) (s s' : Session)
    (hrun : Runs.Run (Session.step lib width) ⟨start, fresh⟩ ops s)
    (hlater : Runs.Run (Session.step lib width) s later s')
    (thingId propertyId : Name) (ht : Segment thingId) (property : ThingPropertyKey)
    (hkey : enumCast keys propertyId = some property) (date : YearMonthDay) (hok : date.ok = true)
    (hd : InRange date.sysDays) (hpast : date.sysDays < s.now / 86400) :
    ∃ spots t t', fetchArchivedData lib keys s thingId propertyId date = some (.ok spots, t) ∧
      fetchArchivedData lib keys s' thingId propertyId date = some (.ok spots, t') := by
  have hinv := hrun.invariant (fun _ _ _ h hs => Session.step_inv hf h hs) (fresh_inv lib width h0 h1)
  exact fetchArchivedData_later hf hinv ht hkey hok hd hpast hlater

theorem chart_never_changes_nextDay :
    ∃ spots t t', fetchArchivedData .shortest [.power] nextDay "relay".toList "power".toList
        ⟨2024, 10, 4⟩ = some (.ok spots, t) ∧
      fetchArchivedData .shortest [.power] ⟨1728172800, nextDay.db⟩ "relay".toList "power".toList
        ⟨2024, 10, 4⟩ = some (.ok spots, t') :=
  chart_never_changes .shortest CborLibrary.shortest_faithful [.power] (fun _ _ => 1) 1728000000
    (by decide) (by decide) [.putDatapoint "relay".toList .power [5], .advance 1728086400]
    [.advance 1728172800] nextDay ⟨1728172800, nextDay.db⟩
    (.cons ⟨rfl, rfl⟩ (.cons ⟨⟨by decide, by decide⟩, rfl⟩ (.nil _)))
    (.cons ⟨⟨by decide, by decide⟩, rfl⟩ (.nil _)) "relay".toList "power".toList (by decide) .power
    (by decide) ⟨2024, 10, 4⟩ (by decide) (by decide) (by decide)

end Iotic.Webapp
