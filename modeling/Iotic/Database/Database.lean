import Iotic.Database.ArchiveCoding
import Iotic.Database.MapName
import Mathlib.Logic.Function.Basic

/-!
# The database (Database.cpp)

libmdbx is an ordered map of byte slices for every map name. What is kept beside
it are the handles opened so far and the last value of every property. `none` is
undefined behaviour.
-/

namespace Iotic.Database
open ByteString Cbor Sequences Iotic.Common

/- A datapoint as stored, `int16_t` by `int16_t` in memory order. -/
def bytesOf (datapoint : Datapoint) : Bytes :=
  datapoint.flatMap fun v =>
    [UInt8.ofNat v.toUInt16.toNat, UInt8.ofNat (v.toUInt16.toNat / 256)]

/- `memcpy` into a vector of half as many elements: an odd size does not fit. -/
def datapointOf : Bytes → Option Datapoint
  | [] => some []
  | [_] => none
  | low :: high :: rest =>
    (datapointOf rest).map fun vec => (UInt16.ofNat (low.toNat + 256 * high.toNat)).toInt16 :: vec

abbrev Map := SortedMap UInt32 Bytes

/-! ### Days -/

/- `DatabaseUtil::daySinceEpoch`. -/
def daySinceEpoch (day : ℤ) : UInt32 := UInt32.ofInt ((day * 86400).tdiv (24 * 60 * 60))

/- `system_clock::to_time_t(sys_days(ymd))` and a day more, both `uint32_t`. -/
def dayStart (day : ℤ) : UInt32 := UInt32.ofInt (day * 86400)

def dayEnd (day : ℤ) : UInt32 := dayStart day + 24 * 60 * 60

/- `cursor.scan_from` the first key that is not below the day, until one is not
below its end. -/
def scanDay (day : ℤ) (map : Map) : Option Dataset :=
  let scan := (map.entries.dropWhile fun kv => kv.1 < dayStart day).takeWhile
    fun kv => kv.1 < dayEnd day
  scan.foldlM (fun data kv => (datapointOf kv.2).map fun value => data.put kv.1 value) SortedMap.empty

/-! ### The database -/

/- A `map_handle` is the name of the map it was opened for. -/
structure DatabasePrivate where
  dbEnv : Name → Option Map
  mapCache : Name → Option Name
  lastValues : Name → ThingPropertyKey → Datapoint

namespace DatabasePrivate

def fresh : DatabasePrivate := ⟨fun _ => none, fun _ => none, fun _ _ => []⟩

/-! ### Maps -/

def createMap (db : DatabasePrivate) (thingId : Name) (key : ThingPropertyKey) (resolution : ℤ) :
    Name × DatabasePrivate :=
  let name := mapName thingId key resolution
  match db.mapCache name with
  | some map => (map, db)
  | none =>
    let map := (db.dbEnv name).getD SortedMap.empty
    (name, { db with
      dbEnv := Function.update db.dbEnv name (some map)
      mapCache := Function.update db.mapCache name (some name) })

/- No map of the name: the exception is caught and a null handle returned. -/
def mapFor (db : DatabasePrivate) (thingId : Name) (key : ThingPropertyKey) (resolution : ℤ) :
    Option Name × DatabasePrivate :=
  let name := mapName thingId key resolution
  match db.mapCache name, db.dbEnv name with
  | some map, _ => (some map, db)
  | none, some _ => (some name, { db with mapCache := Function.update db.mapCache name (some name) })
  | none, none => (none, db)

/- `txn.put(map, key, value, put_mode::upsert)` in a transaction of its own. -/
def upsert (db : DatabasePrivate) (map : Name) (key : UInt32) (value : Bytes) : DatabasePrivate :=
  { db with dbEnv := Function.update db.dbEnv map ((db.dbEnv map).map fun m => m.put key value) }

/-! ### Raw data -/

def setLastValue (db : DatabasePrivate) (thingId : Name) (property : ThingPropertyKey)
    (datapoint : Datapoint) : DatabasePrivate :=
  let values := Function.update (db.lastValues thingId) property datapoint
  { db with lastValues := Function.update db.lastValues thingId values }

def putDatapoint (db : DatabasePrivate) (thingId : Name) (property : ThingPropertyKey)
    (timestamp : UInt32) (datapoint : Datapoint) : DatabasePrivate :=
  if db.lastValues thingId property = datapoint then db
  else
    let (map, db) := (db.setLastValue thingId property datapoint).createMap thingId property 0
    db.upsert map timestamp (bytesOf datapoint)

def rawData (db : DatabasePrivate) (thingId : Name) (property : ThingPropertyKey) (day : ℤ) :
    Option Dataset × DatabasePrivate :=
  match db.mapFor thingId property 0 with
  | (none, db) => (some SortedMap.empty, db)
  | (some map, db) => ((db.dbEnv map).bind (scanDay day), db)

/- The cursor erases what it visits, from the first key of the day on. -/
def eraseRawData (db : DatabasePrivate) (thingId : Name) (property : ThingPropertyKey) (day : ℤ) :
    DatabasePrivate :=
  match db.mapFor thingId property 0 with
  | (none, db) => db
  | (some map, db) =>
    let erased := (db.dbEnv map).map fun m => m.eraseScan (dayStart day) (dayEnd day)
    { db with dbEnv := Function.update db.dbEnv map erased }

/-! ### Archived data -/

/- An empty view when there is nothing. -/
def archivedData (db : DatabasePrivate) (thingId : Name) (property : ThingPropertyKey)
    (day resolution : ℤ) : Bytes × DatabasePrivate :=
  match db.mapFor thingId property resolution with
  | (none, db) => ([], db)
  | (some map, db) => (((db.dbEnv map).bind fun m => m.get? (daySinceEpoch day)).getD [], db)

def putArchivedData (db : DatabasePrivate) (thingId : Name) (property : ThingPropertyKey)
    (day resolution : ℤ) (data : Bytes) : DatabasePrivate :=
  if data.isEmpty then db
  else
    let (map, db) := db.createMap thingId property resolution
    db.upsert map (daySinceEpoch day) data

/-! ### What the maps hold -/

/- Handles lead to the map of the name they are cached under. -/
def Coherent (db : DatabasePrivate) : Prop :=
  ∀ name map, db.mapCache name = some map → map = name ∧ (db.dbEnv name).isSome

theorem fresh_coherent : fresh.Coherent := fun _ _ h => nomatch h

/- The entries under a thing, a property and a resolution, none if there is no map. -/
def stored (db : DatabasePrivate) (thingId : Name) (key : ThingPropertyKey) (resolution : ℤ) : Map :=
  (db.dbEnv (mapName thingId key resolution)).getD SortedMap.empty

/- What opening a map leaves as it is. -/
structure SameData (db db' : DatabasePrivate) : Prop where
  coherent : db'.Coherent
  stored : db'.stored = db.stored
  lastValues : db'.lastValues = db.lastValues

theorem mapFor_spec {db : DatabasePrivate} (h : db.Coherent) (t : Name) (k : ThingPropertyKey) (r : ℤ) :
    db.SameData (db.mapFor t k r).2 ∧ (db.mapFor t k r).2.dbEnv = db.dbEnv ∧
      (db.mapFor t k r).1 = (db.dbEnv (mapName t k r)).map fun _ => mapName t k r := by
  rw [mapFor]
  cases hc : db.mapCache (mapName t k r) with
  | some map =>
    obtain ⟨rfl, hs⟩ := h _ map hc
    obtain ⟨m, hm⟩ := Option.isSome_iff_exists.mp hs
    exact ⟨⟨h, rfl, rfl⟩, rfl, by rw [hm]; rfl⟩
  | none =>
    cases he : db.dbEnv (mapName t k r) with
    | none => exact ⟨⟨h, rfl, rfl⟩, rfl, rfl⟩
    | some m =>
      refine ⟨⟨fun name map hn => ?_, rfl, rfl⟩, rfl, rfl⟩
      dsimp only at hn
      rw [Function.update_apply] at hn
      split_ifs at hn with heq
      · obtain rfl := Option.some.inj hn
        exact ⟨heq.symm, by rw [heq]; exact Option.isSome_iff_exists.mpr ⟨m, he⟩⟩
      · exact h name map hn

/- Writing a map leaves every cached handle a map to stand for. -/
theorem Coherent.update {db : DatabasePrivate} (h : db.Coherent) (name : Name) (m : Map) :
    Coherent { db with dbEnv := Function.update db.dbEnv name (some m) } := by
  intro name' map hn
  obtain ⟨hname, hs⟩ := h name' map hn
  refine ⟨hname, ?_⟩
  dsimp only
  rw [Function.update_apply]
  split_ifs
  · rfl
  · exact hs

theorem stored_update {db : DatabasePrivate} {t : Name} {k : ThingPropertyKey} {r : ℤ} (m : Map)
    (mapCache : Name → Option Name) (lastValues : Name → ThingPropertyKey → Datapoint)
    (t' : Name) (k' : ThingPropertyKey) (r' : ℤ) :
    (DatabasePrivate.mk (Function.update db.dbEnv (mapName t k r) (some m)) mapCache lastValues).stored
      t' k' r' = if t' = t ∧ k' = k ∧ r' = r then m else db.stored t' k' r' := by
  rw [stored]
  dsimp only
  rw [Function.update_apply]
  by_cases hn : mapName t' k' r' = mapName t k r
  · rw [if_pos hn, if_pos (mapName_cancel hn)]
    rfl
  · rw [if_neg hn, if_neg fun h => hn (by rw [h.1, h.2.1, h.2.2])]
    rfl

/- A map is created empty, so creating it changes nothing that is stored. -/
theorem createMap_spec {db : DatabasePrivate} (h : db.Coherent) (t : Name) (k : ThingPropertyKey) (r : ℤ) :
    db.SameData (db.createMap t k r).2 ∧ (db.createMap t k r).1 = mapName t k r ∧
      (db.createMap t k r).2.dbEnv (mapName t k r) = some (db.stored t k r) := by
  rw [createMap]
  cases hc : db.mapCache (mapName t k r) with
  | some map =>
    obtain ⟨rfl, hs⟩ := h _ map hc
    obtain ⟨m, hm⟩ := Option.isSome_iff_exists.mp hs
    exact ⟨⟨h, rfl, rfl⟩, rfl, by rw [stored, hm]; rfl⟩
  | none =>
    refine ⟨⟨fun name map hn => ?_, ?_, rfl⟩, rfl, ?_⟩
    · dsimp only at hn ⊢
      rw [Function.update_apply] at hn ⊢
      split_ifs at hn ⊢ with heq
      · exact ⟨by rw [heq]; exact (Option.some.inj hn).symm, rfl⟩
      · exact h name map hn
    · funext t' k' r'
      dsimp only
      rw [stored_update]
      split_ifs with heq
      · rw [heq.1, heq.2.1, heq.2.2]
        rfl
      · rfl
    · dsimp only
      rw [Function.update_self]
      rfl

/- What a write leaves: one entry of one map. -/
theorem upsert_spec {db : DatabasePrivate} (h : db.Coherent) {t : Name} {k : ThingPropertyKey} {r : ℤ}
    (hm : db.dbEnv (mapName t k r) = some (db.stored t k r)) (key : UInt32) (value : Bytes) :
    (db.upsert (mapName t k r) key value).Coherent ∧ ∀ t' k' r',
      (db.upsert (mapName t k r) key value).stored t' k' r' =
        if t' = t ∧ k' = k ∧ r' = r then (db.stored t k r).put key value
        else db.stored t' k' r' := by
  rw [upsert, hm, Option.map_some]
  exact ⟨h.update _ _, fun t' k' r' => stored_update _ _ _ t' k' r'⟩

/-! ### The operations on what is stored -/

theorem createMap_lastValues (db : DatabasePrivate) (t : Name) (k : ThingPropertyKey) (r : ℤ) :
    (db.createMap t k r).2.lastValues = db.lastValues := by
  unfold createMap
  dsimp only
  split <;> rfl

theorem putDatapoint_of_eq {db : DatabasePrivate} {t : Name} {k : ThingPropertyKey}
    (ts : UInt32) {dp : Datapoint} (h : db.lastValues t k = dp) : db.putDatapoint t k ts dp = db := by
  rw [putDatapoint, if_pos h]

theorem putDatapoint_of_ne {db : DatabasePrivate} (h : db.Coherent) {t : Name}
    {k : ThingPropertyKey} (ts : UInt32) {dp : Datapoint} (hne : db.lastValues t k ≠ dp) :
    (db.putDatapoint t k ts dp).Coherent ∧
      (db.putDatapoint t k ts dp).lastValues t k = dp ∧ ∀ t' k' r',
      (db.putDatapoint t k ts dp).stored t' k' r' =
        if t' = t ∧ k' = k ∧ r' = 0 then (db.stored t k 0).put ts (bytesOf dp)
        else db.stored t' k' r' := by
  have hset : (db.setLastValue t k dp).Coherent := h
  obtain ⟨hsame, hmap, henv⟩ := createMap_spec hset t k 0
  have henv' : ((db.setLastValue t k dp).createMap t k 0).2.dbEnv (mapName t k 0) =
      some (((db.setLastValue t k dp).createMap t k 0).2.stored t k 0) := by
    rw [henv, hsame.stored]
  have hup := upsert_spec hsame.coherent henv' ts (bytesOf dp)
  have hput : db.putDatapoint t k ts dp =
      ((db.setLastValue t k dp).createMap t k 0).2.upsert (mapName t k 0) ts (bytesOf dp) := by
    rw [putDatapoint, if_neg hne, ← hmap]
  rw [hput]
  refine ⟨hup.1, ?_, fun t' k' r' => ?_⟩
  · show ((db.setLastValue t k dp).createMap t k 0).2.lastValues t k = dp
    rw [hsame.lastValues, setLastValue]
    simp
  · rw [hup.2, hsame.stored]
    rfl

theorem rawData_spec {db : DatabasePrivate} (h : db.Coherent) (t : Name) (k : ThingPropertyKey)
    (day : ℤ) : (db.rawData t k day).1 = scanDay day (db.stored t k 0) ∧
      db.SameData (db.rawData t k day).2 := by
  obtain ⟨hsame, henv, hmap⟩ := mapFor_spec h t k 0
  rw [rawData, stored]
  generalize db.mapFor t k 0 = r at hsame henv hmap
  obtain ⟨map, db'⟩ := r
  dsimp only at hsame henv hmap
  cases hm : db.dbEnv (mapName t k 0) with
  | none =>
    rw [hm] at hmap
    subst hmap
    exact ⟨rfl, hsame⟩
  | some m =>
    rw [hm] at hmap
    subst hmap
    refine ⟨?_, hsame⟩
    show (db'.dbEnv (mapName t k 0)).bind (scanDay day) = _
    rw [henv, hm]
    rfl

/- Erasing a day changes one map, by the entries of the scan. -/
theorem eraseRawData_spec {db : DatabasePrivate} (h : db.Coherent) (t : Name)
    (k : ThingPropertyKey) (day : ℤ) :
    (db.eraseRawData t k day).Coherent ∧ (db.eraseRawData t k day).lastValues = db.lastValues ∧
      ∀ t' k' r', (db.eraseRawData t k day).stored t' k' r' =
        if t' = t ∧ k' = k ∧ r' = 0 then (db.stored t k 0).eraseScan (dayStart day) (dayEnd day)
        else db.stored t' k' r' := by
  obtain ⟨hsame, henv, hmap⟩ := mapFor_spec h t k 0
  rw [eraseRawData]
  generalize db.mapFor t k 0 = r at hsame henv hmap
  obtain ⟨map, db'⟩ := r
  dsimp only at hsame henv hmap
  cases hm : db.dbEnv (mapName t k 0) with
  | none =>
    rw [hm] at hmap
    subst hmap
    refine ⟨hsame.coherent, hsame.lastValues, fun t' k' r' => ?_⟩
    simp only [Option.map_none, hsame.stored]
    split_ifs with heq
    · rw [heq.1, heq.2.1, heq.2.2, stored, hm]
      rfl
    · rfl
  | some m =>
    rw [hm] at hmap
    subst hmap
    have hst : db.stored t k 0 = m := by rw [stored, hm]; rfl
    simp only [Option.map_some, henv, hm, hst]
    have hcoherent := hsame.coherent.update (mapName t k 0) (m.eraseScan (dayStart day) (dayEnd day))
    rw [henv] at hcoherent
    exact ⟨hcoherent, hsame.lastValues, fun t' k' r' => stored_update _ _ _ t' k' r'⟩

theorem archivedData_spec {db : DatabasePrivate} (h : db.Coherent) (t : Name)
    (k : ThingPropertyKey) (day r : ℤ) :
    (db.archivedData t k day r).1 = ((db.stored t k r).get? (daySinceEpoch day)).getD [] ∧
      db.SameData (db.archivedData t k day r).2 := by
  obtain ⟨hsame, henv, hmap⟩ := mapFor_spec h t k r
  rw [archivedData, stored]
  generalize db.mapFor t k r = p at hsame henv hmap
  obtain ⟨map, db'⟩ := p
  dsimp only at hsame henv hmap
  cases hm : db.dbEnv (mapName t k r) with
  | none =>
    rw [hm] at hmap
    subst hmap
    exact ⟨rfl, hsame⟩
  | some m =>
    rw [hm] at hmap
    subst hmap
    refine ⟨?_, hsame⟩
    show ((db'.dbEnv (mapName t k r)).bind fun m => m.get? (daySinceEpoch day)).getD [] = _
    rw [henv, hm]
    rfl

theorem putArchivedData_spec {db : DatabasePrivate} (h : db.Coherent) (t : Name)
    (k : ThingPropertyKey) (day r : ℤ) {data : Bytes} (hne : data ≠ []) :
    (db.putArchivedData t k day r data).Coherent ∧ ∀ t' k' r',
      (db.putArchivedData t k day r data).stored t' k' r' =
        if t' = t ∧ k' = k ∧ r' = r then (db.stored t k r).put (daySinceEpoch day) data
        else db.stored t' k' r' := by
  obtain ⟨hsame, hmap, henv⟩ := createMap_spec h t k r
  have henv' : (db.createMap t k r).2.dbEnv (mapName t k r) =
      some ((db.createMap t k r).2.stored t k r) := by rw [henv, hsame.stored]
  have hup := upsert_spec hsame.coherent henv' (daySinceEpoch day) data
  have hput : db.putArchivedData t k day r data =
      (db.createMap t k r).2.upsert (mapName t k r) (daySinceEpoch day) data := by
    rw [putArchivedData, if_neg (by simpa using hne), ← hmap]
  rw [hput]
  exact ⟨hup.1, fun t' k' r' => by rw [hup.2, hsame.stored]⟩

end DatabasePrivate

/-! ### Reading a day -/

theorem datapointOf_bytesOf (dp : Datapoint) : datapointOf (bytesOf dp) = some dp := by
  induction dp with
  | nil => rfl
  | cons v dp ih =>
    have hlt := v.toUInt16.toNat_lt
    have hlow : (UInt8.ofNat v.toUInt16.toNat).toNat = v.toUInt16.toNat % 256 := UInt8.toNat_ofNat'
    have hhigh : (UInt8.ofNat (v.toUInt16.toNat / 256)).toNat = v.toUInt16.toNat / 256 % 256 :=
      UInt8.toNat_ofNat'
    have hv : v.toUInt16.toNat % 256 + 256 * (v.toUInt16.toNat / 256 % 256) = v.toUInt16.toNat := by
      omega
    show (datapointOf (bytesOf dp)).map _ = _
    rw [ih, hlow, hhigh, hv, UInt16.ofNat_toNat, Option.map_some]
    simp

theorem decode_entries (es : List (UInt32 × Datapoint)) (hs : es.Pairwise fun a b => a.1 < b.1) :
    ∃ d : Dataset, (es.map fun e => (e.1, bytesOf e.2)).foldlM
        (fun data kv => (datapointOf kv.2).map fun value => data.put kv.1 value)
        SortedMap.empty = some d ∧ d.entries = es := by
  refine ⟨_, ?_, SortedMap.entries_foldl_put es SortedMap.empty hs⟩
  rw [List.foldlM_map]
  refine foldlM_eq_some (fun data e _ => ?_) _
  rw [datapointOf_bytesOf, Option.map_some]

/- A day of datapoints that were stored is read back as it was. -/
theorem scanDay_eq {day : ℤ} {map : Map} {es : List (UInt32 × Datapoint)}
    (hs : es.Pairwise fun a b => a.1 < b.1)
    (h : (map.window (dayStart day) (dayEnd day)).entries = es.map fun e => (e.1, bytesOf e.2)) :
    ∃ d, scanDay day map = some d ∧ d.entries = es := by
  obtain ⟨d, hd, he⟩ := decode_entries es hs
  refine ⟨d, ?_, he⟩
  rw [scanDay]
  rw [SortedMap.scan_eq_window, h, hd]

/- What is written outside the day leaves its data as they are. -/
theorem scanDay_put_of_notMem {day : ℤ} (map : Map) {key : UInt32} (value : Bytes)
    (h : ¬ (dayStart day ≤ key ∧ key < dayEnd day)) : scanDay day (map.put key value) = scanDay day map := by
  rw [scanDay, scanDay]
  rw [SortedMap.scan_eq_window, SortedMap.scan_eq_window, SortedMap.window_put, if_neg h]

end Iotic.Database
