import Iotic.Database.Database
import Iotic.Lib.Runs

/-!
# The archive of past days (ArchiveDayUseCase.cpp, Database::archivedData)

A past day is archived when it is first asked for and never again. That is right
because nothing is written into a day once it has passed, and because no two maps
share a name.
-/

namespace Iotic.Database
open ByteString Cbor Sequences Iotic.Common DatabasePrivate

/- `const int factor = seconds(resolution).count()`. -/
def factor (resolution : ℤ) : ℤ := (resolution * 60).bmod (2 ^ 32)

/- `now` is the clock in seconds, `floor<days>` of it today. -/
def archiveDayUseCase (lib : CborLibrary) (now : ℤ) (db : DatabasePrivate) (thingId : Name)
    (property : ThingPropertyKey) (day resolution : ℤ) : Option DatabasePrivate :=
  let today := now / 86400
  if day ≥ today then some db
  else
    let (rawData, db) := db.rawData thingId property day
    rawData.bind fun rawData => (cborData lib rawData (factor resolution)).map fun data =>
      db.putArchivedData thingId property day resolution data

/- No archived data for the day: archive it and try again. -/
def archivedData (lib : CborLibrary) (now : ℤ) (db : DatabasePrivate) (thingId : Name)
    (property : ThingPropertyKey) (day resolution : ℤ) : Option (Bytes × DatabasePrivate) :=
  let (archivedData, db) := db.archivedData thingId property day resolution
  if archivedData.isEmpty then
    (archiveDayUseCase lib now db thingId property day resolution).map fun db =>
      db.archivedData thingId property day resolution
  else some (archivedData, db)

/-! ### Days and resolutions -/

/- The days from 1970 to 2105. -/
def InRange (day : ℤ) : Prop := 0 ≤ day ∧ day < 49673

instance (day : ℤ) : Decidable (InRange day) := inferInstanceAs (Decidable (_ ∧ _))

theorem toNat_dayStart {day : ℤ} (h : InRange day) : ((dayStart day).toNat : ℤ) = day * 86400 := by
  obtain ⟨h0, h1⟩ := h
  exact toNat_ofInt (by omega) (by omega)

theorem toNat_dayEnd {day : ℤ} (h : InRange day) :
    ((dayEnd day).toNat : ℤ) = (day + 1) * 86400 := by
  have hs := toNat_dayStart h
  obtain ⟨h0, h1⟩ := h
  have hd : ((24 * 60 * 60 : UInt32)).toNat = 86400 := by decide
  rw [dayEnd, UInt32.toNat_add, hd]
  omega

theorem toNat_daySinceEpoch {day : ℤ} (h : InRange day) :
    ((daySinceEpoch day).toNat : ℤ) = day := by
  obtain ⟨h0, h1⟩ := h
  have hd : (day * 86400).tdiv (24 * 60 * 60) = day := by
    rw [Int.tdiv_eq_ediv_of_nonneg (by omega)]
    omega
  rw [daySinceEpoch, hd]
  exact toNat_ofInt h0 (by omega)

theorem daySinceEpoch_cancel {day day' : ℤ} (h : InRange day) (h' : InRange day')
    (he : daySinceEpoch day = daySinceEpoch day') : day = day' := by
  rw [← toNat_daySinceEpoch h, ← toNat_daySinceEpoch h', he]

theorem factor_eq {r : ℤ} (h1 : 1 ≤ r) (h2 : r ≤ 1440) : factor r = r * 60 :=
  Int.bmod_eq_of_le (by omega) (by omega)

theorem divisor_ne_zero {r : ℤ} (h1 : 1 ≤ r) (h2 : r ≤ 1440) : UInt32.ofInt (factor r) ≠ 0 := by
  rw [factor_eq h1 h2]
  exact ofInt_ne_zero (by omega) (by omega)

/- Raw data of one width can be archived at any resolution. -/
theorem cborData_isSome {lib : CborLibrary} (hf : lib.Faithful) {w : ℕ} {raw : Dataset}
    (h : Uniform w raw.entries) {f : ℤ} (hd : UInt32.ofInt f ≠ 0) : (cborData lib raw f).isSome := by
  obtain ⟨ds, hds, hu, _⟩ := downsample_uniform hd h
  rw [cborData, hds, Option.bind_some]
  rcases eq_or_ne ds.entries [] with he | hne
  · rw [compressed, deltaCompress_eq ds hu, he]
    rfl
  · obtain ⟨bytes, hb, _⟩ := compressed_encodes hf ds hne hu
    rw [hb]
    rfl

/-! ### Runs of the daemon -/

structure Session where
  now : ℤ
  db : DatabasePrivate

inductive Operation
  | advance (now : ℤ)
  | putDatapoint (thingId : Name) (property : ThingPropertyKey) (datapoint : Datapoint)
  | archivedData (thingId : Name) (property : ThingPropertyKey) (day resolution : ℤ)

/- The clock does not run backwards and stays before 2106; the datapoints of a
property have the width `width` gives it. -/
def Operation.Allowed (width : Name → ThingPropertyKey → ℕ) (s : Session) : Operation → Prop
  | .advance now => s.now ≤ now ∧ now < 49673 * 86400
  | .putDatapoint thingId property datapoint => datapoint.length = width thingId property
  | .archivedData _ _ day resolution => InRange day ∧ 1 ≤ resolution ∧ resolution ≤ 1440

def Operation.apply (lib : CborLibrary) (s : Session) : Operation → Option Session
  | .advance now => some { s with now := now }
  | .putDatapoint thingId property datapoint =>
    some { s with db := s.db.putDatapoint thingId property (UInt32.ofInt s.now) datapoint }
  | .archivedData thingId property day resolution =>
    (Iotic.Database.archivedData lib s.now s.db thingId property day resolution).map fun r =>
      { s with db := r.2 }

def Session.step (lib : CborLibrary) (width : Name → ThingPropertyKey → ℕ) (s : Session)
    (op : Operation) (s' : Session) : Prop := op.Allowed width s ∧ op.apply lib s = some s'

/-! ### What the maps hold at any time -/

abbrev View := Name → ThingPropertyKey → ℤ → Map

/- Raw data are of the past and of one width; an archived day has passed, and its
bytes are what archiving it now would give. -/
structure Consistent (lib : CborLibrary) (width : Name → ThingPropertyKey → ℕ) (now : ℤ)
    (view : View) : Prop where
  raw : ∀ t k, ∀ e ∈ (view t k 0).entries,
    (e.1.toNat : ℤ) ≤ now ∧ ∃ dp : Datapoint, e.2 = bytesOf dp ∧ dp.length = width t k
  archive : ∀ t k r day, 1 ≤ r → r ≤ 1440 → InRange day → ∀ bytes,
    (view t k r).get? (daySinceEpoch day) = some bytes →
    bytes ≠ [] ∧ day < now / 86400 ∧
      (scanDay day (view t k 0)).bind (fun raw => cborData lib raw (factor r)) = some bytes

structure Session.Inv (lib : CborLibrary) (width : Name → ThingPropertyKey → ℕ) (s : Session) :
    Prop where
  now_nonneg : 0 ≤ s.now
  now_lt : s.now < 49673 * 86400
  coherent : s.db.Coherent
  consistent : Consistent lib width s.now s.db.stored

theorem Session.Inv.sameData {lib : CborLibrary} {width : Name → ThingPropertyKey → ℕ} {now : ℤ}
    {db db' : DatabasePrivate} (h : (Session.mk now db).Inv lib width) (hs : db.SameData db') :
    (Session.mk now db').Inv lib width where
  now_nonneg := h.now_nonneg
  now_lt := h.now_lt
  coherent := hs.coherent
  consistent := by
    show Consistent lib width now db'.stored
    rw [hs.stored]
    exact h.consistent

theorem fresh_inv (lib : CborLibrary) (width : Name → ThingPropertyKey → ℕ) {now : ℤ}
    (h0 : 0 ≤ now) (h1 : now < 49673 * 86400) : (Session.mk now fresh).Inv lib width where
  now_nonneg := h0
  now_lt := h1
  coherent := fresh_coherent
  consistent :=
    { raw := fun _ _ _ he => nomatch he
      archive := fun _ _ _ _ _ _ _ _ h => nomatch h }

/- The raw data of a day are always defined, and of one width. -/
theorem Consistent.scanDay_uniform {lib : CborLibrary} {width : Name → ThingPropertyKey → ℕ}
    {now : ℤ} {view : View} (h : Consistent lib width now view) (t : Name) (k : ThingPropertyKey)
    (day : ℤ) : ∃ d, scanDay day (view t k 0) = some d ∧ Uniform (width t k) d.entries := by
  let es := ((view t k 0).window (dayStart day) (dayEnd day)).entries
  let ds := es.map fun e => (e.1, (datapointOf e.2).getD [])
  have hbytes : ∀ e ∈ es, bytesOf ((datapointOf e.2).getD []) = e.2 ∧
      ((datapointOf e.2).getD []).length = width t k := by
    intro e he
    obtain ⟨_, dp, hdp, hw⟩ := h.raw t k e (SortedMap.mem_window.mp he).1
    simp only [hdp, datapointOf_bytesOf, Option.getD_some]
    exact ⟨trivial, hw⟩
  have hs : ds.Pairwise fun a b => a.1 < b.1 :=
    List.pairwise_map.mpr ((view t k 0).window (dayStart day) (dayEnd day)).sorted
  have hwin : es = ds.map fun e => (e.1, bytesOf e.2) := by
    simp only [ds, List.map_map]
    refine (List.map_id es).symm.trans (List.map_congr_left fun e he => ?_)
    simp only [Function.comp_apply, (hbytes e he).1, id_eq]
  obtain ⟨d, hd, hde⟩ := scanDay_eq hs hwin
  refine ⟨d, hd, fun e he => ?_⟩
  rw [hde] at he
  obtain ⟨x, hx, rfl⟩ := List.mem_map.mp he
  exact (hbytes x hx).2

/-! ### What each operation preserves -/

section Steps
variable {lib : CborLibrary} {width : Name → ThingPropertyKey → ℕ} {now : ℤ} {view : View}

theorem Consistent.advance {now' : ℤ} (h : Consistent lib width now view) (hn : now ≤ now') :
    Consistent lib width now' view where
  raw := fun t k e he => by
    obtain ⟨hts, hdp⟩ := h.raw t k e he
    exact ⟨hts.trans hn, hdp⟩
  archive := fun t k r day hr1 hr2 hd bytes hb => by
    obtain ⟨hne, hday, hdata⟩ := h.archive t k r day hr1 hr2 hd bytes hb
    exact ⟨hne, by omega, hdata⟩

/- A datapoint of now is outside every day that has passed. -/
theorem now_notMem_pastDay {day : ℤ} (h0 : 0 ≤ now) (h1 : now < 49673 * 86400) (hd : InRange day)
    (hday : day < now / 86400) :
    ¬ (dayStart day ≤ UInt32.ofInt now ∧ UInt32.ofInt now < dayEnd day) := by
  rintro ⟨_, hlt⟩
  have hts := toNat_ofInt h0 (show now < 2 ^ 32 by omega)
  have hend := toNat_dayEnd hd
  have hlt' := UInt32.lt_iff_toNat_lt.mp hlt
  omega

theorem Consistent.putDatapoint (h : Consistent lib width now view) (h0 : 0 ≤ now)
    (h1 : now < 49673 * 86400) (t : Name) (k : ThingPropertyKey) (dp : Datapoint)
    (hw : dp.length = width t k) {view' : View} (hv : ∀ t' k' r', view' t' k' r' =
      if t' = t ∧ k' = k ∧ r' = 0 then (view t k 0).put (UInt32.ofInt now) (bytesOf dp)
      else view t' k' r') : Consistent lib width now view' where
  raw := fun t' k' e he => by
    rw [hv] at he
    split_ifs at he with heq
    · obtain ⟨rfl, rfl, _⟩ := heq
      rcases SortedMap.mem_putEntry he with rfl | he
      · have hts := toNat_ofInt h0 (show now < 2 ^ 32 by omega)
        exact ⟨hts.le, dp, rfl, hw⟩
      · exact h.raw t' k' e he
    · exact h.raw t' k' e he
  archive := fun t' k' r day hr1 hr2 hd bytes hb => by
    have hr : ¬ (t' = t ∧ k' = k ∧ r = 0) := fun he => by omega
    rw [hv, if_neg hr] at hb
    obtain ⟨hne, hday, hdata⟩ := h.archive t' k' r day hr1 hr2 hd bytes hb
    refine ⟨hne, hday, ?_⟩
    rw [hv]
    split_ifs with heq
    · obtain ⟨rfl, rfl, _⟩ := heq
      rwa [scanDay_put_of_notMem _ _ (now_notMem_pastDay h0 h1 hd hday)]
    · exact hdata

theorem Consistent.putArchivedData (h : Consistent lib width now view) (t : Name)
    (k : ThingPropertyKey) {day r : ℤ} (hr1 : 1 ≤ r) (hd : InRange day)
    (hday : day < now / 86400) {data : Bytes} (hne : data ≠ [])
    (hdata : (scanDay day (view t k 0)).bind (fun raw => cborData lib raw (factor r)) = some data)
    {view' : View} (hv : ∀ t' k' r', view' t' k' r' =
      if t' = t ∧ k' = k ∧ r' = r then (view t k r).put (daySinceEpoch day) data
      else view t' k' r') : Consistent lib width now view' := by
  have hraw : ∀ t' k', view' t' k' 0 = view t' k' 0 := fun t' k' => by
    rw [hv, if_neg fun he => by omega]
  constructor
  · intro t' k' e he
    rw [hraw] at he
    exact h.raw t' k' e he
  · intro t' k' r' day' hr1' hr2' hd' bytes hb
    rw [hraw]
    rw [hv] at hb
    split_ifs at hb with heq
    · obtain ⟨rfl, rfl, rfl⟩ := heq
      rw [SortedMap.get?_put] at hb
      split_ifs at hb with hkey
      · obtain rfl := Option.some.inj hb
        obtain rfl := daySinceEpoch_cancel hd' hd hkey
        exact ⟨hne, hday, hdata⟩
      · exact h.archive t' k' r' day' hr1' hr2' hd' bytes hb
    · exact h.archive t' k' r' day' hr1' hr2' hd' bytes hb

end Steps

/- Archiving a past day that is not archived yet: the bytes are found afterwards. -/
theorem Session.Inv.archive_pastDay {lib : CborLibrary} (hf : lib.Faithful)
    {width : Name → ThingPropertyKey → ℕ} {now : ℤ} {db : DatabasePrivate}
    (h : (Session.mk now db).Inv lib width) (t : Name) (k : ThingPropertyKey) {day r : ℤ}
    (hd : InRange day) (hr1 : 1 ≤ r) (hr2 : r ≤ 1440) (hday : day < now / 86400)
    (hnone : (db.stored t k r).get? (daySinceEpoch day) = none) :
    ∃ data db', archiveDayUseCase lib now db t k day r = some db' ∧
      (Session.mk now db').Inv lib width ∧
      (scanDay day (db.stored t k 0)).bind (fun raw => cborData lib raw (factor r)) = some data ∧
      ((db'.stored t k r).get? (daySinceEpoch day)).getD [] = data := by
  obtain ⟨raw, hraw, hu⟩ := h.consistent.scanDay_uniform t k day
  obtain ⟨hscan, hsame⟩ := rawData_spec h.coherent t k day
  obtain ⟨data, hdata⟩ :=
    Option.isSome_iff_exists.mp (cborData_isSome hf hu (divisor_ne_zero hr1 hr2))
  have h1 := h.sameData hsame
  have hfinal : archiveDayUseCase lib now db t k day r =
      some ((db.rawData t k day).2.putArchivedData t k day r data) := by
    simp only [Iotic.Database.archiveDayUseCase, if_neg (not_le.mpr hday), hscan, hraw,
      Option.bind_some, hdata, Option.map_some]
  have hbind : (scanDay day (db.stored t k 0)).bind (fun raw => cborData lib raw (factor r)) =
      some data := by simp only [hraw, Option.bind_some, hdata]
  generalize (db.rawData t k day).2 = db1 at hfinal hsame h1
  refine ⟨data, _, hfinal, ?_, hbind, ?_⟩
  · rcases eq_or_ne data [] with rfl | hne
    · exact h1
    · obtain ⟨hco, hstored⟩ := putArchivedData_spec hsame.coherent t k day r hne
      rw [← hsame.stored] at hbind
      exact ⟨h1.now_nonneg, h1.now_lt, hco,
        h1.consistent.putArchivedData t k hr1 hd hday hne hbind hstored⟩
  · rcases eq_or_ne data [] with rfl | hne
    · show ((db1.stored t k r).get? _).getD [] = []
      rw [hsame.stored, hnone]
      rfl
    · obtain ⟨_, hstored⟩ := putArchivedData_spec hsame.coherent t k day r hne
      rw [hstored, if_pos ⟨rfl, rfl, rfl⟩, SortedMap.get?_put_self, Option.getD_some]

/- A request leaves the maps consistent, and for a past day answers with what
archiving the day now gives. -/
theorem Session.Inv.request {lib : CborLibrary} (hf : lib.Faithful)
    {width : Name → ThingPropertyKey → ℕ} {now : ℤ} {db : DatabasePrivate}
    (h : (Session.mk now db).Inv lib width) (t : Name) (k : ThingPropertyKey) {day r : ℤ}
    (hd : InRange day) (hr1 : 1 ≤ r) (hr2 : r ≤ 1440) :
    ∃ bytes db', archivedData lib now db t k day r = some (bytes, db') ∧
      (Session.mk now db').Inv lib width ∧ (day < now / 86400 →
        (scanDay day (db.stored t k 0)).bind (fun raw => cborData lib raw (factor r)) =
          some bytes) := by
  obtain ⟨hval, hsame⟩ := archivedData_spec h.coherent t k day r
  have h1 := h.sameData hsame
  cases hg : (db.stored t k r).get? (daySinceEpoch day) with
  | some bytes =>
    obtain ⟨hne, hday, hdata⟩ := h.consistent.archive t k r day hr1 hr2 hd bytes hg
    rw [hg, Option.getD_some] at hval
    have hempty : ¬ bytes.isEmpty = true := by simpa using hne
    refine ⟨bytes, (db.archivedData t k day r).2, ?_, h1, fun _ => hdata⟩
    simp only [Iotic.Database.archivedData, hval, if_neg hempty]
  | none =>
    rw [hg, Option.getD_none] at hval
    have hget : ((db.archivedData t k day r).2.stored t k r).get? (daySinceEpoch day) = none := by
      rw [hsame.stored, hg]
    by_cases hday : day < now / 86400
    · obtain ⟨data, db2, harch, h2, hdata, hfound⟩ := h1.archive_pastDay hf t k hd hr1 hr2 hday hget
      obtain ⟨hval2, hsame2⟩ := archivedData_spec h2.coherent t k day r
      rw [hsame.stored] at hdata
      refine ⟨data, (db2.archivedData t k day r).2, ?_, h2.sameData hsame2, fun _ => hdata⟩
      simp only [Iotic.Database.archivedData, hval, List.isEmpty_nil, if_true, harch, Option.map_some]
      rw [← hfound, ← hval2]
    · obtain ⟨hval2, hsame2⟩ := archivedData_spec hsame.coherent t k day r
      refine ⟨((db.archivedData t k day r).2.archivedData t k day r).1, _, ?_,
        h1.sameData hsame2, fun hlt => absurd hlt hday⟩
      simp only [Iotic.Database.archivedData, hval, List.isEmpty_nil, if_true,
        Iotic.Database.archiveDayUseCase, if_pos (not_lt.mp hday), Option.map_some]

theorem Session.Inv.put {lib : CborLibrary} {width : Name → ThingPropertyKey → ℕ}
    {s : Session} (h : s.Inv lib width) (t : Name) (k : ThingPropertyKey) (dp : Datapoint)
    (hw : dp.length = width t k) :
    (Session.mk s.now (s.db.putDatapoint t k (UInt32.ofInt s.now) dp)).Inv lib width := by
  by_cases he : s.db.lastValues t k = dp
  · rw [putDatapoint_of_eq _ he]
    exact h
  · obtain ⟨hco, _, hstored⟩ := putDatapoint_of_ne h.coherent (UInt32.ofInt s.now) he
    exact ⟨h.now_nonneg, h.now_lt, hco,
      h.consistent.putDatapoint h.now_nonneg h.now_lt t k dp hw hstored⟩

theorem Session.step_inv {lib : CborLibrary} (hf : lib.Faithful)
    {width : Name → ThingPropertyKey → ℕ} {s s' : Session} {op : Operation} (h : s.Inv lib width)
    (hs : s.step lib width op s') : s'.Inv lib width := by
  obtain ⟨hallowed, happly⟩ := hs
  cases op with
  | advance now =>
    obtain rfl := Option.some.inj happly
    exact ⟨h.now_nonneg.trans hallowed.1, hallowed.2, h.coherent, h.consistent.advance hallowed.1⟩
  | putDatapoint t k dp =>
    obtain rfl := Option.some.inj happly
    exact h.put t k dp hallowed
  | archivedData t k day r =>
    obtain ⟨hd, hr1, hr2⟩ := hallowed
    obtain ⟨bytes, db', hdata, hinv, _⟩ := h.request hf t k hd hr1 hr2
    rw [Operation.apply, hdata] at happly
    obtain rfl := Option.some.inj happly
    exact hinv

/- No operation of a run is undefined. -/
theorem Session.step_defined {lib : CborLibrary} (hf : lib.Faithful)
    {width : Name → ThingPropertyKey → ℕ} {s : Session} {op : Operation} (h : s.Inv lib width)
    (hallowed : op.Allowed width s) : ∃ s', s.step lib width op s' := by
  cases op with
  | advance now => exact ⟨_, hallowed, rfl⟩
  | putDatapoint t k dp => exact ⟨_, hallowed, rfl⟩
  | archivedData t k day r =>
    obtain ⟨hd, hr1, hr2⟩ := hallowed
    obtain ⟨bytes, db', hdata, _⟩ := h.request hf t k hd hr1 hr2
    exact ⟨_, ⟨hd, hr1, hr2⟩, by rw [Operation.apply, hdata]; rfl⟩

/- At any point of any run, a request for a past day is answered with the archive of
the raw data as they are at that point. -/
theorem archivedData_recomputed (lib : CborLibrary) (hf : lib.Faithful)
    (width : Name → ThingPropertyKey → ℕ) (start : ℤ) (h0 : 0 ≤ start) (h1 : start < 49673 * 86400)
    (ops : List Operation) (s : Session)
    (hrun : Runs.Run (Session.step lib width) ⟨start, fresh⟩ ops s)
    (t : Name) (k : ThingPropertyKey) (day r : ℤ) (hd : InRange day) (hr1 : 1 ≤ r) (hr2 : r ≤ 1440)
    (hday : day < s.now / 86400) :
    ∃ bytes db', archivedData lib s.now s.db t k day r = some (bytes, db') ∧
      (s.db.rawData t k day).1.bind (fun raw => cborData lib raw (factor r)) = some bytes := by
  have hinv := hrun.invariant (fun _ _ _ h hs => Session.step_inv hf h hs)
    (fresh_inv lib width h0 h1)
  obtain ⟨bytes, db', hdata, _, hpast⟩ := hinv.request hf t k hd hr1 hr2
  refine ⟨bytes, db', hdata, ?_⟩
  rw [(rawData_spec hinv.coherent t k day).1]
  exact hpast hday

/- A reading on day 20000, asked for a day later. -/
def nextDay : Session where
  now := 1728086400
  db := fresh.putDatapoint "relay".toList .power 1728000000 [5]

/- An array with the bucket 5760000 and an array with the 5. -/
def nextDayBytes : Bytes := [0x81, 0x1a, 0x00, 0x57, 0xe4, 0x00, 0x81, 0x05]

theorem nextDay_cborData :
    (nextDay.db.rawData "relay".toList .power 20000).1.bind
      (fun raw => cborData .shortest raw (factor 5)) = some nextDayBytes := by
  decide +kernel

theorem archivedData_recomputed_nextDay :
    ∃ bytes db', archivedData .shortest nextDay.now nextDay.db "relay".toList .power 20000 5 =
        some (bytes, db') ∧
      (nextDay.db.rawData "relay".toList .power 20000).1.bind
        (fun raw => cborData .shortest raw (factor 5)) = some bytes ∧
      bytes = nextDayBytes := by
  obtain ⟨bytes, db', hdata, hraw⟩ :=
    archivedData_recomputed .shortest CborLibrary.shortest_faithful (fun _ _ => 1) 1728000000
      (by decide) (by decide)
      [.putDatapoint "relay".toList .power [5], .advance 1728086400] nextDay
      (.cons ⟨rfl, rfl⟩ (.cons ⟨⟨by decide, by decide⟩, rfl⟩ (.nil _)))
      "relay".toList .power 20000 5 (by decide) (by decide) (by decide) (by decide)
  exact ⟨bytes, db', hdata, hraw, Option.some.inj (hraw.symm.trans nextDay_cborData)⟩

end Iotic.Database
