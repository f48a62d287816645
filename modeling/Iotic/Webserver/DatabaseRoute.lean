import Iotic.Database.ArchiveDayUseCase
import Iotic.Database.RawDays

/-!
# The archive route (WebServer.cpp, GET /database/:thing/:key/:date)

The minutes of the query become the `int` that `downsample` divides by and the
suffix of the archive map's name. Key and date are checked, the minutes are not.
-/

namespace Iotic.Webserver
open ByteString Iotic.Common Iotic.Database DatabasePrivate

/-! ### The request -/

/- `min` is empty where the query has none. -/
structure ArchiveRequest where
  thing : Name
  key : Name
  date : Name
  min : Name

inductive Response
  | text (body : Name)
  | cbor (body : Bytes)

/- `magic_enum::enum_cast` over the enumerators of the property keys. -/
def enumCast (keys : List ThingPropertyKey) (name : Name) : Option ThingPropertyKey :=
  keys.find? fun key => key.enumName = name

/- `std::from_chars` into an `int` that has a value already: without digits, or out
of range, that value stays. -/
def fromChars (text : Name) (value : ℤ) : ℤ :=
  let negative := text.head? = some '-'
  let digits := (if negative then text.tail else text).takeWhile Char.isDigit
  let parsed : ℤ := if negative then -(stoi digits : ℤ) else stoi digits
  if digits = [] then value
  else if -2 ^ 31 ≤ parsed ∧ parsed < 2 ^ 31 then parsed
  else value

example : fromChars "60min".toList 5 = 60 ∧ fromChars "-2147483648".toList 5 = -2 ^ 31 ∧
    fromChars "2147483648".toList 5 = 5 ∧ fromChars "+1".toList 5 = 5 := by decide

/- `int min = 5`. -/
def resolution (req : ArchiveRequest) : ℤ := fromChars req.min 5

def day (req : ArchiveRequest) : ℤ := (parseYmd req.date).sysDays

def getDatabase (lib : CborLibrary) (keys : List ThingPropertyKey) (now : ℤ) (db : DatabasePrivate)
    (req : ArchiveRequest) : Option (Response × DatabasePrivate) :=
  match enumCast keys req.key with
  | none => some (.text ("invalid key: ".toList ++ req.key), db)
  | some property =>
    if (parseYmd req.date).ok then
      (archivedData lib now db req.thing property (day req) (resolution req)).map fun r =>
        (.cbor r.1, r.2)
    else some (.text ("invalid date: ".toList ++ req.date), db)

/-! ### The divisions of a request -/

/- What `downsample` is given, if the day has passed and is not archived yet. -/
def archivedSamples (now : ℤ) (db : DatabasePrivate) (thingId : Name) (property : ThingPropertyKey)
    (day resolution : ℤ) : Option Dataset :=
  let (found, db) := db.archivedData thingId property day resolution
  if found.isEmpty ∧ day < now / 86400 then (db.rawData thingId property day).1 else none

def bucketedSamples (keys : List ThingPropertyKey) (now : ℤ) (db : DatabasePrivate)
    (req : ArchiveRequest) : Option Dataset :=
  (enumCast keys req.key).bind fun property =>
    if (parseYmd req.date).ok then
      archivedSamples now db req.thing property (day req) (resolution req)
    else none

/- Every sample is divided into its bucket without a division by zero, and the raw
maps are what they were. -/
structure ArchivesSafely (lib : CborLibrary) (keys : List ThingPropertyKey) (now : ℤ)
    (db : DatabasePrivate) (req : ArchiveRequest) : Prop where
  divisions : ∀ samples, bucketedSamples keys now db req = some samples →
    ∀ e ∈ samples.entries, (bucketTimestamp e.1 (factor (resolution req))).isSome
  spared : ∀ response db', getDatabase lib keys now db req = some (response, db') →
    ∀ t k, db'.stored t k 0 = db.stored t k 0

/-! ### The divisor -/

theorem ofInt_eq_zero_iff (z : ℤ) : UInt32.ofInt z = 0 ↔ z % 2 ^ 32 = 0 := by
  rw [UInt32.ofInt, ← UInt32.toNat_inj, UInt32.toNat_ofNat', UInt32.toNat_zero]
  omega

/- Sixty is four times an odd number. -/
theorem divisor_eq_zero_iff (r : ℤ) : UInt32.ofInt (factor r) = 0 ↔ (2 : ℤ) ^ 30 ∣ r := by
  rw [ofInt_eq_zero_iff]
  unfold factor
  have hbmod : (r * 60).bmod (2 ^ 32) % 2 ^ 32 = r * 60 % 2 ^ 32 := Int.bmod_emod
  rw [hbmod]
  omega

theorem bucketTimestamp_isSome_iff (ts : UInt32) (r : ℤ) :
    (bucketTimestamp ts (factor r)).isSome ↔ ¬ (2 : ℤ) ^ 30 ∣ r := by
  rw [← divisor_eq_zero_iff]
  simp only [bucketTimestamp]
  split_ifs with h <;> simp [h]

/-! ### What a request does -/

theorem bucketedSamples_eq {keys : List ThingPropertyKey} {db : DatabasePrivate} (hc : db.Coherent)
    {req : ArchiveRequest} {property : ThingPropertyKey} {content : Dataset}
    (hkey : enumCast keys req.key = some property) (hdate : (parseYmd req.date).ok = true)
    (h : Holds db req.thing property content) (now : ℤ) :
    bucketedSamples keys now db req =
      if ((db.stored req.thing property (resolution req)).get? (daySinceEpoch (day req))).getD [] = [] ∧
          day req < now / 86400 then
        some (content.window (dayStart (day req)) (dayEnd (day req)))
      else none := by
  obtain ⟨hfound, hsame⟩ := archivedData_spec hc req.thing property (day req) (resolution req)
  have hholds : Holds (db.archivedData req.thing property (day req) (resolution req)).2 req.thing
      property content := by
    unfold Holds
    rw [hsame.stored]
    exact h
  simp only [bucketedSamples, hkey, Option.bind_some, hdate, if_true, archivedSamples,
    hholds.rawData hsame.coherent (day req), hfound, List.isEmpty_iff]

theorem cborData_nil (lib : CborLibrary) {samples : Dataset} (h : samples.entries = []) (f : ℤ) :
    cborData lib samples f = some [] := by
  simp only [cborData, downsample, buckets, h]
  rfl

/- Archiving that is defined has divided by no zero. -/
theorem cborData_divides {lib : CborLibrary} {samples : Dataset} {f : ℤ} {data : Bytes}
    (h : cborData lib samples f = some data) :
    ∀ e ∈ samples.entries, (bucketTimestamp e.1 f).isSome := by
  obtain ⟨ds, hds, -⟩ := Option.bind_eq_some_iff.mp h
  obtain ⟨m, hm, -⟩ := Option.bind_eq_some_iff.mp hds
  exact buckets_divides (by rw [hm]; rfl)

/- Without a divisor only an empty day can be archived, as nothing. -/
theorem cborData_eq_nil {lib : CborLibrary} {samples : Dataset} {f : ℤ} {data : Bytes}
    (hf : UInt32.ofInt f = 0) (h : cborData lib samples f = some data) : data = [] := by
  have hempty : samples.entries = [] := by
    refine List.eq_nil_iff_forall_not_mem.mpr fun e he => ?_
    have hdefined := cborData_divides h e he
    simp [bucketTimestamp, hf] at hdefined
  rw [cborData_nil lib hempty] at h
  exact (Option.some.inj h).symm

/- The archive goes into a map of its own: at resolution 0, the raw map's, there is
nothing to write. -/
theorem putArchivedData_spared {db : DatabasePrivate} (hc : db.Coherent) {lib : CborLibrary}
    {samples : Dataset} {data : Bytes} (t : Name) (k : ThingPropertyKey) (day r : ℤ)
    (hdata : cborData lib samples (factor r) = some data) :
    (db.putArchivedData t k day r data).Coherent ∧
      ∀ t' k', (db.putArchivedData t k day r data).stored t' k' 0 = db.stored t' k' 0 := by
  by_cases hne : data = []
  · subst hne
    exact ⟨hc, fun _ _ => rfl⟩
  · obtain ⟨hco, hstored⟩ := putArchivedData_spec hc t k day r hne
    refine ⟨hco, fun t' k' => ?_⟩
    rw [hstored, if_neg]
    rintro ⟨-, -, rfl⟩
    exact hne (cborData_eq_nil (by decide) hdata)

theorem archiveDayUseCase_spared {db db' : DatabasePrivate} (hc : db.Coherent) {lib : CborLibrary}
    {now : ℤ} {t : Name} {k : ThingPropertyKey} {day r : ℤ}
    (h : archiveDayUseCase lib now db t k day r = some db') :
    db'.Coherent ∧ ∀ t' k', db'.stored t' k' 0 = db.stored t' k' 0 := by
  obtain ⟨-, hsame⟩ := rawData_spec hc t k day
  unfold archiveDayUseCase at h
  dsimp only at h
  split_ifs at h with hpast
  · obtain rfl := Option.some.inj h
    exact ⟨hc, fun _ _ => rfl⟩
  · obtain ⟨samples, -, h⟩ := Option.bind_eq_some_iff.mp h
    obtain ⟨data, hdata, rfl⟩ := Option.map_eq_some_iff.mp h
    obtain ⟨hco, hspared⟩ := putArchivedData_spared hsame.coherent t k day r hdata
    refine ⟨hco, fun t' k' => ?_⟩
    rw [hspared, hsame.stored]

theorem archivedData_spared {db db' : DatabasePrivate} (hc : db.Coherent) {lib : CborLibrary}
    {now : ℤ} {t : Name} {k : ThingPropertyKey} {day r : ℤ} {data : Bytes}
    (h : archivedData lib now db t k day r = some (data, db')) :
    db'.Coherent ∧ ∀ t' k', db'.stored t' k' 0 = db.stored t' k' 0 := by
  obtain ⟨-, hsame⟩ := archivedData_spec hc t k day r
  unfold Iotic.Database.archivedData at h
  dsimp only at h
  split_ifs at h with hfound
  · obtain ⟨db2, harch, h⟩ := Option.map_eq_some_iff.mp h
    obtain ⟨hco, hspared⟩ := archiveDayUseCase_spared hsame.coherent harch
    obtain ⟨-, hsame2⟩ := archivedData_spec hco t k day r
    obtain rfl : (db2.archivedData t k day r).2 = db' := congrArg Prod.snd h
    refine ⟨hsame2.coherent, fun t' k' => ?_⟩
    rw [hsame2.stored, hspared, hsame.stored]
  · obtain rfl : (db.archivedData t k day r).2 = db' := congrArg Prod.snd (Option.some.inj h)
    exact ⟨hsame.coherent, fun t' k' => by rw [hsame.stored]⟩

/- Whatever is asked for, no raw map changes. -/
theorem getDatabase_spared {db db' : DatabasePrivate} (hc : db.Coherent) {lib : CborLibrary}
    {keys : List ThingPropertyKey} {now : ℤ} {req : ArchiveRequest} {response : Response}
    (h : getDatabase lib keys now db req = some (response, db')) :
    db'.Coherent ∧ ∀ t k, db'.stored t k 0 = db.stored t k 0 := by
  unfold getDatabase at h
  split at h
  · obtain rfl := (Prod.mk.inj (Option.some.inj h)).2
    exact ⟨hc, fun _ _ => rfl⟩
  · split_ifs at h with hok
    · obtain ⟨⟨data, db2⟩, hdata, h⟩ := Option.map_eq_some_iff.mp h
      obtain rfl := (Prod.mk.inj h).2
      exact archivedData_spared hc hdata
    · obtain rfl := (Prod.mk.inj (Option.some.inj h)).2
      exact ⟨hc, fun _ _ => rfl⟩

/- A request that is answered has divided by no zero. -/
theorem getDatabase_divides {db db' : DatabasePrivate} {lib : CborLibrary}
    {keys : List ThingPropertyKey} {now : ℤ} {req : ArchiveRequest} {response : Response}
    (h : getDatabase lib keys now db req = some (response, db')) :
    ∀ samples, bucketedSamples keys now db req = some samples →
      ∀ e ∈ samples.entries, (bucketTimestamp e.1 (factor (resolution req))).isSome := by
  intro samples hs
  obtain ⟨property, hkey, hs⟩ := Option.bind_eq_some_iff.mp hs
  simp only [getDatabase, hkey] at h
  split_ifs at hs h with hok
  obtain ⟨r, hr, -⟩ := Option.map_eq_some_iff.mp h
  unfold archivedSamples at hs
  unfold Iotic.Database.archivedData archiveDayUseCase at hr
  dsimp only at hs hr
  split_ifs at hs with hfound
  rw [if_pos hfound.1, if_neg (not_le.mpr hfound.2), hs] at hr
  obtain ⟨db2, h2, -⟩ := Option.map_eq_some_iff.mp hr
  obtain ⟨data, hdata, -⟩ := Option.map_eq_some_iff.mp h2
  exact cborData_divides hdata

/-- For every request for a past day, whatever the day's raw data and the text of
the minutes: the request is safe if and only if the minutes are no multiple of
2^30, or the day has no raw data, or it is archived already. -/
theorem getDatabase_archivesSafely_iff (lib : CborLibrary) (keys : List ThingPropertyKey) (now : ℤ)
    (db : DatabasePrivate) (hc : db.Coherent) (req : ArchiveRequest) (property : ThingPropertyKey)
    (hkey : enumCast keys req.key = some property) (hdate : (parseYmd req.date).ok = true)
    (hpast : day req < now / 86400) (content : Dataset) (h : Holds db req.thing property content) :
    ArchivesSafely lib keys now db req ↔
      ¬ (2 : ℤ) ^ 30 ∣ resolution req ∨
      (content.window (dayStart (day req)) (dayEnd (day req))).entries = [] ∨
      ((db.stored req.thing property (resolution req)).get? (daySinceEpoch (day req))).getD [] ≠ [] := by
  have hsamples := bucketedSamples_eq hc hkey hdate h now
  constructor
  · rintro ⟨hdiv, -⟩
    by_contra hnot
    simp only [not_or, not_not] at hnot
    obtain ⟨hdvd, hraw, hfound⟩ := hnot
    rw [if_pos ⟨hfound, hpast⟩] at hsamples
    obtain ⟨e, es, he⟩ := List.exists_cons_of_ne_nil hraw
    have hdefined := hdiv _ hsamples e (by rw [he]; exact List.mem_cons_self)
    exact (bucketTimestamp_isSome_iff e.1 _).mp hdefined hdvd
  · intro hcond
    refine ⟨fun samples hs e he => ?_, fun response db' hr => (getDatabase_spared hc hr).2⟩
    rw [bucketTimestamp_isSome_iff]
    rw [hsamples] at hs
    split_ifs at hs with hfound
    obtain rfl := Option.some.inj hs
    rcases hcond with hdvd | hraw | harchived
    · exact hdvd
    · rw [hraw] at he
      cases he
    · exact absurd hfound.1 harchived

/- Day 20000 of the relay, asked for a day later. -/
def relayRequest (min : Name) : ArchiveRequest := ⟨"relay".toList, "power".toList, "2024-10-04".toList, min⟩

theorem getDatabase_archivesSafely_iff_relay :
    ArchivesSafely .shortest [.power] 1728086400 (onePut 1728000000) (relayRequest "15".toList) ↔
      ¬ (2 : ℤ) ^ 30 ∣ resolution (relayRequest "15".toList) ∨
      ((oneEntry 1728000000).window (dayStart (day (relayRequest "15".toList)))
        (dayEnd (day (relayRequest "15".toList)))).entries = [] ∨
      (((onePut 1728000000).stored "relay".toList .power (resolution (relayRequest "15".toList))).get?
        (daySinceEpoch (day (relayRequest "15".toList)))).getD [] ≠ [] :=
  getDatabase_archivesSafely_iff .shortest [.power] 1728086400 (onePut 1728000000)
    (onePut_coherent _) (relayRequest "15".toList) .power (by decide) (by decide) (by decide)
    (oneEntry 1728000000) (onePut_holds _)

/- `?min=0` with a datapoint on the day: the day is divided by zero. -/
theorem not_archivesSafely_zero :
    enumCast [.power] (relayRequest ['0']).key = some .power ∧
      (parseYmd (relayRequest ['0']).date).ok = true ∧ day (relayRequest ['0']) < 1728086400 / 86400 ∧
      (onePut 1728000000).Coherent ∧
      Holds (onePut 1728000000) "relay".toList .power (oneEntry 1728000000) ∧
      ¬ ArchivesSafely .shortest [.power] 1728086400 (onePut 1728000000) (relayRequest ['0']) := by
  refine ⟨by decide, by decide, by decide, onePut_coherent _, onePut_holds _, fun hsafe => ?_⟩
  have hsamples : bucketedSamples [.power] 1728086400 (onePut 1728000000) (relayRequest ['0']) = _ :=
    bucketedSamples_eq (onePut_coherent _) (by decide) (by decide) (onePut_holds _) 1728086400
  rw [if_pos (by decide)] at hsamples
  have hdefined := hsafe.divisions _ hsamples (1728000000, [5]) (by decide)
  exact (bucketTimestamp_isSome_iff _ _).mp hdefined (by decide)

end Iotic.Webserver
