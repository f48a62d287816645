import Iotic.Database.ArchiveDayUseCase

/-!
# Readings that are not written (DatabasePrivate::putDatapoint)

A reading equal to the one before it is skipped on purpose. The archive averages
what was written, so a value counts once however often it was read.
-/

namespace Iotic.Database
open ByteString Cbor Sequences DatabasePrivate

def putReadings (db : DatabasePrivate) (t : Name) (k : ThingPropertyKey)
    (readings : List (UInt32 × Datapoint)) : DatabasePrivate :=
  readings.foldl (fun db e => db.putDatapoint t k e.1 e.2) db

/- The datapoints stored for a day, in the order of a scan. -/
def storedOf (db : DatabasePrivate) (t : Name) (k : ThingPropertyKey) (day : ℤ) :
    List (UInt32 × Bytes) :=
  ((db.stored t k 0).window (dayStart day) (dayEnd day)).entries

/- Written readings are appended to the day; the last value kept decides. -/
theorem putReadings_storedOf {t : Name} {k : ThingPropertyKey} {day : ℤ}
    (readings : List (UInt32 × Datapoint)) (db : DatabasePrivate) (hc : db.Coherent)
    (hin : ∀ e ∈ readings, dayStart day ≤ e.1 ∧ e.1 < dayEnd day)
    (hs : readings.Pairwise fun a b => a.1 < b.1)
    (hlater : ∀ x ∈ storedOf db t k day, ∀ e ∈ readings, x.1 < e.1) :
    (putReadings db t k readings).Coherent ∧
      storedOf (putReadings db t k readings) t k day = storedOf db t k day ++
        (changesFrom (db.lastValues t k) readings).map fun e => (e.1, bytesOf e.2) := by
  induction readings generalizing db with
  | nil => exact ⟨hc, (List.append_nil _).symm⟩
  | cons e readings ih =>
    obtain ⟨hhd, htl⟩ := List.pairwise_cons.mp hs
    have hin' : ∀ x ∈ readings, dayStart day ≤ x.1 ∧ x.1 < dayEnd day := fun x hx =>
      hin x (List.mem_cons_of_mem e hx)
    show (putReadings (db.putDatapoint t k e.1 e.2) t k readings).Coherent ∧
      storedOf (putReadings (db.putDatapoint t k e.1 e.2) t k readings) t k day = _
    by_cases he : db.lastValues t k = e.2
    · obtain ⟨hco, hst⟩ := ih db hc hin' htl fun x hx y hy =>
        hlater x hx y (List.mem_cons_of_mem e hy)
      simp only [putDatapoint_of_eq e.1 he, changesFrom, if_pos he.symm]
      exact ⟨hco, by rw [hst, he]⟩
    · obtain ⟨hco, hlast, hstored⟩ := putDatapoint_of_ne hc e.1 he
      have hput : storedOf (db.putDatapoint t k e.1 e.2) t k day =
          storedOf db t k day ++ [(e.1, bytesOf e.2)] := by
        simp only [storedOf, hstored, and_self, if_true, SortedMap.window_put,
          if_pos (hin e List.mem_cons_self)]
        exact SortedMap.entries_put_of_lt _ _ _ fun x hx => hlater x hx e List.mem_cons_self
      obtain ⟨hco', hst⟩ := ih _ hco hin' htl fun x hx y hy => by
        rw [hput, List.mem_append, List.mem_singleton] at hx
        rcases hx with hx | rfl
        · exact hlater x hx y (List.mem_cons_of_mem e hy)
        · exact hhd y hy
      refine ⟨hco', ?_⟩
      simp only [hst, hput, hlast, changesFrom, if_neg (Ne.symm he), List.map_cons,
        List.append_assoc, List.singleton_append]

/- A bucket gets the same from two datasets that agree on its timestamps. -/
theorem bucket_congr {kept readings : Dataset} {divisor b : UInt32}
    (h : ∀ e, e.1 / divisor = b → (e ∈ kept.entries ↔ e ∈ readings.entries)) :
    bucket kept divisor b = bucket readings divisor b := by
  have hf : kept.filter (fun e => e.1 / divisor = b) = readings.filter fun e => e.1 / divisor = b := by
    apply SortedMap.ext_get?
    intro ts
    apply Option.ext
    intro v
    simp only [SortedMap.get?_eq_some, SortedMap.filter, List.mem_filter, decide_eq_true_eq]
    constructor
    · rintro ⟨hm, hb⟩
      exact ⟨(h _ hb).mp hm, hb⟩
    · rintro ⟨hm, hb⟩
      exact ⟨(h _ hb).mpr hm, hb⟩
  exact congrArg (fun m : Dataset => m.entries.map Prod.snd) hf

/- The readings that differ from the one before, the first from `last`. -/
def keptReadings (last : Datapoint) (readings : Dataset) : Dataset :=
  ⟨changesFrom last readings.entries, readings.sorted.sublist (changesFrom_sublist _ _)⟩

theorem rawData_putReadings {db : DatabasePrivate} (hc : db.Coherent) (t : Name)
    (k : ThingPropertyKey) (day : ℤ) (readings : Dataset)
    (hin : ∀ e ∈ readings.entries, dayStart day ≤ e.1 ∧ e.1 < dayEnd day)
    (hempty : storedOf db t k day = []) :
    ((putReadings db t k readings.entries).rawData t k day).1 =
      some (keptReadings (db.lastValues t k) readings) := by
  have hlater : ∀ x ∈ storedOf db t k day, ∀ e ∈ readings.entries, x.1 < e.1 := by simp [hempty]
  obtain ⟨hco, hst⟩ := putReadings_storedOf readings.entries db hc hin readings.sorted hlater
  rw [hempty, List.nil_append] at hst
  obtain ⟨d, hd, he⟩ := scanDay_eq (keptReadings (db.lastValues t k) readings).sorted hst
  rw [(rawData_spec hco t k day).1, hd]
  exact congrArg some (SortedMap.ext he)

/- What is archived of a day is the archive of its kept readings: a bucket with no
skipped reading has the entry it would have with every reading written, and a bucket
with skipped readings only has none. -/
theorem archive_of_keptReadings (db : DatabasePrivate) (hc : db.Coherent) (t : Name)
    (k : ThingPropertyKey) (day r : ℤ) (hr1 : 1 ≤ r) (hr2 : r ≤ 1440) (readings : Dataset)
    (hin : ∀ e ∈ readings.entries, dayStart day ≤ e.1 ∧ e.1 < dayEnd day)
    (hempty : storedOf db t k day = []) :
    ∃ kept : Dataset, kept.entries = changesFrom (db.lastValues t k) readings.entries ∧
      ((putReadings db t k readings.entries).rawData t k day).1 = some kept ∧
      ∀ archive full, downsample kept (factor r) defaultWatts = some archive →
        downsample readings (factor r) defaultWatts = some full → ∀ b : UInt32,
        ((∀ e ∈ readings.entries, e.1 / UInt32.ofInt (factor r) = b → e ∈ kept.entries) →
          archive.get? b = full.get? b) ∧
        ((∀ e ∈ kept.entries, e.1 / UInt32.ofInt (factor r) ≠ b) → archive.get? b = none) := by
  have hd := divisor_ne_zero hr1 hr2
  have hsub := changesFrom_sublist (db.lastValues t k) readings.entries
  refine ⟨keptReadings (db.lastValues t k) readings, rfl,
    rawData_putReadings hc t k day readings hin hempty, fun archive full ha hfull b => ⟨?_, ?_⟩⟩
  · intro hall
    have hb : bucket (keptReadings (db.lastValues t k) readings) (UInt32.ofInt (factor r)) b =
        bucket readings (UInt32.ofInt (factor r)) b :=
      bucket_congr fun e he => ⟨fun hm => hsub.subset hm, fun hm => hall e hm he⟩
    rw [downsample_get? hd ha, downsample_get? hd hfull, hb]
  · intro hnone
    have hb : bucket (keptReadings (db.lastValues t k) readings) (UInt32.ofInt (factor r)) b = [] := by
      refine List.map_eq_nil_iff.mpr (List.filter_eq_nil_iff.mpr fun e he => ?_)
      simpa using hnone e he
    rw [downsample_get? hd ha, if_pos hb]

/- In one bucket of day 20000: 0, 0 and 9. -/
def heldReadings : Dataset where
  entries := [(1728000000, [0]), (1728000060, [0]), (1728000120, [9])]
  sorted := by decide

theorem archive_of_keptReadings_held :
    ∃ kept : Dataset, kept.entries =
        changesFrom (fresh.lastValues "relay".toList .power) heldReadings.entries ∧
      ((putReadings fresh "relay".toList .power heldReadings.entries).rawData
        "relay".toList .power 20000).1 = some kept ∧
      ∀ archive full, downsample kept (factor 5) defaultWatts = some archive →
        downsample heldReadings (factor 5) defaultWatts = some full → ∀ b : UInt32,
        ((∀ e ∈ heldReadings.entries, e.1 / UInt32.ofInt (factor 5) = b → e ∈ kept.entries) →
          archive.get? b = full.get? b) ∧
        ((∀ e ∈ kept.entries, e.1 / UInt32.ofInt (factor 5) ≠ b) → archive.get? b = none) :=
  archive_of_keptReadings fresh fresh_coherent "relay".toList .power 20000 5 (by decide) (by decide)
    heldReadings (by decide) rfl

/- The bucket is archived as the mean of 0 and 9, not of 0, 0 and 9. -/
theorem not_skip_transparent :
    ¬ ∀ (t : Name) (k : ThingPropertyKey) (day r : ℤ) (readings : Dataset), InRange day →
      1 ≤ r → r ≤ 1440 →
      (∀ e ∈ readings.entries, dayStart day ≤ e.1 ∧ e.1 < dayEnd day) →
      ((putReadings fresh t k readings.entries).rawData t k day).1.bind
          (fun raw => downsample raw (factor r) defaultWatts) =
        downsample readings (factor r) defaultWatts := by
  intro hall
  have h := hall "relay".toList .power 20000 5 heldReadings (by decide) (by decide) (by decide)
    (by decide)
  have hkept : (((putReadings fresh "relay".toList .power heldReadings.entries).rawData
      "relay".toList .power 20000).1.bind fun raw => downsample raw (factor 5) defaultWatts).map
      (·.entries) = some [(5760000, [5])] := by decide +kernel
  have hfull : (downsample heldReadings (factor 5) defaultWatts).map (·.entries) =
      some [(5760000, [3])] := by decide +kernel
  rw [h, hfull] at hkept
  exact absurd hkept (by decide)

end Iotic.Database
