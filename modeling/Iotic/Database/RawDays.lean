import Iotic.Common.Util
import Iotic.Database.Database

/-!
# The raw data of a calendar day

A day is cut out of a raw map between two 32-bit seconds, while the days that can
be asked for are those of the years 0 to 9999. Read and erase cut alike; the cut
is the day itself from 1970-01-01 to 2106-02-06.
-/

namespace Iotic.Database
open Iotic.Common DatabasePrivate

/- A timestamp as seconds since 1970 lies in the day. -/
def InDay (day : ℤ) (ts : UInt32) : Prop := (ts.toNat : ℤ) / 86400 = day

instance decidableInDay (day : ℤ) (ts : UInt32) : Decidable (InDay day ts) :=
  inferInstanceAs (Decidable (_ = _))

/- Where the scan of a day starts and stops, in seconds. -/
def scanStart (day : ℤ) : ℤ := day * 86400 % 2 ^ 32

def scanStop (day : ℤ) : ℤ := (scanStart day + 86400) % 2 ^ 32

/- The condition: all of the day can be stored, or, where it cannot, nothing is
stored in the day nor where it is looked for. -/
def Unaliased (day : ℤ) (content : Dataset) : Prop :=
  (0 ≤ day ∧ day < 49710) ∨
  (day = 49710 ∧ ∀ e ∈ content.entries, (e.1.toNat : ℤ) < 49710 * 86400) ∨
  ((day < 0 ∨ 49710 < day) ∧ ∀ e ∈ content.entries,
    ¬ (scanStart day ≤ e.1.toNat ∧ (e.1.toNat : ℤ) < scanStop day))

/- `rawData` returns the entries of the day, and `eraseRawData` leaves all others,
in this map and in every other one. -/
structure CutsDay (db : DatabasePrivate) (t : Name) (k : ThingPropertyKey) (day : ℤ)
    (content : Dataset) : Prop where
  read : ∃ d, (db.rawData t k day).1 = some d ∧
    ∀ e, e ∈ d.entries ↔ e ∈ content.entries ∧ InDay day e.1
  erase : ∀ e, e ∈ ((db.eraseRawData t k day).stored t k 0).entries ↔
    e ∈ (db.stored t k 0).entries ∧ ¬ InDay day e.1
  others : ∀ t' k' r', ¬ (t' = t ∧ k' = k ∧ r' = 0) →
    (db.eraseRawData t k day).stored t' k' r' = db.stored t' k' r'

/-! ### The cut in seconds -/

theorem toNat_dayStart_mod (day : ℤ) : ((dayStart day).toNat : ℤ) = scanStart day := by
  have hnonneg : 0 ≤ day * 86400 % 2 ^ 32 := Int.emod_nonneg _ (by decide)
  have hlt : day * 86400 % 2 ^ 32 < 2 ^ 32 := Int.emod_lt_of_pos _ (by decide)
  have hmod : (day * 86400 % 2 ^ 32).toNat % 2 ^ 32 = (day * 86400 % 2 ^ 32).toNat :=
    Nat.mod_eq_of_lt ((Int.toNat_lt hnonneg).mpr hlt)
  unfold dayStart scanStart
  rw [UInt32.ofInt, UInt32.toNat_ofNat']
  exact (congrArg Int.ofNat hmod).trans (Int.toNat_of_nonneg hnonneg)

theorem toNat_dayEnd_mod (day : ℤ) : ((dayEnd day).toNat : ℤ) = scanStop day := by
  have hs := toNat_dayStart_mod day
  have hd : ((24 * 60 * 60 : UInt32)).toNat = 86400 := by decide
  rw [dayEnd, UInt32.toNat_add, hd]
  unfold scanStop
  omega

theorem inScan_iff (day : ℤ) (ts : UInt32) : (dayStart day ≤ ts ∧ ts < dayEnd day) ↔
    (scanStart day ≤ ts.toNat ∧ (ts.toNat : ℤ) < scanStop day) := by
  rw [← toNat_dayStart_mod, ← toNat_dayEnd_mod, UInt32.le_iff_toNat_le, UInt32.lt_iff_toNat_lt]
  omega

theorem toNat_lt_two_pow (ts : UInt32) : (ts.toNat : ℤ) < 2 ^ 32 := by
  have := ts.toNat_lt
  omega

/- A day of which every second can be stored. -/
theorem inScan_iff_inDay {day : ℤ} (h0 : 0 ≤ day) (h1 : day < 49710) (ts : UInt32) :
    (dayStart day ≤ ts ∧ ts < dayEnd day) ↔ InDay day ts := by
  have hstart : day * 86400 % 2 ^ 32 = day * 86400 := Int.emod_eq_of_lt (by omega) (by omega)
  have hstop : (day * 86400 + 86400) % 2 ^ 32 = day * 86400 + 86400 :=
    Int.emod_eq_of_lt (by omega) (by omega)
  rw [inScan_iff]
  unfold scanStop scanStart InDay
  rw [hstart, hstop]
  omega

/- The last day wraps: its scan stops before it starts. -/
theorem not_inScan_last (ts : UInt32) : ¬ (dayStart 49710 ≤ ts ∧ ts < dayEnd 49710) := by
  rw [inScan_iff]
  unfold scanStop scanStart
  omega

theorem inDay_last (ts : UInt32) : InDay 49710 ts ↔ ¬ ((ts.toNat : ℤ) < 49710 * 86400) := by
  have hts := toNat_lt_two_pow ts
  unfold InDay
  omega

/- No second of any other day can be stored. -/
theorem not_inDay {day : ℤ} (h : day < 0 ∨ 49710 < day) (ts : UInt32) : ¬ InDay day ts := by
  have hts := toNat_lt_two_pow ts
  unfold InDay
  omega

/- Where the cut agrees with the day on every stored timestamp. -/
theorem unaliased_iff (day : ℤ) (content : Dataset) :
    (∀ e ∈ content.entries, (dayStart day ≤ e.1 ∧ e.1 < dayEnd day) ↔ InDay day e.1) ↔
      Unaliased day content := by
  unfold Unaliased
  by_cases hin : 0 ≤ day ∧ day < 49710
  · exact ⟨fun _ => Or.inl hin, fun _ e _ => inScan_iff_inDay hin.1 hin.2 e.1⟩
  · by_cases hlast : day = 49710
    · subst hlast
      constructor
      · intro h
        refine Or.inr (Or.inl ⟨rfl, fun e he => ?_⟩)
        by_contra hlt
        exact not_inScan_last e.1 ((h e he).mpr ((inDay_last e.1).mpr hlt))
      · rintro (h | ⟨_, h⟩ | ⟨h, _⟩) e he
        · exact absurd h.2 (lt_irrefl _)
        · exact ⟨fun hs => absurd hs (not_inScan_last e.1),
            fun hd => absurd (h e he) ((inDay_last e.1).mp hd)⟩
        · omega
    · have hout : day < 0 ∨ 49710 < day := by omega
      constructor
      · intro h
        refine Or.inr (Or.inr ⟨hout, fun e he hs => ?_⟩)
        exact not_inDay hout e.1 ((h e he).mp ((inScan_iff day e.1).mpr hs))
      · rintro (h | ⟨h, _⟩ | ⟨_, h⟩) e he
        · exact absurd h hin
        · exact absurd h hlast
        · exact ⟨fun hs => absurd ((inScan_iff day e.1).mp hs) (h e he),
            fun hd => absurd hd (not_inDay hout e.1)⟩

/-! ### Reading and erasing -/

/- The raw map holds this content, as it was put. -/
def Holds (db : DatabasePrivate) (t : Name) (k : ThingPropertyKey) (content : Dataset) : Prop :=
  (db.stored t k 0).entries = content.entries.map fun e => (e.1, bytesOf e.2)

/- The scan of a day, decoded. -/
theorem Holds.rawData {db : DatabasePrivate} {t : Name} {k : ThingPropertyKey} {content : Dataset}
    (h : Holds db t k content) (hc : db.Coherent) (day : ℤ) :
    (db.rawData t k day).1 = some (content.window (dayStart day) (dayEnd day)) := by
  have hwindow : ((db.stored t k 0).window (dayStart day) (dayEnd day)).entries =
      (content.window (dayStart day) (dayEnd day)).entries.map fun e => (e.1, bytesOf e.2) := by
    unfold SortedMap.window SortedMap.filter
    dsimp only
    rw [h, List.filter_map]
    rfl
  obtain ⟨d, hd, he⟩ := scanDay_eq (content.window (dayStart day) (dayEnd day)).sorted hwindow
  rw [(rawData_spec hc t k day).1, hd, SortedMap.ext he]

theorem cutsDay_iff {db : DatabasePrivate} {t : Name} {k : ThingPropertyKey} {content : Dataset}
    (h : Holds db t k content) (hc : db.Coherent) (day : ℤ) :
    CutsDay db t k day content ↔ Unaliased day content := by
  obtain ⟨-, -, hstored⟩ := eraseRawData_spec hc t k day
  rw [← unaliased_iff]
  constructor
  · rintro ⟨⟨d, hd, hmem⟩, -, -⟩ e he
    rw [h.rawData hc day] at hd
    obtain rfl := Option.some.inj hd
    have hm := hmem e
    rw [SortedMap.mem_window] at hm
    exact ⟨fun hs => (hm.mp ⟨he, hs⟩).2, fun hi => (hm.mpr ⟨he, hi⟩).2⟩
  · intro hall
    refine ⟨⟨_, h.rawData hc day, fun e => ?_⟩, fun e => ?_, fun t' k' r' hne => ?_⟩
    · rw [SortedMap.mem_window]
      exact and_congr_right fun he => hall e he
    · rw [hstored, if_pos ⟨rfl, rfl, rfl⟩, SortedMap.mem_eraseScan]
      refine and_congr_right fun he => not_congr ?_
      rw [h] at he
      obtain ⟨x, hx, rfl⟩ := List.mem_map.mp he
      exact hall x hx
    · rw [hstored, if_neg hne]

/-- For every date the route accepts, a day of the years 0 to 9999, and every
content of the raw map: read and erase cut out the calendar day if and only if
the day is not aliased. -/
theorem accepted_cutsDay_iff (date : Name) (hdate : (parseYmd date).ok = true)
    (db : DatabasePrivate) (hc : db.Coherent) (t : Name) (k : ThingPropertyKey)
    (content : Dataset) (h : Holds db t k content) :
    (-719528 ≤ (parseYmd date).sysDays ∧ (parseYmd date).sysDays ≤ 2932896) ∧
      (CutsDay db t k (parseYmd date).sysDays content ↔
        Unaliased (parseYmd date).sysDays content) :=
  ⟨sysDays_bounds hdate, cutsDay_iff h hc _⟩

/- A database with one datapoint. -/
def onePut (timestamp : UInt32) : DatabasePrivate :=
  fresh.putDatapoint "relay".toList .power timestamp [5]

def oneEntry (timestamp : UInt32) : Dataset := SortedMap.empty.put timestamp [5]

theorem onePut_coherent (timestamp : UInt32) : (onePut timestamp).Coherent :=
  (putDatapoint_of_ne fresh_coherent timestamp (by decide)).1

theorem onePut_holds (timestamp : UInt32) :
    Holds (onePut timestamp) "relay".toList .power (oneEntry timestamp) := by
  have hst := (putDatapoint_of_ne fresh_coherent (t := "relay".toList) (k := .power) timestamp
    (by decide : fresh.lastValues "relay".toList .power ≠ [5])).2.2 "relay".toList .power 0
  unfold Holds onePut
  rw [hst, if_pos ⟨rfl, rfl, rfl⟩]
  rfl

theorem accepted_cutsDay_iff_today :
    (-719528 ≤ (parseYmd "2024-10-04".toList).sysDays ∧
      (parseYmd "2024-10-04".toList).sysDays ≤ 2932896) ∧
    (CutsDay (onePut 1728000000) "relay".toList .power (parseYmd "2024-10-04".toList).sysDays
        (oneEntry 1728000000) ↔
      Unaliased (parseYmd "2024-10-04".toList).sysDays (oneEntry 1728000000)) :=
  accepted_cutsDay_iff "2024-10-04".toList (by decide) (onePut 1728000000) (onePut_coherent _)
    "relay".toList .power (oneEntry 1728000000) (onePut_holds _)

/- Half a day into 1970 a datapoint is stored: it is raw data of 2106-02-08. -/
theorem not_cutsDay_aliased :
    (parseYmd "2106-02-08".toList).ok = true ∧ (onePut 63104).Coherent ∧
      Holds (onePut 63104) "relay".toList .power (oneEntry 63104) ∧
      ¬ CutsDay (onePut 63104) "relay".toList .power (parseYmd "2106-02-08".toList).sysDays
        (oneEntry 63104) := by
  have hday : (parseYmd "2106-02-08".toList).sysDays = 49711 := by decide
  refine ⟨by decide, onePut_coherent _, onePut_holds _, fun hcut => ?_⟩
  rw [hday, cutsDay_iff (onePut_holds _) (onePut_coherent _)] at hcut
  rcases hcut with h | ⟨h, _⟩ | ⟨_, h⟩
  · omega
  · omega
  · exact h (63104, [5]) (by decide) (by decide)

end Iotic.Database
