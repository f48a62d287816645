import Iotic.Lib.Runs
import Iotic.Lib.Sequences
import Iotic.Things.Thing
import Mathlib.Algebra.BigOperators.Group.List.Basic
import Mathlib.Logic.Function.Basic

/-!
# Daily statistics

stats/StatsDaily.cpp: the energy every solar inverter has delivered since midnight
is summed up from its power readings, and published with each of them. A reading is
taken to have lasted since the reading before.
-/

namespace Iotic.Stats
open Things

/-! ### The statistics of one thing -/

/- `static_cast<int>`. -/
def toInt (n : ℤ) : ℤ := n.bmod (2 ^ 32)

structure ThingStats where
  currentDay : ℤ
  timestamp : ℤ
  energyDelivered : List ℤ
  deriving DecidableEq, Repr

/- What `operator[]` of the map makes for an id it does not hold. -/
def ThingStats.initial : ThingStats := ⟨0, 0, []⟩

/- `stats.energyDelivered[i] += value[i] * (seconds - stats.timestamp)`, computed in
64 bits and stored as an `int`; undefined behind the end of `energyDelivered`. -/
def addEnergy (elapsed : ℤ) : List ℤ → List ℤ → Option (List ℤ)
  | energyDelivered, [] => some energyDelivered
  | [], _ :: _ => none
  | e :: energyDelivered, v :: value =>
    (addEnergy elapsed energyDelivered value).map (toInt (e + v * elapsed) :: ·)

/- A new day starts from nothing. -/
def ThingStats.rollOver (s : ThingStats) (seconds : ℤ) (value : List ℤ) : ThingStats :=
  let day := toInt (seconds.tdiv (24 * 3600))
  if day ≠ s.currentDay then ⟨day, toInt seconds, List.replicate value.length 0⟩ else s

/- The callback on dcPower, with the dcEnergy it sets: Ws converted into kWm. -/
def ThingStats.onDcPower (s : ThingStats) (seconds : ℤ) (value : List ℤ) :
    Option (ThingStats × List ℤ) :=
  let stats := s.rollOver seconds value
  (addEnergy (seconds - stats.timestamp) stats.energyDelivered value).map fun energyDelivered =>
    (⟨stats.currentDay, toInt seconds, energyDelivered⟩,
      (energyDelivered.take value.length).map (·.tdiv 60000))

/-! ### All things -/

/- A dcPower value of a thing, and the clock when it is observed. -/
structure Reading where
  thing : Thing
  seconds : ℤ
  value : List ℤ
  deriving DecidableEq, Repr

abbrev StatsDaily := Name → ThingStats

namespace StatsDaily

def start : StatsDaily := fun _ => .initial

/- Only solar inverters are subscribed to; the others leave no trace. -/
def onReading (stats : StatsDaily) (r : Reading) : Option (StatsDaily × Option (List ℤ)) :=
  if r.thing.type ≠ .SolarInverter then some (stats, none)
  else ((stats r.thing.id).onDcPower r.seconds r.value).map fun x =>
    (Function.update stats r.thing.id x.1, some x.2)

def run (stats : StatsDaily) (readings : List Reading) : Option StatsDaily :=
  readings.foldlM (fun stats r => (stats.onReading r).map Prod.fst) stats

/- The dcEnergy published at a reading, after the ones before it. -/
def published (before : List Reading) (r : Reading) : Option (Option (List ℤ)) :=
  (run start before).bind fun stats => (stats.onReading r).map Prod.snd

end StatsDaily

/-! ### What the energy should be -/

def secondsPerDay : ℤ := 86400

namespace Reading

/- The UTC day. -/
def day (r : Reading) : ℤ := r.seconds / secondsPerDay

/- The inverter that is read, if it is one. -/
def inverter? (r : Reading) : Option Name :=
  if r.thing.type = .SolarInverter then some r.thing.id else none

/- What channel `i` has delivered up to the last reading, in Ws: every reading but the
first times the seconds since the one before. -/
def energy (i : ℕ) (readings : List Reading) : ℤ :=
  ((Sequences.steps readings).map fun p => p.2.value.getD i 0 * (p.2.seconds - p.1.seconds)).sum

/- The readings of one inverter among those of all. -/
def own (id : Name) (readings : List Reading) : List Reading :=
  readings.filter fun r => r.inverter? = some id

def onDay (day : ℤ) (readings : List Reading) : List Reading :=
  readings.filter fun r => r.day = day

/- The energies of the day of `r` up to `r`, for each channel. -/
def energies (r : Reading) (before : List Reading) : List ℤ :=
  (List.range r.value.length).map fun i => energy i (onDay r.day before ++ [r])

end Reading

open Reading

/- The clock does not go back, it is past the first day of 1970 and fits an `int`; the
readings of an inverter have one width, and the energies of its days fit an `int`. -/
structure Regular (readings : List Reading) : Prop where
  ordered : readings.Pairwise fun a b => a.seconds ≤ b.seconds
  clock : ∀ r ∈ readings, secondsPerDay ≤ r.seconds ∧ r.seconds < 2 ^ 31
  width : ∀ a ∈ readings, ∀ b ∈ readings, a.inverter? ≠ none → a.inverter? = b.inverter? →
    a.value.length = b.value.length
  inRange : ∀ pre r post, readings = pre ++ r :: post → ∀ id, r.inverter? = some id →
    ∀ e ∈ r.energies (own id pre), -2 ^ 31 ≤ e ∧ e < 2 ^ 31

/-! ### The energies after one more reading -/

namespace Reading

theorem length_energies (r : Reading) (before : List Reading) :
    (r.energies before).length = r.value.length := by
  rw [energies, List.length_map, List.length_range]

theorem energy_single (i : ℕ) (r : Reading) : energy i [r] = 0 := rfl

theorem energy_snoc (i : ℕ) (l : List Reading) (last r : Reading) :
    energy i (l ++ [last] ++ [r]) =
      energy i (l ++ [last]) + r.value.getD i 0 * (r.seconds - last.seconds) := by
  rw [energy, Sequences.steps_snoc, List.map_append, List.sum_append]
  simp [energy]

theorem energies_first {r : Reading} {before : List Reading} (h : onDay r.day before = []) :
    r.energies before = List.replicate r.value.length 0 := by
  rw [energies, h]
  simp [energy_single]

theorem energies_next {before : List Reading} {last r : Reading} (hday : last.day = r.day)
    (hwidth : last.value.length = r.value.length) :
    r.energies (before ++ [last]) =
      List.zipWith (fun e v => e + v * (r.seconds - last.seconds)) (last.energies before) r.value := by
  have hsame : onDay r.day (before ++ [last]) = onDay last.day before ++ [last] := by
    simp [onDay, hday]
  apply List.ext_getElem
  · simp [length_energies, hwidth]
  · intro i hi hi'
    have hv : i < r.value.length := by rwa [length_energies] at hi
    simp [energies, hsame, energy_snoc, hv, -List.append_assoc]

/- On a clock that does not go back a day that is over does not come again. -/
theorem onDay_eq_nil {before : List Reading} {last r : Reading}
    (h : (before ++ [last] ++ [r]).Pairwise fun a b => a.seconds ≤ b.seconds)
    (hday : last.day ≠ r.day) : onDay r.day (before ++ [last]) = [] := by
  have hmono : ∀ a b : Reading, a.seconds ≤ b.seconds → a.day ≤ b.day := fun a b hab =>
    Int.ediv_le_ediv (by decide) hab
  obtain ⟨hbefore, -, hr⟩ := List.pairwise_append.mp h
  have hlast : last.day < r.day :=
    lt_of_le_of_ne (hmono _ _ (hr last (by simp) r (by simp))) hday
  refine List.filter_eq_nil_iff.mpr fun a ha => ?_
  have hle : a.day ≤ last.day := by
    rcases List.mem_append.mp ha with ha | ha
    · exact hmono _ _ ((List.pairwise_append.mp hbefore).2.2 a ha last (by simp))
    · rw [List.mem_singleton.mp ha]
  simpa using (hle.trans_lt hlast).ne

end Reading

/-! ### One thing reading after reading -/

theorem toInt_eq {n : ℤ} (h : -2 ^ 31 ≤ n ∧ n < 2 ^ 31) : toInt n = n :=
  Int.bmod_eq_of_le (by omega) (by omega)

theorem map_toInt {l : List ℤ} (h : ∀ e ∈ l, -2 ^ 31 ≤ e ∧ e < 2 ^ 31) : l.map toInt = l := by
  conv_rhs => rw [← List.map_id l]
  exact List.map_congr_left fun e he => toInt_eq (h e he)

theorem addEnergy_eq (elapsed : ℤ) {energyDelivered value : List ℤ}
    (h : energyDelivered.length = value.length) :
    addEnergy elapsed energyDelivered value =
      some ((List.zipWith (fun e v => e + v * elapsed) energyDelivered value).map toInt) := by
  induction energyDelivered generalizing value with
  | nil =>
    obtain rfl := List.length_eq_zero_iff.mp h.symm
    rfl
  | cons e es ih =>
    cases value with
    | nil => cases h
    | cons v value =>
      rw [addEnergy, ih (Nat.succ.inj h)]
      rfl

theorem zipWith_replicate_zero (value : List ℤ) :
    List.zipWith (fun e v => e + v * 0) (List.replicate value.length 0) value =
      List.replicate value.length 0 := by
  induction value with
  | nil => rfl
  | cons v value ih => simpa [List.replicate_succ] using ih

namespace ThingStats

/- What is stored for a thing after its readings. -/
def account (readings : List Reading) : ThingStats :=
  (readings.getLast?.map fun r => ⟨r.day, r.seconds, r.energies readings.dropLast⟩).getD .initial

theorem account_snoc (before : List Reading) (r : Reading) :
    account (before ++ [r]) = ⟨r.day, r.seconds, r.energies before⟩ := by
  simp [account]

/- On the first reading of a day there is nothing but zeros, on a later one what was
stored at the reading before. -/
theorem rollOver_account {before : List Reading} {r : Reading}
    (hordered : (before ++ [r]).Pairwise fun a b => a.seconds ≤ b.seconds)
    (hclock : secondsPerDay ≤ r.seconds ∧ r.seconds < 2 ^ 31) :
    (∃ init last, before = init ++ [last] ∧ last.day = r.day ∧
      (account before).rollOver r.seconds r.value = account before) ∨
    (Reading.onDay r.day before = [] ∧ (account before).rollOver r.seconds r.value =
      ⟨r.day, r.seconds, List.replicate r.value.length 0⟩) := by
  obtain ⟨hpast, hfits⟩ := hclock
  unfold secondsPerDay at hpast
  have hday : toInt (r.seconds.tdiv (24 * 3600)) = r.day := by
    rw [Int.tdiv_eq_ediv_of_nonneg (by omega)]
    exact toInt_eq (by omega)
  have hseconds : toInt r.seconds = r.seconds := toInt_eq (by omega)
  have hpos : 0 < r.day := by
    unfold Reading.day secondsPerDay
    omega
  unfold rollOver
  rw [hday, hseconds]
  rcases List.eq_nil_or_concat before with rfl | ⟨init, last, hbefore⟩
  · right
    exact ⟨rfl, if_pos hpos.ne'⟩
  · rw [List.concat_eq_append] at hbefore
    subst hbefore
    rw [account_snoc]
    by_cases hsame : last.day = r.day
    · left
      exact ⟨init, last, rfl, hsame, if_neg (not_not.mpr hsame.symm)⟩
    · right
      exact ⟨Reading.onDay_eq_nil hordered hsame, if_pos (Ne.symm hsame)⟩

/- One more reading adds its share to the account and publishes it. -/
theorem onDcPower_account {before : List Reading} {r : Reading}
    (hordered : (before ++ [r]).Pairwise fun a b => a.seconds ≤ b.seconds)
    (hclock : secondsPerDay ≤ r.seconds ∧ r.seconds < 2 ^ 31)
    (hwidth : ∀ a ∈ before, a.value.length = r.value.length)
    (hrange : ∀ e ∈ r.energies before, -2 ^ 31 ≤ e ∧ e < 2 ^ 31) :
    (account before).onDcPower r.seconds r.value =
      some (account (before ++ [r]), (r.energies before).map (·.tdiv 60000)) := by
  have hseconds : toInt r.seconds = r.seconds := toInt_eq (by
    unfold secondsPerDay at hclock
    omega)
  have htake : (r.energies before).take r.value.length = r.energies before := by
    rw [← r.length_energies before, List.take_length]
  have hadd : addEnergy (r.seconds - ((account before).rollOver r.seconds r.value).timestamp)
      ((account before).rollOver r.seconds r.value).energyDelivered r.value =
        some (r.energies before) ∧
      ((account before).rollOver r.seconds r.value).currentDay = r.day := by
    rcases rollOver_account hordered hclock with ⟨init, last, rfl, hday, hroll⟩ | ⟨hfirst, hroll⟩
    · have hlast : last.value.length = r.value.length := hwidth last (by simp)
      rw [hroll, account_snoc]
      refine ⟨?_, hday⟩
      rw [addEnergy_eq _ (by rw [Reading.length_energies, hlast]), ← Reading.energies_next hday hlast,
        map_toInt hrange]
    · rw [hroll]
      refine ⟨?_, rfl⟩
      rw [sub_self, addEnergy_eq _ (List.length_replicate), zipWith_replicate_zero,
        ← Reading.energies_first hfirst, map_toInt hrange]
  rw [onDcPower, hadd.1, hadd.2, Option.map_some, hseconds, htake, account_snoc]

/- The readings of one thing alone. -/
def run (readings : List Reading) : Option ThingStats :=
  readings.foldlM (fun s r => (s.onDcPower r.seconds r.value).map Prod.fst) .initial

end ThingStats

/-! ### All things reading after reading -/

namespace StatsDaily

/- Every inverter has its own record. -/
theorem run_eq_some_iff (readings : List Reading) (stats : StatsDaily) :
    run start readings = some stats ↔ ∀ id, ThingStats.run (own id readings) = some (stats id) := by
  have hstep : (fun (stats : StatsDaily) r => (stats.onReading r).map Prod.fst) =
      Runs.keyed Reading.inverter? fun s r => (s.onDcPower r.seconds r.value).map Prod.fst := by
    funext stats r
    unfold onReading Runs.keyed Reading.inverter?
    by_cases h : r.thing.type = .SolarInverter
    · simp [h, Function.comp_def]
    · simp [h]
  unfold run
  rw [hstep]
  exact Runs.foldlM_keyed_iff Reading.inverter? _ readings start stats

theorem published_eq {before : List Reading} {stats : StatsDaily} {r : Reading} {id : Name}
    (hrun : run start before = some stats) (hid : r.inverter? = some id) :
    published before r = ((stats id).onDcPower r.seconds r.value).map fun x => some x.2 := by
  unfold Reading.inverter? at hid
  split_ifs at hid with htype
  obtain rfl := Option.some.inj hid
  unfold published onReading
  rw [hrun, Option.bind_some, if_neg (not_not.mpr htype), Option.map_map]
  rfl

end StatsDaily

namespace Regular

theorem init {before : List Reading} {r : Reading} (h : Regular (before ++ [r])) : Regular before where
  ordered := (List.pairwise_append.mp h.ordered).1
  clock := fun a ha => h.clock a (List.mem_append_left [r] ha)
  width := fun a ha b hb => h.width a (List.mem_append_left [r] ha) b (List.mem_append_left [r] hb)
  inRange := fun pre a post hsplit => h.inRange pre a (post ++ [r]) (by rw [hsplit]; simp)

theorem upTo {readings before after : List Reading} {r : Reading} (h : Regular readings)
    (hsplit : readings = before ++ r :: after) : Regular (before ++ [r]) := by
  induction after using List.reverseRecOn generalizing readings with
  | nil => rwa [← hsplit]
  | append_singleton after a ih =>
    rw [← List.cons_append, ← List.append_assoc] at hsplit
    rw [hsplit] at h
    exact ih h.init rfl

/- What the account asks of the next reading of an inverter. -/
theorem onDcPower_own {before : List Reading} {r : Reading} {id : Name}
    (h : Regular (before ++ [r])) (hid : r.inverter? = some id) :
    (ThingStats.account (own id before)).onDcPower r.seconds r.value =
      some (ThingStats.account (own id before ++ [r]),
        (r.energies (own id before)).map (·.tdiv 60000)) := by
  have hr : r ∈ before ++ [r] := by simp
  have hsub : (own id before ++ [r]).Sublist (before ++ [r]) :=
    List.filter_sublist.append (List.Sublist.refl [r])
  have hwidth : ∀ a ∈ own id before, a.value.length = r.value.length := by
    intro a ha
    obtain ⟨hmem, hown⟩ := List.mem_filter.mp ha
    have haid : a.inverter? = some id := by simpa using hown
    have hsome : a.inverter? ≠ none := by simp [haid]
    exact h.width a (List.mem_append_left [r] hmem) r hr hsome (by rw [haid, hid])
  exact ThingStats.onDcPower_account (h.ordered.sublist hsub) (h.clock r hr) hwidth
    (h.inRange before r [] rfl id hid)

/- Every record is the account of its inverter. -/
theorem run_own {readings : List Reading} (h : Regular readings) (id : Name) :
    ThingStats.run (own id readings) = some (ThingStats.account (own id readings)) := by
  induction readings using List.reverseRecOn with
  | nil => rfl
  | append_singleton before r ih =>
    have hbefore := ih h.init
    by_cases hid : r.inverter? = some id
    · have hown : own id (before ++ [r]) = own id before ++ [r] := by simp [own, hid]
      rw [hown]
      unfold ThingStats.run at hbefore ⊢
      rw [List.foldlM_append, hbefore]
      simp [h.onDcPower_own hid]
    · have hown : own id (before ++ [r]) = own id before := by simp [own, hid]
      rwa [hown]

theorem run_start {readings : List Reading} (h : Regular readings) :
    StatsDaily.run StatsDaily.start readings =
      some fun id => ThingStats.account (own id readings) :=
  (StatsDaily.run_eq_some_iff readings _).mpr h.run_own

end Regular

namespace StatsDaily

/-- At every reading of an inverter the energies published are, channel by channel, the
sum over its readings of the day from the second on of the reading times the seconds
since the one before, divided by 60000. At the first reading of a day they are zero, and
whatever else is read in between makes no difference. -/
theorem published_dcEnergy {readings before after : List Reading} {r : Reading} {id : Name}
    (h : Regular readings) (hsplit : readings = before ++ r :: after)
    (hid : r.inverter? = some id) :
    published before r = some (some ((List.range r.value.length).map fun i =>
      (energy i (onDay r.day (own id before) ++ [r])).tdiv 60000)) ∧
    (onDay r.day (own id before) = [] →
      published before r = some (some (List.replicate r.value.length 0))) ∧
    ∀ other, own id other = own id before → (run start other).isSome →
      published other r = published before r := by
  have hr : Regular (before ++ [r]) := h.upTo hsplit
  have hrun := hr.init.run_start
  have hpub : published before r =
      some (some ((r.energies (own id before)).map (·.tdiv 60000))) := by
    rw [published_eq hrun hid, hr.onDcPower_own hid, Option.map_some]
  refine ⟨?_, ?_, ?_⟩
  · rw [hpub, energies, List.map_map]
    rfl
  · intro hfirst
    rw [hpub, energies_first hfirst, List.map_replicate]
    rfl
  · intro other hown hsome
    obtain ⟨stats, hstats⟩ := Option.isSome_iff_exists.mp hsome
    have hrecord := (run_eq_some_iff other stats).mp hstats id
    rw [hown, hr.init.run_own id] at hrecord
    rw [published_eq hstats hid, published_eq hrun hid, ← Option.some.inj hrecord]

/-- Two inverters in turn: 2000 W for 90 s are published as 3 at the first one. -/
theorem published_dcEnergy_interleaved :
    published [⟨⟨['a'], .SolarInverter, 0⟩, 172790, [500]⟩, ⟨⟨['a'], .SolarInverter, 0⟩, 172810, [500]⟩,
      ⟨⟨['b'], .SolarInverter, 1⟩, 172850, [40, 90]⟩]
      ⟨⟨['a'], .SolarInverter, 0⟩, 172900, [2000]⟩ = some (some [3]) := by
  have hreg : Regular ([⟨⟨['a'], .SolarInverter, 0⟩, 172790, [500]⟩,
      ⟨⟨['a'], .SolarInverter, 0⟩, 172810, [500]⟩, ⟨⟨['b'], .SolarInverter, 1⟩, 172850, [40, 90]⟩] ++
      ⟨⟨['a'], .SolarInverter, 0⟩, 172900, [2000]⟩ :: []) := by
    refine ⟨by decide, by decide, by decide, ?_⟩
    simp only [List.cons_append, List.nil_append, Runs.forall_split_cons]
    simp [inverter?]
    decide
  have hid : inverter? ⟨⟨['a'], .SolarInverter, 0⟩, 172900, [2000]⟩ = some ['a'] := rfl
  rw [(published_dcEnergy hreg rfl hid).1]
  decide

end StatsDaily

end Iotic.Stats
