import Iotic.Database.Averages
import Iotic.Database.DayView

/-!
# Power readings as they are stored (the subscriptions of Database::Database)

Readings are watts; what is stored is decawatts. Five is added before the division,
which truncates: that rounds to the nearest decawatt from -5 W on, and below it
towards zero by up to 14 W.
-/

namespace Iotic.Database
open Sequences DatabasePrivate

/-! ### Decawatts -/

/- `(int16_t)((value + 5) / 10)`. -/
def decaWatts (value : ℤ) : Int16 := Int16.ofInt ((value + 5).tdiv 10)

theorem toInt_decaWatts {value : ℤ} (h : |value| ≤ 327670) :
    (decaWatts value).toInt = (value + 5).tdiv 10 := by
  obtain ⟨hlo, hhi⟩ := abs_le.mp h
  have hq := Int.mul_tdiv_add_tmod (value + 5) 10
  have hr1 := Int.tmod_lt_of_pos (value + 5) (show (0 : ℤ) < 10 by decide)
  have hr2 := Int.lt_tmod_of_pos (value + 5) (show (0 : ℤ) < 10 by decide)
  have hr3 : 0 ≤ value + 5 → 0 ≤ (value + 5).tmod 10 := Int.tmod_nonneg 10
  exact Int16.toInt_ofInt_of_le (by omega) (by omega)

/- What the conversion adds to a reading: 5 less the remainder. -/
theorem decaWatts_error {value : ℤ} (h : |value| ≤ 327670) :
    10 * (decaWatts value).toInt = value + 5 - (value + 5).tmod 10 := by
  have hq := Int.mul_tdiv_add_tmod (value + 5) 10
  rw [toInt_decaWatts h]
  omega

def mean (values : List ℤ) : ℚ := (values.sum : ℚ) / values.length

/- The readings of a bucket, in watts, and the decawatts `value` it is archived with. -/
structure WithinTenWatts (readings : List ℤ) (value : Int16) : Prop where
  conversion : |10 * mean (readings.map fun v => (decaWatts v).toInt) - mean readings| ≤ 5
  rounding : |10 * (value.toInt : ℚ) - 10 * mean (readings.map fun v => (decaWatts v).toInt)| ≤ 5
  total : |10 * (value.toInt : ℚ) - mean readings| ≤ 10

/- The remainders `(v + 5) % 10`, which are negative below -5. -/
def remainders (readings : List ℤ) : List ℤ := readings.map fun v => (v + 5).tmod 10

theorem sum_remainders_le (readings : List ℤ) :
    (remainders readings).sum ≤ 9 * readings.length := by
  have h := List.sum_le_card_nsmul (remainders readings) 9 fun x hx => by
    obtain ⟨v, -, rfl⟩ := List.mem_map.mp hx
    have hlt := Int.tmod_lt_of_pos (v + 5) (show (0 : ℤ) < 10 by decide)
    omega
  rw [remainders, List.length_map, nsmul_eq_mul] at h
  rw [remainders]
  linarith

theorem sum_decaWatts {readings : List ℤ} (h : ∀ v ∈ readings, |v| ≤ 327670) :
    10 * (readings.map fun v => (decaWatts v).toInt).sum =
      readings.sum + 5 * readings.length - (remainders readings).sum := by
  induction readings with
  | nil => rfl
  | cons v readings ih =>
    obtain ⟨hv, hrest⟩ := List.forall_mem_cons.mp h
    have he := decaWatts_error hv
    have ht := ih hrest
    unfold remainders at ht ⊢
    simp only [List.map_cons, List.sum_cons, List.length_cons]
    push_cast
    linarith

theorem conversion_iff {readings : List ℤ} (hne : readings ≠ [])
    (h : ∀ v ∈ readings, |v| ≤ 327670) :
    |10 * mean (readings.map fun v => (decaWatts v).toInt) - mean readings| ≤ 5 ↔
      0 ≤ (remainders readings).sum := by
  have hn : (0 : ℚ) < readings.length := by exact_mod_cast List.length_pos_iff.mpr hne
  have hsum : 10 * ((readings.map fun v => (decaWatts v).toInt).sum : ℚ) =
      readings.sum + 5 * readings.length - (remainders readings).sum := by
    exact_mod_cast sum_decaWatts h
  have herror : 10 * mean (readings.map fun v => (decaWatts v).toInt) - mean readings =
      5 - ((remainders readings).sum : ℚ) / readings.length := by
    unfold mean
    rw [List.length_map, ← mul_div_assoc, hsum]
    field_simp
    ring
  have hle : ((remainders readings).sum : ℚ) / readings.length ≤ 9 := by
    rw [div_le_iff₀ hn]
    exact_mod_cast sum_remainders_le readings
  rw [herror, abs_le]
  constructor
  · rintro ⟨-, hhi⟩
    have hdiv : 0 ≤ ((remainders readings).sum : ℚ) / readings.length := by linarith
    rw [le_div_iff₀ hn, zero_mul] at hdiv
    exact_mod_cast hdiv
  · intro hnonneg
    have hdiv : 0 ≤ ((remainders readings).sum : ℚ) / readings.length :=
      div_nonneg (by exact_mod_cast hnonneg) hn.le
    constructor <;> linarith

/- The rounding of the mean is within its bound, so the conversion decides. -/
theorem withinTenWatts_iff {readings : List ℤ} (hne : readings ≠ [])
    (h : ∀ v ∈ readings, |v| ≤ 327670) {value : Int16}
    (hvalue : value.toInt = roundAway (mean (readings.map fun v => (decaWatts v).toInt))) :
    WithinTenWatts readings value ↔ 0 ≤ (remainders readings).sum := by
  have hround : |10 * (value.toInt : ℚ) -
      10 * mean (readings.map fun v => (decaWatts v).toInt)| ≤ 5 := by
    have hr := abs_roundAway_sub_le (mean (readings.map fun v => (decaWatts v).toInt))
    rw [← mul_sub, abs_mul, hvalue, abs_of_pos (by norm_num : (0 : ℚ) < 10)]
    linarith
  refine ⟨fun hw => (conversion_iff hne h).mp hw.conversion, fun hs => ?_⟩
  have hconv := (conversion_iff hne h).mpr hs
  refine ⟨hconv, hround, ?_⟩
  have htri := abs_sub_le (10 * (value.toInt : ℚ))
    (10 * mean (readings.map fun v => (decaWatts v).toInt)) (mean readings)
  linarith

/-! ### The subscriptions -/

/- What a report of a thing says about the two properties. -/
structure PowerProperties where
  power : Option ℤ
  dcPower : Option (List ℤ)

def onProperties (db : DatabasePrivate) (thingId : Name) (lastSeen : UInt32)
    (props : PowerProperties) : DatabasePrivate :=
  let db := match props.power with
    | some value => db.putDatapoint thingId .power lastSeen [decaWatts value]
    | none => db
  match props.dcPower with
  | some value => db.putDatapoint thingId .dcPower lastSeen (value.map decaWatts)
  | none => db

def onReports (db : DatabasePrivate) (thingId : Name) (reports : List (UInt32 × PowerProperties)) :
    DatabasePrivate :=
  reports.foldl (fun db r => onProperties db thingId r.1 r.2) db

inductive Subscription
  | power
  | dcPower
  deriving DecidableEq

def Subscription.key : Subscription → ThingPropertyKey
  | .power => .power
  | .dcPower => .dcPower

/- A power is one value, dc powers are as many as there are strings. -/
def PowerProperties.values (props : PowerProperties) : Subscription → Option (List ℤ)
  | .power => props.power.map fun value => [value]
  | .dcPower => props.dcPower

/- The readings a subscription gets, with their timestamps. -/
def readingsOf (s : Subscription) (reports : List (UInt32 × PowerProperties)) :
    List (UInt32 × List ℤ) :=
  reports.filterMap fun r => (r.2.values s).map fun values => (r.1, values)

/- The datapoints it puts. -/
def datapointsOf (readings : List (UInt32 × List ℤ)) : List (UInt32 × Datapoint) :=
  readings.map fun r => (r.1, r.2.map decaWatts)

theorem putDatapoint_lastValues (db : DatabasePrivate) (t : Name) (k k' : ThingPropertyKey)
    (ts : UInt32) (dp : Datapoint) : (db.putDatapoint t k ts dp).lastValues t k' =
      if k' = k then dp else db.lastValues t k' := by
  by_cases hne : db.lastValues t k = dp
  · rw [putDatapoint_of_eq ts hne]
    split_ifs with hk
    · rw [hk, hne]
    · rfl
  · rw [putDatapoint, if_neg hne]
    dsimp only [upsert]
    rw [createMap_lastValues]
    simp only [setLastValue, Function.update_self, Function.update_apply]

/- A put under one key, seen under another or the same. -/
theorem putDatapoint_holds {db : DatabasePrivate} (hc : db.Coherent) {t : Name}
    {k k' : ThingPropertyKey} {content : Dataset} (h : Holds db t k' content) (ts : UInt32)
    (dp : Datapoint) : (db.putDatapoint t k ts dp).Coherent ∧
      Holds (db.putDatapoint t k ts dp) t k'
        (if k' = k ∧ db.lastValues t k ≠ dp then content.put ts dp else content) := by
  by_cases hne : db.lastValues t k = dp
  · rw [putDatapoint_of_eq ts hne, if_neg fun hk => hk.2 hne]
    exact ⟨hc, h⟩
  · obtain ⟨hco, -, hstored⟩ := putDatapoint_of_ne hc ts hne
    refine ⟨hco, ?_⟩
    by_cases hk : k' = k
    · subst hk
      rw [if_pos ⟨rfl, hne⟩]
      exact h.put ts dp (by rw [hstored, if_pos ⟨rfl, rfl, rfl⟩])
    · rw [if_neg fun hc => hk hc.1]
      unfold Holds at h ⊢
      rw [hstored, if_neg fun hc => hk hc.2.1]
      exact h

/- One handler of the subscription. -/
def onValues (db : DatabasePrivate) (t : Name) (ts : UInt32) (s : Subscription) :
    Option (List ℤ) → DatabasePrivate
  | some values => db.putDatapoint t s.key ts (values.map decaWatts)
  | none => db

theorem onProperties_eq (db : DatabasePrivate) (t : Name) (ts : UInt32) (props : PowerProperties) :
    onProperties db t ts props =
      onValues (onValues db t ts .power (props.values .power)) t ts .dcPower
        (props.values .dcPower) := by
  unfold onProperties PowerProperties.values
  cases props.power <;> cases props.dcPower <;> rfl

theorem contentAfter_append (content : Dataset) (last : Datapoint)
    (xs ys : List (UInt32 × Datapoint)) : contentAfter content last (xs ++ ys) =
      contentAfter (contentAfter content last xs) (lastValue last xs) ys := by
  unfold contentAfter
  rw [changesFrom_append, List.foldl_append]

theorem lastValue_append (last : Datapoint) (xs ys : List (UInt32 × Datapoint)) :
    lastValue last (xs ++ ys) = lastValue (lastValue last xs) ys := by
  induction xs generalizing last with
  | nil => rfl
  | cons x xs ih => exact ih x.2

/- What the raw map holds and the last value, after what was put. -/
structure HoldsAfter (db db' : DatabasePrivate) (t : Name) (k : ThingPropertyKey) (content : Dataset)
    (puts : List (UInt32 × Datapoint)) : Prop where
  coherent : db'.Coherent
  holds : Holds db' t k (contentAfter content (db.lastValues t k) puts)
  lastValues : db'.lastValues t k = lastValue (db.lastValues t k) puts

theorem HoldsAfter.trans {db db' db'' : DatabasePrivate} {t : Name} {k : ThingPropertyKey}
    {content : Dataset} {xs ys : List (UInt32 × Datapoint)} (h : HoldsAfter db db' t k content xs)
    (h' : HoldsAfter db' db'' t k (contentAfter content (db.lastValues t k) xs) ys) :
    HoldsAfter db db'' t k content (xs ++ ys) where
  coherent := h'.coherent
  holds := by
    rw [contentAfter_append, ← h.lastValues]
    exact h'.holds
  lastValues := by rw [lastValue_append, ← h.lastValues, h'.lastValues]

theorem onValues_holdsAfter {db : DatabasePrivate} (hc : db.Coherent) {t : Name}
    {s : Subscription} {content : Dataset} (h : Holds db t s.key content) (ts : UInt32)
    (s' : Subscription) (values : Option (List ℤ)) :
    HoldsAfter db (onValues db t ts s' values) t s.key content
      (if s = s' then values.toList.map fun vs => (ts, vs.map decaWatts) else []) := by
  cases values with
  | none =>
    rw [Option.toList_none, List.map_nil, ite_self]
    exact ⟨hc, h, rfl⟩
  | some vs =>
    have hp := putDatapoint_holds hc h (k := s'.key) ts (vs.map decaWatts)
    have hl := putDatapoint_lastValues db t s'.key s.key ts (vs.map decaWatts)
    by_cases hs : s = s'
    · subst hs
      rw [if_pos rfl] at hl ⊢
      refine ⟨hp.1, ?_, hl⟩
      have hhold := hp.2
      unfold contentAfter
      by_cases he : db.lastValues t s.key = vs.map decaWatts
      · rw [if_neg fun hc => hc.2 he] at hhold
        simp only [Option.toList_some, List.map_cons, List.map_nil, changesFrom, if_pos he.symm]
        exact hhold
      · rw [if_pos ⟨rfl, he⟩] at hhold
        simp only [Option.toList_some, List.map_cons, List.map_nil, changesFrom,
          if_neg (Ne.symm he)]
        exact hhold
    · have hkey : s.key ≠ s'.key := by
        cases s <;> cases s' <;> first | exact absurd rfl hs | decide
      rw [if_neg hkey] at hl
      rw [if_neg fun hc => hkey hc.1] at hp
      rw [if_neg hs]
      exact ⟨hp.1, hp.2, hl⟩

theorem onReports_holdsAfter {t : Name} {s : Subscription} (reports : List (UInt32 × PowerProperties))
    {db : DatabasePrivate} (hc : db.Coherent) {content : Dataset} (h : Holds db t s.key content) :
    HoldsAfter db (onReports db t reports) t s.key content
      (datapointsOf (readingsOf s reports)) := by
  induction reports generalizing db content with
  | nil => exact ⟨hc, h, rfl⟩
  | cons r reports ih =>
    have hpower := onValues_holdsAfter hc h r.1 .power (r.2.values .power)
    have hboth := hpower.trans (onValues_holdsAfter hpower.coherent hpower.holds r.1 .dcPower
      (r.2.values .dcPower))
    rw [← onProperties_eq] at hboth
    have hfirst : datapointsOf (readingsOf s (r :: reports)) =
        ((if s = .power then (r.2.values .power).toList.map fun vs => (r.1, vs.map decaWatts)
          else []) ++
        if s = .dcPower then (r.2.values .dcPower).toList.map fun vs => (r.1, vs.map decaWatts)
          else []) ++ datapointsOf (readingsOf s reports) := by
      unfold readingsOf datapointsOf
      rw [List.filterMap_cons]
      cases s with
      | power => cases hv : r.2.values .power <;> simp
      | dcPower => cases hv : r.2.values .dcPower <;> simp
    rw [hfirst]
    exact hboth.trans (ih hboth.coherent hboth.holds)

/-! ### The bucket of some readings -/

theorem Holds.unique {db : DatabasePrivate} {t : Name} {k : ThingPropertyKey} {content after : Dataset}
    (h : Holds db t k content) (h' : Holds db t k after) : after = content := by
  have hinj : Function.Injective fun e : UInt32 × Datapoint => (e.1, bytesOf e.2) := by
    intro x y hxy
    obtain ⟨hts, hbytes⟩ := Prod.mk.inj hxy
    have hdp := congrArg datapointOf hbytes
    rw [datapointOf_bytesOf, datapointOf_bytesOf] at hdp
    exact Prod.ext hts (Option.some.inj hdp)
  exact SortedMap.ext (List.map_injective_iff.mpr hinj (h'.symm.trans h))

theorem mem_contentAfter {content : Dataset} {last : Datapoint} {puts : List (UInt32 × Datapoint)}
    {e : UInt32 × Datapoint} (h : e ∈ (contentAfter content last puts).entries) :
    e ∈ content.entries ∨ e ∈ puts := by
  rcases SortedMap.mem_foldl_put h with h | h
  · exact Or.inl h
  · exact Or.inr ((changesFrom_sublist last puts).subset h)

/- A bucket that was empty holds what was put into it, if all of that is there. -/
theorem bucket_contentAfter {content : Dataset} {last : Datapoint} {puts : List (UInt32 × Datapoint)}
    {divisor b : UInt32} (hsorted : puts.Pairwise fun x y => x.1 < y.1)
    (hbucket : ∀ e ∈ puts, e.1 / divisor = b) (hempty : bucket content divisor b = [])
    (hstored : ∀ e ∈ puts, e ∈ (contentAfter content last puts).entries) :
    bucket (contentAfter content last puts) divisor b = puts.map Prod.snd := by
  have hsame : bucket (contentAfter content last puts) divisor b =
      bucket ⟨puts, hsorted⟩ divisor b := by
    refine bucket_congr fun e hb => ⟨fun he => ?_, hstored e⟩
    rcases mem_contentAfter he with he | he
    · exact absurd hempty (bucket_ne_nil_iff.mpr ⟨e, he, hb⟩)
    · exact he
  rw [hsame, bucket, List.filter_eq_self.mpr fun e he => by simpa using hbucket e he]

theorem valuesAt_datapointsOf {w i : ℕ} (hi : i < w) {readings : List (UInt32 × List ℤ)}
    (hwidth : ∀ r ∈ readings, r.2.length = w) :
    valuesAt ((datapointsOf readings).map Prod.snd) i =
      (readings.map fun r => r.2.getD i 0).map fun v => (decaWatts v).toInt := by
  unfold valuesAt datapointsOf
  rw [List.map_map, List.map_map, List.map_map]
  refine List.map_congr_left fun r hr => ?_
  have hlt : i < r.2.length := by rw [hwidth r hr]; exact hi
  simp [List.getD_eq_getElem?_getD, List.getElem?_eq_getElem hlt]

/-- Readings of either subscription that fall into one bucket and are all stored:
the archived value is within the bounds if and only if the remainders `(v + 5) % 10`
of the readings do not sum up to less than zero. -/
theorem withinTenWatts_stored_iff (db : DatabasePrivate) (hc : db.Coherent) (t : Name)
    (s : Subscription) (reports : List (UInt32 × PowerProperties)) (content after : Dataset)
    (h : Holds db t s.key content) (hafter : Holds (onReports db t reports) t s.key after)
    (timeDivisor : ℤ) (h1 : 1 ≤ timeDivisor) (h2 : timeDivisor < 2 ^ 31) (b : UInt32) (w : ℕ)
    (hcontent : Uniform w content.entries)
    (hempty : bucket content (UInt32.ofInt timeDivisor) b = [])
    (hne : readingsOf s reports ≠ [])
    (hwidth : ∀ r ∈ readingsOf s reports, r.2.length = w)
    (hrange : ∀ r ∈ readingsOf s reports, ∀ v ∈ r.2, |v| ≤ 327670)
    (hsorted : (readingsOf s reports).Pairwise fun x y => x.1 < y.1)
    (hbucket : ∀ r ∈ readingsOf s reports, r.1 / UInt32.ofInt timeDivisor = b)
    (hstored : ∀ r ∈ readingsOf s reports, after.get? r.1 = some (r.2.map decaWatts)) :
    ∃ ds value, downsample after timeDivisor defaultWatts = some ds ∧ ds.get? b = some value ∧
      value.length = w ∧ ∀ i < w,
        (WithinTenWatts ((readingsOf s reports).map fun r => r.2.getD i 0) (value.getD i 0) ↔
          0 ≤ (remainders ((readingsOf s reports).map fun r => r.2.getD i 0)).sum) := by
  generalize hr : readingsOf s reports = readings at *
  have hreports := onReports_holdsAfter (s := s) reports hc h
  rw [hr] at hreports
  obtain rfl := hreports.holds.unique hafter
  have hputs : ∀ e ∈ datapointsOf readings, ∃ r ∈ readings, (r.1, r.2.map decaWatts) = e :=
    fun e he => List.mem_map.mp he
  have hb : bucket (contentAfter content (db.lastValues t s.key) (datapointsOf readings))
      (UInt32.ofInt timeDivisor) b = (datapointsOf readings).map Prod.snd := by
    refine bucket_contentAfter (List.pairwise_map.mpr hsorted) (fun e he => ?_) hempty fun e he => ?_
    · obtain ⟨r, hmem, rfl⟩ := hputs e he
      exact hbucket r hmem
    · obtain ⟨r, hmem, rfl⟩ := hputs e he
      exact SortedMap.get?_eq_some.mp (hstored r hmem)
  have hu : Uniform w (contentAfter content (db.lastValues t s.key) (datapointsOf readings)).entries := by
    intro e he
    rcases mem_contentAfter he with he | he
    · exact hcontent e he
    · obtain ⟨r, hmem, rfl⟩ := hputs e he
      rw [List.length_map, hwidth r hmem]
  have hbne : (datapointsOf readings).map Prod.snd ≠ [] := by simpa [datapointsOf] using hne
  obtain ⟨ds, hds, huds, hg⟩ := downsample_eq_some hu (ofInt_ne_zero h1 h2)
  have hget := hg b
  rw [hb, if_neg hbne] at hget
  have hw : width ((datapointsOf readings).map Prod.snd) = w :=
    hb ▸ (average_uniform hu (hb ▸ hbne)).1
  refine ⟨ds, _, hds, hget, huds _ (SortedMap.get?_eq_some.mp hget), fun i hi => ?_⟩
  refine withinTenWatts_iff (by simpa using hne) (fun v hv => ?_) ?_
  · obtain ⟨r, hmem, rfl⟩ := List.mem_map.mp hv
    have hlt : i < r.2.length := by rw [hwidth r hmem]; exact hi
    rw [List.getD_eq_getElem?_getD, List.getElem?_eq_getElem hlt]
    exact hrange r hmem _ (List.getElem_mem hlt)
  · rw [toInt_means hbne (by rwa [hw]), roundedMean_eq, valuesAt_datapointsOf hi hwidth]
    rfl

/- Two powers of one minute, fed in and drawn. -/
def gridReports : List (UInt32 × PowerProperties) :=
  [(1728000000, ⟨some 1234, none⟩), (1728000030, ⟨some (-50), none⟩)]

def gridContent : Dataset := contentAfter SortedMap.empty [] (datapointsOf (readingsOf .power gridReports))

theorem withinTenWatts_stored_iff_grid :
    ∃ ds value, downsample gridContent 60 defaultWatts = some ds ∧ ds.get? 28800000 = some value ∧
      value.length = 1 ∧ ∀ i < 1,
        (WithinTenWatts ((readingsOf .power gridReports).map fun r => r.2.getD i 0) (value.getD i 0) ↔
          0 ≤ (remainders ((readingsOf .power gridReports).map fun r => r.2.getD i 0)).sum) :=
  withinTenWatts_stored_iff fresh fresh_coherent "grid".toList .power gridReports SortedMap.empty
    gridContent (fresh_holds _ _)
    (onReports_holdsAfter gridReports fresh_coherent (fresh_holds _ _)).holds 60 (by decide)
    (by decide) 28800000 1 (fun e he => nomatch he) (by decide) (by decide) (by decide) (by decide)
    (by decide) (by decide) (by decide)

/- One reading of -14 W: stored as 0, it is 14 W off. -/
theorem not_withinTenWatts_stored :
    let reports : List (UInt32 × PowerProperties) := [(1728000000, ⟨some (-14), none⟩)]
    ∃ after ds value,
      Holds (onReports fresh "grid".toList reports) "grid".toList .power after ∧
      after.get? 1728000000 = some [decaWatts (-14)] ∧
      downsample after 60 defaultWatts = some ds ∧ ds.get? 28800000 = some [value] ∧
      ¬ |10 * (value.toInt : ℚ) - mean [-14]| ≤ 10 := by
  intro reports
  refine ⟨contentAfter SortedMap.empty [] [(1728000000, [decaWatts (-14)])],
    ⟨[(28800000, [0])], List.pairwise_singleton _ _⟩, 0, ?_, by decide +kernel, ?_, by decide, ?_⟩
  · exact (onReports_holdsAfter (s := .power) reports fresh_coherent (fresh_holds _ _)).holds
  · have hentries : (downsample (contentAfter SortedMap.empty [] [(1728000000, [decaWatts (-14)])]) 60
        defaultWatts).map (·.entries) = some [(28800000, [0])] := by decide +kernel
    obtain ⟨ds, hds, he⟩ := Option.map_eq_some_iff.mp hentries
    rw [hds]
    exact congrArg some (SortedMap.ext he)
  · have hzero : (0 : Int16).toInt = 0 := rfl
    norm_num [mean, hzero]

end Iotic.Database
