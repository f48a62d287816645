import Iotic.Database.DatabaseTypes
import Iotic.Lib.Rounding
import Iotic.Lib.Sequences
import Mathlib.Algebra.BigOperators.Group.List.Basic
import Mathlib.Algebra.Order.Field.Rat

/-!
# Averaging into time buckets (DatabaseUtil::downsample)

`none` is undefined behaviour of the source: a division by zero, a vector index
past the end, a cast that does not fit. The sums are `double`s there. With the
default watts they are exact: sums of `int16_t` stay far below 2^53, and a
rounded quotient cannot cross a half with fewer than 2^32 samples in a bucket.
-/

namespace Iotic.Database
open Sequences

/- `timestamp / timeDivisor`: the `int` divisor is converted to `uint32_t`. -/
def bucketTimestamp (timestamp : UInt32) (timeDivisor : ℤ) : Option UInt32 :=
  let divisor := UInt32.ofInt timeDivisor
  if divisor = 0 then none else some (timestamp / divisor)

def buckets (samples : Dataset) (timeDivisor : ℤ) : Option (SortedMap UInt32 (List Datapoint)) :=
  samples.entries.foldlM
    (fun m e => (bucketTimestamp e.1 timeDivisor).map fun b => m.pushBack b e.2) SortedMap.empty

/- The inner loop `sum[i] += dp[i]`, `i` running to the width of the datapoint. -/
def addInto : List ℚ → Datapoint → Option (List ℚ)
  | sum, [] => some sum
  | [], _ :: _ => none
  | s :: sum, v :: dp => (addInto sum dp).map fun rest => (s + (v.toInt : ℚ)) :: rest

/- The first non-empty datapoint sets the width of the sum. -/
def sumLoop : List ℚ → List Datapoint → Option (List ℚ)
  | sum, [] => some sum
  | sum, dp :: dps =>
    let sum := if sum.isEmpty then List.replicate dp.length 0 else sum
    (addInto sum dp).bind fun sum => sumLoop sum dps

def castInt16 (z : ℤ) : Option Int16 :=
  if -2 ^ 15 ≤ z ∧ z < 2 ^ 15 then some (Int16.ofInt z) else none

def component (watts : ℤ) (n : ℕ) (sum : ℚ) : Option Int16 :=
  if watts.tdiv 10 = 0 then none
  else castInt16 (roundAway (sum / n / (watts.tdiv 10 : ℤ)))

/- The average of the datapoints of one bucket. -/
def average (watts : ℤ) (dataPoints : List Datapoint) : Option Datapoint :=
  (sumLoop [] dataPoints).bind fun sum => sum.mapM (component watts dataPoints.length)

def downsample (samples : Dataset) (timeDivisor : ℤ) (watts : ℤ) : Option Dataset :=
  (buckets samples timeDivisor).bind fun m =>
    m.entries.foldlM (fun aggregates e => (average watts e.2).map (aggregates.put e.1))
      SortedMap.empty

/- The default argument `int watts = 10`. -/
def defaultWatts : ℤ := 10

/-! ### Which samples a bucket gets -/

/- The datapoints of the samples whose bucket is `b`, in time order. -/
def bucket (samples : Dataset) (divisor b : UInt32) : List Datapoint :=
  (samples.entries.filter fun e => e.1 / divisor = b).map Prod.snd

theorem bucketTimestamp_eq {timeDivisor : ℤ} (h : UInt32.ofInt timeDivisor ≠ 0) (t : UInt32) :
    bucketTimestamp t timeDivisor = some (t / UInt32.ofInt timeDivisor) := by
  simp only [bucketTimestamp, if_neg h]

/- Buckets that are defined come without a division by zero. -/
theorem buckets_divides {samples : Dataset} {timeDivisor : ℤ}
    (h : (buckets samples timeDivisor).isSome) :
    ∀ e ∈ samples.entries, (bucketTimestamp e.1 timeDivisor).isSome := by
  intro e he
  by_contra hnone
  have hzero : ∀ ts, bucketTimestamp ts timeDivisor = none := by
    intro ts
    unfold bucketTimestamp at hnone ⊢
    dsimp only at hnone ⊢
    split_ifs at hnone ⊢ with hd
    · rfl
    · simp at hnone
  obtain ⟨x, xs, hx⟩ := List.exists_cons_of_ne_nil (List.ne_nil_of_mem he)
  rw [buckets, hx, List.foldlM_cons, hzero] at h
  cases h

theorem buckets_get? (samples : Dataset) {timeDivisor : ℤ} (h : UInt32.ofInt timeDivisor ≠ 0) :
    ∃ m, buckets samples timeDivisor = some m ∧ ∀ b, m.get? b =
      if bucket samples (UInt32.ofInt timeDivisor) b = [] then none
      else some (bucket samples (UInt32.ofInt timeDivisor) b) := by
  refine ⟨_, foldlM_eq_some (g := fun m e => m.pushBack (e.1 / UInt32.ofInt timeDivisor) e.2)
    (fun m e _ => ?_) SortedMap.empty, fun b => ?_⟩
  · rw [bucketTimestamp_eq h, Option.map_some]
  · rw [SortedMap.get?_foldl_pushBack (fun e => e.1 / UInt32.ofInt timeDivisor) Prod.snd]
    simp only [SortedMap.get?_empty, Option.getD_none, List.nil_append, bucket, List.map_eq_nil_iff]

/- What `downsample` puts at each bucket, when it is defined at all. -/
theorem downsample_get? {samples ds : Dataset} {timeDivisor watts : ℤ}
    (hd : UInt32.ofInt timeDivisor ≠ 0) (h : downsample samples timeDivisor watts = some ds)
    (b : UInt32) :
    ds.get? b = if bucket samples (UInt32.ofInt timeDivisor) b = [] then none
      else average watts (bucket samples (UInt32.ofInt timeDivisor) b) := by
  obtain ⟨m, hm, hg⟩ := buckets_get? samples hd
  rw [downsample, hm, Option.bind_some] at h
  have hl := SortedMap.get?_foldlM_put (average watts) m.entries m.sorted SortedMap.empty ds h b
  have hb := hg b
  unfold SortedMap.get? at hb
  rw [hl, hb]
  split_ifs <;> rfl

theorem downsample_isSome_iff {samples : Dataset} {timeDivisor : ℤ} (watts : ℤ)
    (hd : UInt32.ofInt timeDivisor ≠ 0) :
    (downsample samples timeDivisor watts).isSome ↔
      ∀ b, bucket samples (UInt32.ofInt timeDivisor) b ≠ [] →
        (average watts (bucket samples (UInt32.ofInt timeDivisor) b)).isSome := by
  obtain ⟨m, hm, hg⟩ := buckets_get? samples hd
  rw [downsample, hm, Option.bind_some, SortedMap.foldlM_put_isSome_iff]
  constructor
  · intro h b hne
    have hb := hg b
    rw [if_neg hne] at hb
    exact h _ (SortedMap.get?_eq_some.mp hb)
  · intro h e he
    have hb := (hg e.1).symm.trans (SortedMap.get?_eq_some.mpr he)
    split_ifs at hb with hn
    have hv := h e.1 hn
    rwa [Option.some.inj hb] at hv

/-! ### The average of a bucket -/

theorem addInto_eq (sum : List ℚ) (dp : Datapoint) (h : dp.length ≤ sum.length) :
    addInto sum dp =
      some ((List.range sum.length).map fun i => sum.getD i 0 + (dp.getD i 0).toInt) := by
  induction sum generalizing dp with
  | nil =>
    rw [List.length_eq_zero_iff.mp (Nat.le_zero.mp h)]
    rfl
  | cons s sum ih =>
    cases dp with
    | nil =>
      rw [addInto]
      congr 1
      apply List.ext_getElem
      · simp
      · intro i h1 h2
        simp [List.getElem?_eq_getElem h1]
    | cons v dp =>
      have ht := ih dp (Nat.le_of_succ_le_succ h)
      rw [addInto, ht, List.length_cons, List.range_succ_eq_map, List.map_cons, List.map_map]
      rfl

theorem addInto_eq_none (sum : List ℚ) (dp : Datapoint) (h : sum.length < dp.length) :
    addInto sum dp = none := by
  induction sum generalizing dp with
  | nil =>
    obtain ⟨v, dp, rfl⟩ := List.exists_cons_of_length_pos h
    rfl
  | cons s sum ih =>
    obtain ⟨v, dp, rfl⟩ := List.exists_cons_of_length_pos (Nat.zero_lt_of_lt h)
    rw [addInto, ih dp (Nat.lt_of_succ_lt_succ h)]
    rfl

/- The sum of the values the datapoints have at index `i`. -/
def columnSum (dps : List Datapoint) (i : ℕ) : ℤ := (dps.map fun dp => (dp.getD i 0).toInt).sum

theorem columnSum_cons (dp : Datapoint) (dps : List Datapoint) (i : ℕ) :
    columnSum (dp :: dps) i = (dp.getD i 0).toInt + columnSum dps i := List.sum_cons

/- The width of the sum over a bucket, set by its first non-empty datapoint. -/
def width : List Datapoint → ℕ
  | [] => 0
  | dp :: dps => if dp = [] then width dps else dp.length

theorem width_of_uniform {w : ℕ} {dps : List Datapoint} (hne : dps ≠ [])
    (hd : ∀ dp ∈ dps, dp.length = w) : width dps = w := by
  induction dps with
  | nil => exact absurd rfl hne
  | cons dp dps ih =>
    obtain ⟨hdp, hdps⟩ := List.forall_mem_cons.mp hd
    rw [width]
    split_ifs with hempty
    · subst hempty
      rcases eq_or_ne dps [] with rfl | hrest
      · exact hdp
      · exact ih hrest hdps
    · exact hdp

theorem getD_map_range {A : Type*} (f : ℕ → A) {w i : ℕ} (hi : i < w) (d : A) :
    ((List.range w).map f).getD i d = f i := by
  rw [List.getD_eq_getElem?_getD, List.getElem?_map, List.getElem?_range hi]
  rfl

theorem sumLoop_from {w : ℕ} (sum : List ℚ) (dps : List Datapoint) (hw : 0 < w)
    (hs : sum.length = w) (hd : ∀ dp ∈ dps, dp.length ≤ w) :
    sumLoop sum dps = some ((List.range w).map fun i => sum.getD i 0 + (columnSum dps i : ℤ)) := by
  induction dps generalizing sum with
  | nil =>
    have he : sum = (List.range w).map fun i => sum.getD i 0 + ((columnSum [] i : ℤ) : ℚ) := by
      apply List.ext_getElem
      · simpa using hs
      · intro i h1 h2
        simp [columnSum, h1]
    rw [sumLoop, ← he]
  | cons dp dps ih =>
    obtain ⟨hdp, hdps⟩ := List.forall_mem_cons.mp hd
    have hne : sum.isEmpty = false := by
      cases sum with
      | nil => simp at hs; omega
      | cons _ _ => rfl
    have ha := addInto_eq sum dp (hs ▸ hdp)
    rw [sumLoop, hne, if_neg Bool.false_ne_true, ha, Option.bind_some, hs, ih _ (by simp) hdps]
    congr 1
    apply List.map_congr_left
    intro i hi
    rw [getD_map_range _ (List.mem_range.mp hi), columnSum_cons]
    push_cast
    ring

theorem sumLoop_nil_cons {dp : Datapoint} (hne : dp ≠ []) (dps : List Datapoint) :
    sumLoop [] (dp :: dps) = sumLoop (List.replicate dp.length 0) (dp :: dps) := by
  obtain ⟨v, dp, rfl⟩ := List.exists_cons_of_ne_nil hne
  rfl

theorem sumLoop_eq (dps : List Datapoint) (hd : ∀ dp ∈ dps, dp.length ≤ width dps) :
    sumLoop [] dps = some ((List.range (width dps)).map fun i => (columnSum dps i : ℚ)) := by
  induction dps with
  | nil => rfl
  | cons dp dps ih =>
    rcases eq_or_ne dp [] with rfl | hne
    · -- the sum stays empty, and takes its width from a later datapoint
      have ht := ih fun x hx => by simpa [width] using hd x (List.mem_cons_of_mem _ hx)
      have hcol : ∀ i, columnSum ([] :: dps) i = columnSum dps i := fun i => by
        simp [columnSum_cons]
      simp only [hcol, width, if_true]
      exact ht
    · have hwidth : width (dp :: dps) = dp.length := by rw [width, if_neg hne]
      rw [hwidth] at hd ⊢
      rw [sumLoop_nil_cons hne, sumLoop_from _ _ (List.length_pos_iff.mpr hne)
        List.length_replicate hd]
      congr 1
      apply List.map_congr_left
      intro i hi
      simp [List.mem_range.mp hi]

theorem le_length_of_sumLoop {sum : List ℚ} {dps : List Datapoint} (hne : sum ≠ [])
    (h : (sumLoop sum dps).isSome) : ∀ dp ∈ dps, dp.length ≤ sum.length := by
  induction dps generalizing sum with
  | nil => simp
  | cons dp dps ih =>
    have hempty : sum.isEmpty = false := by simpa using hne
    by_cases hle : dp.length ≤ sum.length
    · rw [sumLoop, hempty, if_neg Bool.false_ne_true, addInto_eq sum dp hle, Option.bind_some] at h
      have ht := ih (by simpa using hne) h
      rw [List.length_map, List.length_range] at ht
      exact List.forall_mem_cons.mpr ⟨hle, ht⟩
    · rw [sumLoop, hempty, if_neg Bool.false_ne_true, addInto_eq_none sum dp (by omega)] at h
      cases h

/- `sum[i]` stays within the sum exactly when no datapoint is wider than the one
that set its width. -/
theorem sumLoop_isSome_iff (dps : List Datapoint) :
    (sumLoop [] dps).isSome ↔ ∀ dp ∈ dps, dp.length ≤ width dps := by
  refine ⟨fun h => ?_, fun h => by rw [sumLoop_eq dps h]; rfl⟩
  induction dps with
  | nil => simp
  | cons dp dps ih =>
    rcases eq_or_ne dp [] with rfl | hne
    · rw [width, if_pos rfl]
      exact List.forall_mem_cons.mpr ⟨Nat.zero_le _, ih h⟩
    · rw [sumLoop_nil_cons hne] at h
      rw [width, if_neg hne]
      simpa using le_length_of_sumLoop (by simpa using hne) h

/- The values the datapoints have at index `i`. -/
def valuesAt (dps : List Datapoint) (i : ℕ) : List ℤ := dps.map fun dp => (dp.getD i 0).toInt

theorem length_valuesAt (dps : List Datapoint) (i : ℕ) : (valuesAt dps i).length = dps.length :=
  List.length_map _

theorem valuesAt_ne_nil {dps : List Datapoint} (hne : dps ≠ []) (i : ℕ) : valuesAt dps i ≠ [] := by
  simpa [valuesAt] using hne

/- The mean at index `i` to the nearest integer. -/
def roundedMean (dps : List Datapoint) (i : ℕ) : ℤ := roundAway (columnSum dps i / dps.length)

theorem roundedMean_eq (dps : List Datapoint) (i : ℕ) :
    roundedMean dps i = roundAway (((valuesAt dps i).sum : ℚ) / (valuesAt dps i).length) := by
  rw [length_valuesAt]
  rfl

theorem roundedMean_mem {dps : List Datapoint} (hne : dps ≠ []) (i : ℕ) :
    -2 ^ 15 ≤ roundedMean dps i ∧ roundedMean dps i ≤ 2 ^ 15 - 1 := by
  have hmem : ∀ x ∈ valuesAt dps i, -2 ^ 15 ≤ x ∧ x ≤ 2 ^ 15 - 1 := by
    intro x hx
    obtain ⟨dp, -, rfl⟩ := List.mem_map.mp hx
    have hlo := Int16.le_toInt (dp.getD i 0)
    have hhi := Int16.toInt_lt (dp.getD i 0)
    exact ⟨hlo, by omega⟩
  rw [roundedMean_eq]
  exact ⟨le_roundAway_mean (valuesAt_ne_nil hne i) fun x hx => (hmem x hx).1,
    roundAway_mean_le (valuesAt_ne_nil hne i) fun x hx => (hmem x hx).2⟩

/- The mean of `int16_t` values rounds to an `int16_t`. -/
theorem component_isSome (dps : List Datapoint) (hne : dps ≠ []) (i : ℕ) :
    component defaultWatts dps.length (columnSum dps i) =
      some (Int16.ofInt (roundAway (columnSum dps i / dps.length))) := by
  obtain ⟨hlo, hhi⟩ := roundedMean_mem hne i
  unfold roundedMean at hlo hhi
  have hw : defaultWatts.tdiv 10 = 1 := by decide
  rw [component, hw, if_neg (by decide), Int.cast_one, div_one, castInt16, if_pos ⟨hlo, by omega⟩]

/- The means of the values the datapoints have at each index, rounded. -/
def means (dps : List Datapoint) : Datapoint :=
  (List.range (width dps)).map fun i => Int16.ofInt (roundAway (columnSum dps i / dps.length))

theorem length_means (dps : List Datapoint) : (means dps).length = width dps := by
  rw [means, List.length_map, List.length_range]

theorem average_eq (dps : List Datapoint) (hne : dps ≠ [])
    (hd : ∀ dp ∈ dps, dp.length ≤ width dps) : average defaultWatts dps = some (means dps) := by
  rw [average, sumLoop_eq dps hd, Option.bind_some]
  have hm := mapM_eq_some (f := fun i => component defaultWatts dps.length (columnSum dps i))
    (l := List.range (width dps)) fun i _ => component_isSome dps hne i
  rw [means, ← hm, List.mapM_map]
  rfl

/- The casts fit, so an average is defined when its sum is. -/
theorem average_isSome_iff (dps : List Datapoint) (hne : dps ≠ []) :
    (average defaultWatts dps).isSome ↔ ∀ dp ∈ dps, dp.length ≤ width dps := by
  rw [← sumLoop_isSome_iff]
  constructor
  · intro h
    unfold average at h
    exact Option.isSome_of_isSome_bind h
  · intro h
    rw [average_eq dps hne ((sumLoop_isSome_iff dps).mp h)]
    rfl

theorem bucket_width {w : ℕ} {samples : Dataset} (h : Uniform w samples.entries)
    (divisor b : UInt32) : ∀ dp ∈ bucket samples divisor b, dp.length = w := by
  intro dp hdp
  obtain ⟨e, he, rfl⟩ := List.mem_map.mp hdp
  exact h e (List.mem_of_mem_filter he)

/- A dataset of one width has a downsampled dataset, of that width, with an entry
exactly at the buckets that hold a sample. -/
theorem downsample_uniform {w : ℕ} {samples : Dataset} {timeDivisor : ℤ}
    (hd : UInt32.ofInt timeDivisor ≠ 0) (h : Uniform w samples.entries) :
    ∃ ds, downsample samples timeDivisor defaultWatts = some ds ∧ Uniform w ds.entries ∧
      ∀ b, (ds.get? b).isSome ↔ bucket samples (UInt32.ofInt timeDivisor) b ≠ [] := by
  have hwidth : ∀ b, bucket samples (UInt32.ofInt timeDivisor) b ≠ [] →
      width (bucket samples (UInt32.ofInt timeDivisor) b) = w := fun b hb =>
    width_of_uniform hb (bucket_width h _ b)
  have hav : ∀ b, bucket samples (UInt32.ofInt timeDivisor) b ≠ [] →
      average defaultWatts (bucket samples (UInt32.ofInt timeDivisor) b) =
        some (means (bucket samples (UInt32.ofInt timeDivisor) b)) := fun b hb =>
    average_eq _ hb fun dp hdp => by rw [hwidth b hb, bucket_width h _ b dp hdp]
  have hsome : (downsample samples timeDivisor defaultWatts).isSome :=
    (downsample_isSome_iff _ hd).mpr fun b hb => by
      rw [hav b hb]
      rfl
  obtain ⟨ds, hds⟩ := Option.isSome_iff_exists.mp hsome
  refine ⟨ds, hds, fun e he => ?_, fun b => ?_⟩
  · have hg := (downsample_get? hd hds e.1).symm.trans (SortedMap.get?_eq_some.mpr he)
    split_ifs at hg with hb
    rw [hav e.1 hb] at hg
    rw [← Option.some.inj hg, length_means, hwidth e.1 hb]
  · rw [downsample_get? hd hds b]
    split_ifs with hb
    · simp [hb]
    · simp [hav b hb, hb]

end Iotic.Database
