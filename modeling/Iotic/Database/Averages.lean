import Iotic.Database.Downsample
import Mathlib.Algebra.BigOperators.Ring.Finset
import Mathlib.Algebra.BigOperators.Ring.List
import Mathlib.Data.List.GetD

/-!
# What downsampling keeps of a dataset

A bucket that holds a sample gets the rounded means of its samples. Downsampling
what is downsampled already gives buckets of buckets, whose means have been rounded
twice.
-/

namespace Iotic.Database
open Sequences

/-! ### One stage -/

theorem toNat_divisor {timeDivisor : ℤ} (h1 : 1 ≤ timeDivisor) (h2 : timeDivisor < 2 ^ 31) :
    (UInt32.ofInt timeDivisor).toNat = timeDivisor.toNat := by
  have hn := toNat_ofInt (z := timeDivisor) (by omega) (by omega)
  omega

/- The cast of a rounded mean changes nothing. -/
theorem toInt_means {dps : List Datapoint} (hne : dps ≠ []) {i : ℕ} (hi : i < width dps) :
    ((means dps).getD i 0).toInt = roundedMean dps i := by
  obtain ⟨hlo, hhi⟩ := roundedMean_mem hne i
  rw [means, getD_map_range _ hi]
  exact Int16.toInt_ofInt_of_le hlo (Int.lt_of_le_sub_one hhi)

theorem average_uniform {w : ℕ} {samples : Dataset} (h : Uniform w samples.entries)
    {divisor b : UInt32} (hb : bucket samples divisor b ≠ []) :
    width (bucket samples divisor b) = w ∧
      average defaultWatts (bucket samples divisor b) = some (means (bucket samples divisor b)) := by
  have hwidth : width (bucket samples divisor b) = w :=
    width_of_uniform hb (bucket_width h divisor b)
  refine ⟨hwidth, average_eq _ hb fun dp hdp => ?_⟩
  rw [hwidth, bucket_width h divisor b dp hdp]

/- The entries of a downsampled dataset of one width. -/
theorem downsample_eq_some {w : ℕ} {samples : Dataset} (h : Uniform w samples.entries)
    {timeDivisor : ℤ} (hd : UInt32.ofInt timeDivisor ≠ 0) :
    ∃ ds, downsample samples timeDivisor defaultWatts = some ds ∧ Uniform w ds.entries ∧
      ∀ b, ds.get? b = if bucket samples (UInt32.ofInt timeDivisor) b = [] then none
        else some (means (bucket samples (UInt32.ofInt timeDivisor) b)) := by
  obtain ⟨ds, hds, hu, -⟩ := downsample_uniform hd h
  refine ⟨ds, hds, hu, fun b => ?_⟩
  rw [downsample_get? hd hds b]
  split_ifs with hb
  · rfl
  · exact (average_uniform h hb).2

theorem bucket_ne_nil_iff {samples : Dataset} {divisor b : UInt32} :
    bucket samples divisor b ≠ [] ↔ ∃ e ∈ samples.entries, e.1 / divisor = b := by
  rw [bucket, Ne, List.map_eq_nil_iff, List.filter_eq_nil_iff]
  simp

/-- Downsampling a dataset of one width: an entry for each value of
`timestamp / timeDivisor` that occurs, in ascending order, which holds the means of
its bucket, a half rounded away from zero. Each of them lies among the values of its
bucket, so it fits. -/
theorem downsample_means (w : ℕ) (samples : Dataset) (h : Uniform w samples.entries)
    (timeDivisor : ℤ) (h1 : 1 ≤ timeDivisor) (h2 : timeDivisor < 2 ^ 31) :
    ∃ ds, downsample samples timeDivisor defaultWatts = some ds ∧
      ds.keys.Pairwise (fun a b => a < b) ∧
      (∀ b, b ∈ ds.keys ↔ ∃ e ∈ samples.entries, e.1.toNat / timeDivisor.toNat = b.toNat) ∧
      ∀ e ∈ ds.entries, e.2.length = w ∧ ∀ i < w,
        let values := valuesAt (bucket samples (UInt32.ofInt timeDivisor) e.1) i
        (e.2.getD i 0).toInt = roundAway ((values.sum : ℚ) / values.length) ∧
          (∃ x ∈ values, x ≤ (e.2.getD i 0).toInt) ∧ ∃ x ∈ values, (e.2.getD i 0).toInt ≤ x := by
  have hd := ofInt_ne_zero h1 h2
  obtain ⟨ds, hds, hu, hg⟩ := downsample_eq_some h hd
  refine ⟨ds, hds, ds.sorted_keys, fun b => ?_, fun e he => ⟨hu e he, fun i hi => ?_⟩⟩
  · have hdiv : ∀ t : UInt32, t / UInt32.ofInt timeDivisor = b ↔
        t.toNat / timeDivisor.toNat = b.toNat := by
      intro t
      rw [← UInt32.toNat_inj, UInt32.toNat_div, toNat_divisor h1 h2]
    rw [SortedMap.mem_keys, hg b]
    simp only [← hdiv, ← bucket_ne_nil_iff]
    split_ifs with hb
    · simp [hb]
    · simp [hb]
  · have hget := (hg e.1).symm.trans (SortedMap.get?_eq_some.mpr he)
    split_ifs at hget with hb
    have hmeans := Option.some.inj hget
    have hvalue : (e.2.getD i 0).toInt =
        roundedMean (bucket samples (UInt32.ofInt timeDivisor) e.1) i := by
      rw [← hmeans]
      exact toInt_means hb (by rwa [(average_uniform h hb).1])
    dsimp only
    rw [hvalue, roundedMean_eq]
    exact ⟨rfl, exists_le_roundAway_mean (valuesAt_ne_nil hb i),
      exists_roundAway_mean_le (valuesAt_ne_nil hb i)⟩

/- Three samples in two minutes. -/
def twoMinutes : Dataset where
  entries := [(0, [3]), (30, [-4]), (60, [7])]
  sorted := by decide

theorem downsample_means_twoMinutes :
    ∃ ds, downsample twoMinutes 60 defaultWatts = some ds ∧
      ds.keys.Pairwise (fun a b => a < b) ∧
      ∀ b, b ∈ ds.keys ↔ ∃ e ∈ twoMinutes.entries, e.1.toNat / 60 = b.toNat :=
  (downsample_means 1 twoMinutes (by unfold Uniform; decide) 60 (by decide) (by decide)).imp
    fun _ h => ⟨h.1, h.2.1, h.2.2.1⟩

/-! ### Two stages -/

/- The smaller buckets that hold a sample and lie in the larger one. -/
def partsOf (inner : Dataset) (b B : UInt32) : List UInt32 := inner.keys.filter fun x => x / b = B

section Nested
variable {w : ℕ} {samples inner : Dataset} {a b : UInt32}

theorem nodup_partsOf (inner : Dataset) (b B : UInt32) : (partsOf inner b B).Nodup :=
  inner.nodup_keys.filter _

theorem mem_partsOf
    (hinner : ∀ x, inner.get? x = if bucket samples a x = [] then none
      else some (means (bucket samples a x))) {B x : UInt32} :
    x ∈ partsOf inner b B ↔ bucket samples a x ≠ [] ∧ x / b = B := by
  rw [partsOf, List.mem_filter, SortedMap.mem_keys, hinner x]
  split_ifs with hx
  · simp [hx]
  · simp [hx]

/- A bucket of the downsampled dataset: the means of its parts. -/
theorem bucket_inner
    (hinner : ∀ x, inner.get? x = if bucket samples a x = [] then none
      else some (means (bucket samples a x))) (B : UInt32) :
    bucket inner b B = (partsOf inner b B).map fun x => means (bucket samples a x) := by
  have hvalue : ∀ e ∈ inner.entries.filter fun e => e.1 / b = B,
      e.2 = means (bucket samples a e.1) := by
    intro e he
    have hget := (hinner e.1).symm.trans
      (SortedMap.get?_eq_some.mpr (List.mem_of_mem_filter he))
    split_ifs at hget
    exact (Option.some.inj hget).symm
  have hkeys : partsOf inner b B = (inner.entries.filter fun e => e.1 / b = B).map Prod.fst := by
    rw [partsOf, SortedMap.keys, List.filter_map]
    rfl
  rw [bucket, hkeys, List.map_map]
  exact List.map_congr_left hvalue

/- A larger bucket is empty when it has no parts. -/
theorem bucket_mul_eq_nil_iff (hdiv : ∀ t : UInt32, t / (a * b) = t / a / b)
    (hinner : ∀ x, inner.get? x = if bucket samples a x = [] then none
      else some (means (bucket samples a x))) (B : UInt32) :
    bucket samples (a * b) B = [] ↔ partsOf inner b B = [] := by
  rw [← not_iff_not, ← ne_eq, ← ne_eq, bucket_ne_nil_iff]
  refine ⟨?_, ?_⟩
  · intro ⟨e, he, hB⟩
    refine List.ne_nil_of_mem (a := e.1 / a) ((mem_partsOf hinner).mpr ?_)
    exact ⟨bucket_ne_nil_iff.mpr ⟨e, he, rfl⟩, by rw [← hdiv, hB]⟩
  · intro hne
    obtain ⟨x, hx⟩ := List.exists_mem_of_ne_nil _ hne
    obtain ⟨hx, hB⟩ := (mem_partsOf hinner).mp hx
    obtain ⟨e, he, rfl⟩ := bucket_ne_nil_iff.mp hx
    exact ⟨e, he, by rw [hdiv, hB]⟩

/- What is summed over the larger bucket is summed part by part. -/
theorem sum_parts (hdiv : ∀ t : UInt32, t / (a * b) = t / a / b)
    (hinner : ∀ x, inner.get? x = if bucket samples a x = [] then none
      else some (means (bucket samples a x))) (B : UInt32) (g : Datapoint → ℤ) :
    ((bucket samples (a * b) B).map g).sum =
      ((partsOf inner b B).map fun x => ((bucket samples a x).map g).sum).sum := by
  have hmem : ∀ e ∈ samples.entries.filter fun e => e.1 / (a * b) = B,
      e.1 / a ∈ partsOf inner b B := by
    intro e he
    obtain ⟨he, hB⟩ := List.mem_filter.mp he
    rw [mem_partsOf hinner, ← hdiv]
    exact ⟨bucket_ne_nil_iff.mpr ⟨e, he, rfl⟩, by simpa using hB⟩
  have hgroups := sum_map_groups (fun e : UInt32 × Datapoint => e.1 / a) (fun e => g e.2)
    (nodup_partsOf inner b B) hmem
  have hpart : ∀ x ∈ partsOf inner b B,
      (samples.entries.filter fun e => e.1 / (a * b) = B).filter (fun e => e.1 / a = x) =
        samples.entries.filter fun e => e.1 / a = x := by
    intro x hx
    obtain ⟨-, hB⟩ := (mem_partsOf hinner).mp hx
    rw [List.filter_filter]
    refine List.filter_congr fun e _ => ?_
    by_cases he : e.1 / a = x
    · simp [hdiv, he, hB]
    · simp [he]
  have hmap : ∀ l : List (UInt32 × Datapoint),
      (l.map Prod.snd).map g = l.map fun e => g e.2 := fun l => List.map_map
  simp only [bucket, hmap]
  rw [hgroups]
  congr 1
  refine List.map_congr_left fun x hx => ?_
  rw [hpart x hx]

/- Where the parts hold as many samples each, the mean of their means is the mean of
the larger bucket. -/
theorem mean_parts (hdiv : ∀ t : UInt32, t / (a * b) = t / a / b)
    (hinner : ∀ x, inner.get? x = if bucket samples a x = [] then none
      else some (means (bucket samples a x))) {B : UInt32} (hne : partsOf inner b B ≠ [])
    (heven : ∀ x ∈ partsOf inner b B, ∀ y ∈ partsOf inner b B,
      (bucket samples a x).length = (bucket samples a y).length) (i : ℕ) :
    ((partsOf inner b B).map fun x =>
        (columnSum (bucket samples a x) i : ℚ) / (bucket samples a x).length).sum /
      (partsOf inner b B).length =
    (columnSum (bucket samples (a * b) B) i : ℚ) / (bucket samples (a * b) B).length := by
  obtain ⟨y, hy⟩ := List.exists_mem_of_ne_nil _ hne
  have hlengths : ((bucket samples (a * b) B).length : ℤ) =
      (partsOf inner b B).length * (bucket samples a y).length := by
    have hsum := sum_parts hdiv hinner B fun _ => 1
    simp only [List.map_const', List.sum_replicate, nsmul_eq_mul, mul_one] at hsum
    rw [hsum, List.map_congr_left fun x hx => by rw [heven x hx y hy], List.map_const',
      List.sum_replicate, nsmul_eq_mul]
  have hsums : (columnSum (bucket samples (a * b) B) i : ℚ) =
      ((partsOf inner b B).map fun x => (columnSum (bucket samples a x) i : ℚ)).sum := by
    have hsum := sum_parts hdiv hinner B fun dp => (dp.getD i 0).toInt
    unfold columnSum
    rw [hsum, Int.cast_list_sum, List.map_map]
    rfl
  have hlength : ((bucket samples (a * b) B).length : ℚ) =
      (partsOf inner b B).length * (bucket samples a y).length := by exact_mod_cast hlengths
  rw [List.map_congr_left fun x hx => by rw [heven x hx y hy]]
  simp only [div_eq_mul_inv]
  rw [List.sum_map_mul_right, ← hsums, hlength, mul_inv]
  ring

/- Rounding the means of the parts moves the rounded mean by one at most. -/
theorem roundedMean_parts (h : Uniform w samples.entries)
    (hdiv : ∀ t : UInt32, t / (a * b) = t / a / b)
    (hinner : ∀ x, inner.get? x = if bucket samples a x = [] then none
      else some (means (bucket samples a x))) {B : UInt32} (hne : partsOf inner b B ≠ [])
    (heven : ∀ x ∈ partsOf inner b B, ∀ y ∈ partsOf inner b B,
      (bucket samples a x).length = (bucket samples a y).length) {i : ℕ} (hi : i < w) :
    |roundedMean (bucket inner b B) i - roundedMean (bucket samples (a * b) B) i| ≤ 1 := by
  have hvalues : ∀ x ∈ partsOf inner b B,
      ((means (bucket samples a x)).getD i 0).toInt =
        roundAway ((columnSum (bucket samples a x) i : ℚ) / (bucket samples a x).length) := by
    intro x hx
    have hx := ((mem_partsOf hinner).mp hx).1
    rw [toInt_means hx (by rwa [(average_uniform h hx).1]), roundedMean]
  have hsum : columnSum (bucket inner b B) i = ((partsOf inner b B).map fun x =>
      roundAway ((columnSum (bucket samples a x) i : ℚ) / (bucket samples a x).length)).sum := by
    rw [bucket_inner hinner, columnSum, List.map_map, ← List.map_congr_left hvalues]
    rfl
  have hlength : (bucket inner b B).length = (partsOf inner b B).length := by
    rw [bucket_inner hinner, List.length_map]
  rw [roundedMean, roundedMean]
  apply abs_roundAway_sub_roundAway_le
  rw [hsum, hlength, ← mean_parts hdiv hinner hne heven i]
  exact abs_mean_roundAway_sub_le _ hne

end Nested

/- A bucket of the product is a bucket of buckets. -/
theorem div_mul_divisor {a b : ℤ} (ha : 1 ≤ a) (hb : 1 ≤ b) (hab : a * b < 2 ^ 31) (t : UInt32) :
    t / (UInt32.ofInt a * UInt32.ofInt b) = t / UInt32.ofInt a / UInt32.ofInt b := by
  have hale : a ≤ a * b := le_mul_of_one_le_right (by omega) hb
  have hble : b ≤ a * b := le_mul_of_one_le_left (by omega) ha
  have hprod : (UInt32.ofInt a * UInt32.ofInt b).toNat =
      (UInt32.ofInt a).toNat * (UInt32.ofInt b).toNat := by
    rw [← UInt32.ofInt_mul, toNat_divisor (by omega) hab, toNat_divisor ha (by omega),
      toNat_divisor hb (by omega), Int.toNat_mul (by omega) (by omega)]
  rw [← UInt32.toNat_inj, UInt32.toNat_div, UInt32.toNat_div, UInt32.toNat_div, hprod,
    Nat.div_div_eq_div_mul]

/-- Downsampling in two stages, where all parts of a bucket that hold samples hold
as many: the timestamps are those of one stage, and the values differ by one at most. -/
theorem downsample_downsample (w : ℕ) (samples : Dataset) (h : Uniform w samples.entries)
    (a b : ℤ) (ha : 1 ≤ a) (hb : 1 ≤ b) (hab : a * b < 2 ^ 31)
    (heven : ∀ x y : UInt32, bucket samples (UInt32.ofInt a) x ≠ [] →
      bucket samples (UInt32.ofInt a) y ≠ [] → x / UInt32.ofInt b = y / UInt32.ofInt b →
      (bucket samples (UInt32.ofInt a) x).length = (bucket samples (UInt32.ofInt a) y).length) :
    ∃ inner twice once, downsample samples a defaultWatts = some inner ∧
      downsample inner b defaultWatts = some twice ∧
      downsample samples (a * b) defaultWatts = some once ∧ twice.keys = once.keys ∧
      ∀ B v v', twice.get? B = some v → once.get? B = some v' →
        v.length = v'.length ∧ ∀ i, |(v.getD i 0).toInt - (v'.getD i 0).toInt| ≤ 1 := by
  have hale : a ≤ a * b := le_mul_of_one_le_right (by omega) hb
  have hble : b ≤ a * b := le_mul_of_one_le_left (by omega) ha
  have hdiv := div_mul_divisor ha hb hab
  obtain ⟨inner, hinner, hui, hgi⟩ := downsample_eq_some h (ofInt_ne_zero ha (by omega))
  obtain ⟨twice, htwice, hut, hgt⟩ := downsample_eq_some hui (ofInt_ne_zero hb (by omega))
  obtain ⟨once, honce, huo, hgo⟩ := downsample_eq_some h
    (ofInt_ne_zero (z := a * b) (by nlinarith) hab)
  rw [UInt32.ofInt_mul] at hgo
  have hparts : ∀ B, bucket inner (UInt32.ofInt b) B = [] ↔
      partsOf inner (UInt32.ofInt b) B = [] := by
    intro B
    rw [bucket_inner hgi, List.map_eq_nil_iff]
  have hsame := bucket_mul_eq_nil_iff hdiv hgi
  refine ⟨inner, twice, once, hinner, htwice, honce, SortedMap.keys_congr fun B => ?_,
    fun B v v' hv hv' => ?_⟩
  · rw [hgt, hgo]
    by_cases hB : partsOf inner (UInt32.ofInt b) B = []
    · rw [if_pos ((hparts B).mpr hB), if_pos ((hsame B).mpr hB)]
    · rw [if_neg fun hc => hB ((hparts B).mp hc), if_neg fun hc => hB ((hsame B).mp hc)]
      simp
  · have hlv := hut _ (SortedMap.get?_eq_some.mp hv)
    have hlv' := huo _ (SortedMap.get?_eq_some.mp hv')
    rw [hgt] at hv
    rw [hgo] at hv'
    split_ifs at hv with hbt
    split_ifs at hv' with hbo
    obtain rfl := Option.some.inj hv
    obtain rfl := Option.some.inj hv'
    refine ⟨hlv.trans hlv'.symm, fun i => ?_⟩
    by_cases hi : i < w
    · rw [toInt_means hbt (by rwa [(average_uniform hui hbt).1]),
        toInt_means hbo (by rwa [(average_uniform h hbo).1])]
      refine roundedMean_parts h hdiv hgi (fun hc => hbt ((hparts B).mpr hc)) ?_ hi
      intro x hx y hy
      obtain ⟨hx, hxB⟩ := (mem_partsOf hgi).mp hx
      obtain ⟨hy, hyB⟩ := (mem_partsOf hgi).mp hy
      exact heven x y hx hy (hxB.trans hyB.symm)
    · rw [List.getD_eq_default _ _ (hlv.le.trans (not_lt.mp hi)),
        List.getD_eq_default _ _ (hlv'.le.trans (not_lt.mp hi))]
      decide

/- Two samples in each of two minutes. -/
def evenMinutes : Dataset where
  entries := [(0, [3]), (30, [-4]), (60, [7]), (90, [2])]
  sorted := by decide

theorem downsample_downsample_evenMinutes :
    ∃ inner twice once, downsample evenMinutes 60 defaultWatts = some inner ∧
      downsample inner 5 defaultWatts = some twice ∧
      downsample evenMinutes (60 * 5) defaultWatts = some once ∧ twice.keys = once.keys ∧
      ∀ B v v', twice.get? B = some v → once.get? B = some v' →
        v.length = v'.length ∧ ∀ i, |(v.getD i 0).toInt - (v'.getD i 0).toInt| ≤ 1 := by
  refine downsample_downsample 1 evenMinutes (by unfold Uniform; decide) 60 5 (by decide) (by decide)
    (by decide) fun x y hx hy _ => ?_
  have heven : ∀ e ∈ evenMinutes.entries, ∀ e' ∈ evenMinutes.entries,
      (bucket evenMinutes (UInt32.ofInt 60) (e.1 / UInt32.ofInt 60)).length =
        (bucket evenMinutes (UInt32.ofInt 60) (e'.1 / UInt32.ofInt 60)).length := by decide
  obtain ⟨e, he, rfl⟩ := bucket_ne_nil_iff.mp hx
  obtain ⟨e', he', rfl⟩ := bucket_ne_nil_iff.mp hy
  exact heven e he e' he'

end Iotic.Database
