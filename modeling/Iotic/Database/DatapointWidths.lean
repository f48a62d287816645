import Iotic.Database.ArchiveDayUseCase
import Iotic.Database.DayView

/-!
# Datapoints of different widths on the archive path

The three loops over a day index one vector by the width of another: the sum of a
bucket by each datapoint's, the last kept datapoint by the next one's, every row by
the first one's. A dataset is followed through the loops by the widths of its
buckets.
-/

namespace Iotic.Database
open Sequences Iotic.Common DatabasePrivate

/- Every index stays within the vector it indexes: `sum[i]`, then
`lastDatapoint[i]`, then `dataPoint[i]`. -/
structure IndicesInBounds (lib : CborLibrary) (samples : Dataset) (timeDivisor : ℤ) : Prop where
  sums : ∀ m, buckets samples timeDivisor = some m → ∀ e ∈ m.entries, (sumLoop [] e.2).isSome
  lasts : ∀ ds, downsample samples timeDivisor defaultWatts = some ds → (deltaCompress ds).isSome
  rows : ∀ ds delta, downsample samples timeDivisor defaultWatts = some ds →
    deltaCompress ds = some delta → (cborEncode lib delta).isSome

def firstWidth (samples : Dataset) (divisor : UInt32) : ℕ :=
  match samples.entries with
  | [] => 0
  | e :: _ => width (bucket samples divisor (e.1 / divisor))

/- The condition: within a bucket no datapoint is wider than the first non-empty
one, no bucket is wider than the first one, and one that is narrower repeats the
means of the last one before it that was not. -/
structure WidthsFit (samples : Dataset) (divisor : UInt32) : Prop where
  within : ∀ b, ∀ dp ∈ bucket samples divisor b, dp.length ≤ width (bucket samples divisor b)
  noWider : ∀ b, width (bucket samples divisor b) ≤ firstWidth samples divisor
  repeated : ∀ b' b, b' < b → width (bucket samples divisor b) < firstWidth samples divisor →
    width (bucket samples divisor b') = firstWidth samples divisor →
    (∀ c, b' < c → c < b → width (bucket samples divisor c) < firstWidth samples divisor) →
    means (bucket samples divisor b) <+: means (bucket samples divisor b')

/-! ### The two last loops on a list of entries -/

/- What may come after a kept datapoint: one as wide, or a narrower one that is
skipped. -/
def Follows : Datapoint → List (UInt32 × Datapoint) → Prop
  | _, [] => True
  | last, e :: es => (e.2.length = last.length ∧ Follows e.2 es) ∨
    (e.2.length < last.length ∧ e.2 <+: last ∧ Follows last es)

theorem cborEncode_isSome_iff (lib : CborLibrary) (front : UInt32 × Datapoint) (rest : DeltaDataset) :
    (cborEncode lib (front :: rest)).isSome ↔ ∀ e ∈ rest, front.2.length ≤ e.2.length := by
  rw [cborEncode, Option.isSome_map, mapM_isSome_iff]
  simp only [Option.isSome_map, columnAt, mapM_isSome_iff, List.mem_range, List.forall_mem_cons,
    isSome_getElem?]
  constructor
  · intro h e he
    by_contra hlt
    exact absurd ((h e.2.length (by omega)).2 e he) (lt_irrefl _)
  · intro h i hi
    exact ⟨hi, fun e he => hi.trans_le (h e he)⟩

theorem length_sub_of_le {a b : Datapoint} (h : a.length ≤ b.length) : (sub a b).length = a.length := by
  rw [sub, List.length_zipWith, Nat.min_eq_left h]

/- The loop of deltaCompress runs through, and keeps only rows as wide as the first,
exactly on entries that may follow. -/
theorem compressFrom_follows {w : ℕ} (t : UInt32) (last : Datapoint)
    (es : List (UInt32 × Datapoint)) (hw : last.length = w) :
    (∃ out, compressFrom t last es = some out ∧ ∀ x ∈ out, w ≤ x.2.length) ↔ Follows last es := by
  induction es generalizing t last with
  | nil => exact ⟨fun _ => trivial, fun _ => ⟨[], rfl, by simp⟩⟩
  | cons e es ih =>
    rw [compressFrom, Follows]
    rcases lt_or_ge last.length e.2.length with hwide | hle
    · rw [minus_eq_none _ _ hwide]
      constructor
      · rintro ⟨out, hout, -⟩
        cases hout
      · omega
    · rw [minus_eq _ _ hle, Option.bind_some]
      by_cases hskip : e.2 <+: last
      · rw [if_pos ((sub_all_zero_iff _ _ hle).mpr hskip), ih t last hw]
        constructor
        · intro hf
          rcases hle.lt_or_eq with hlt | heq
          · exact Or.inr ⟨hlt, hskip, hf⟩
          · exact Or.inl ⟨heq, by rwa [hskip.eq_of_length heq]⟩
        · rintro (⟨heq, hf⟩ | ⟨-, -, hf⟩)
          · rwa [hskip.eq_of_length heq] at hf
          · exact hf
      · rw [if_neg fun hz => hskip ((sub_all_zero_iff _ _ hle).mp hz)]
        constructor
        · rintro ⟨out, hout, hrows⟩
          obtain ⟨out, hrest, rfl⟩ := Option.map_eq_some_iff.mp hout
          obtain ⟨hhead, htail⟩ := List.forall_mem_cons.mp hrows
          rw [length_sub_of_le hle] at hhead
          have heq : e.2.length = w := by omega
          exact Or.inl ⟨by omega, (ih e.1 e.2 heq).mp ⟨out, hrest, htail⟩⟩
        · rintro (⟨heq, hf⟩ | ⟨-, hp, -⟩)
          · obtain ⟨out, hrest, htail⟩ := (ih e.1 e.2 (by omega)).mpr hf
            refine ⟨_, by rw [hrest]; rfl, List.forall_mem_cons.mpr ⟨?_, htail⟩⟩
            rw [length_sub_of_le hle]
            omega
          · exact absurd hp hskip

/- An entry narrower than `w` is a prefix of the last one before it that has `w`. -/
def Repeated (w : ℕ) (es : List (UInt32 × Datapoint)) : Prop :=
  ∀ e' ∈ es, ∀ e ∈ es, e'.1 < e.1 → e.2.length < w → e'.2.length = w →
    (∀ c ∈ es, e'.1 < c.1 → c.1 < e.1 → c.2.length < w) → e.2 <+: e'.2

/- A wide entry hides the ones before it from those behind. -/
theorem repeated_cons_wide {w : ℕ} {last e : UInt32 × Datapoint} {es : List (UInt32 × Datapoint)}
    (hs : (last :: e :: es).Pairwise fun a b => a.1 < b.1) (he : e.2.length = w) :
    Repeated w (last :: e :: es) ↔ Repeated w (e :: es) := by
  obtain ⟨hlast, htail⟩ := List.pairwise_cons.mp hs
  obtain ⟨hes, -⟩ := List.pairwise_cons.mp htail
  constructor
  · intro h a ha b hb hab hbw haw hbetween
    refine h a (List.mem_cons_of_mem _ ha) b (List.mem_cons_of_mem _ hb) hab hbw haw fun c hc hac => ?_
    rcases List.mem_cons.mp hc with rfl | hc
    · exact absurd (hlast a ha) (lt_asymm hac)
    · exact hbetween c hc hac
  · intro h a ha b hb hab hbw haw hbetween
    rcases List.mem_cons.mp hb with rfl | hbt
    · rcases List.mem_cons.mp ha with rfl | ha
      · exact absurd hab (lt_irrefl _)
      · exact absurd (hlast a ha) (lt_asymm hab)
    · rcases List.mem_cons.mp ha with rfl | hat
      · rcases List.mem_cons.mp hbt with rfl | hbs
        · omega
        · have hwide := hbetween e (by simp) (hlast e (by simp)) (hes b hbs)
          omega
      · exact h a hat b hbt hab hbw haw fun c hc => hbetween c (List.mem_cons_of_mem _ hc)

/- A narrow entry must repeat the wide one just before it and leaves the rest as
it is. -/
theorem repeated_cons_narrow {w : ℕ} {last e : UInt32 × Datapoint}
    {es : List (UInt32 × Datapoint)} (hs : (last :: e :: es).Pairwise fun a b => a.1 < b.1)
    (hl : last.2.length = w) (he : e.2.length < w) :
    Repeated w (last :: e :: es) ↔ e.2 <+: last.2 ∧ Repeated w (last :: es) := by
  obtain ⟨hlast, htail⟩ := List.pairwise_cons.mp hs
  obtain ⟨hes, -⟩ := List.pairwise_cons.mp htail
  have hsub : ∀ x ∈ last :: es, x ∈ last :: e :: es := fun x hx => by
    rcases List.mem_cons.mp hx with rfl | hx <;> simp [*]
  constructor
  · refine fun h => ⟨?_, fun a ha b hb hab hbw haw hbetween => ?_⟩
    · refine h last (by simp) e (by simp) (hlast e (by simp)) he hl fun c hc hlc hce => ?_
      rcases List.mem_cons.mp hc with rfl | hc
      · exact absurd hlc (lt_irrefl _)
      · rcases List.mem_cons.mp hc with rfl | hc
        · exact absurd hce (lt_irrefl _)
        · exact absurd (hes c hc) (lt_asymm hce)
    · refine h a (hsub a ha) b (hsub b hb) hab hbw haw fun c hc hac hcb => ?_
      rcases List.mem_cons.mp hc with rfl | hc
      · exact hbetween c (by simp) hac hcb
      · rcases List.mem_cons.mp hc with rfl | hc
        · exact he
        · exact hbetween c (by simp [hc]) hac hcb
  · rintro ⟨hp, h⟩ a ha b hb hab hbw haw hbetween
    have ha' : a ∈ last :: es := by
      rcases List.mem_cons.mp ha with rfl | ha
      · simp
      · rcases List.mem_cons.mp ha with rfl | ha
        · omega
        · simp [ha]
    rcases List.mem_cons.mp hb with rfl | hb
    · omega
    · rcases List.mem_cons.mp hb with rfl | hb
      · rcases List.mem_cons.mp ha' with rfl | ha'
        · exact hp
        · exact absurd (hes a ha') (lt_asymm hab)
      · exact h a ha' b (by simp [hb]) hab hbw haw fun c hc => hbetween c (hsub c hc)

theorem follows_iff (last : UInt32 × Datapoint) (es : List (UInt32 × Datapoint))
    (hs : (last :: es).Pairwise fun a b => a.1 < b.1) :
    Follows last.2 es ↔
      (∀ e ∈ es, e.2.length ≤ last.2.length) ∧ Repeated last.2.length (last :: es) := by
  induction es generalizing last with
  | nil =>
    refine ⟨fun _ => ⟨by simp, fun a ha b hb hab => ?_⟩, fun _ => trivial⟩
    obtain rfl := List.mem_singleton.mp ha
    obtain rfl := List.mem_singleton.mp hb
    exact absurd hab (lt_irrefl _)
  | cons e es ih =>
    obtain ⟨hlast, htail⟩ := List.pairwise_cons.mp hs
    rw [Follows, List.forall_mem_cons]
    rcases lt_trichotomy e.2.length last.2.length with hlt | heq | hgt
    · have hs' : (last :: es).Pairwise fun a b => a.1 < b.1 :=
        hs.sublist ((List.sublist_cons_self e es).cons_cons last)
      rw [repeated_cons_narrow hs rfl hlt, ih last hs']
      constructor
      · rintro (⟨heq, -⟩ | ⟨-, hp, hle, hr⟩)
        · omega
        · exact ⟨⟨hlt.le, hle⟩, hp, hr⟩
      · rintro ⟨⟨-, hle⟩, hp, hr⟩
        exact Or.inr ⟨hlt, hp, hle, hr⟩
    · rw [repeated_cons_wide hs heq, ih e htail, ← heq]
      constructor
      · rintro (⟨-, hle, hr⟩ | ⟨hlt, -⟩)
        · exact ⟨⟨le_rfl, hle⟩, hr⟩
        · omega
      · rintro ⟨⟨-, hle⟩, hr⟩
        exact Or.inl ⟨rfl, hle, hr⟩
    · constructor
      · rintro (⟨heq, -⟩ | ⟨hlt, -⟩) <;> omega
      · rintro ⟨⟨hle, -⟩, -⟩
        omega

/- Together: the last two loops stay in bounds on a list of entries. -/
theorem encode_compress_iff (lib : CborLibrary) (ds : Dataset) {first : UInt32 × Datapoint}
    {rest : List (UInt32 × Datapoint)} (h : ds.entries = first :: rest) :
    ((deltaCompress ds).isSome ∧
        ∀ delta, deltaCompress ds = some delta → (cborEncode lib delta).isSome) ↔
      (∀ e ∈ ds.entries, e.2.length ≤ first.2.length) ∧ Repeated first.2.length ds.entries := by
  have hs := ds.sorted
  have hloops : ((deltaCompress ds).isSome ∧
      ∀ delta, deltaCompress ds = some delta → (cborEncode lib delta).isSome) ↔
      ∃ out, compressFrom first.1 first.2 rest = some out ∧ ∀ x ∈ out, first.2.length ≤ x.2.length := by
    rw [deltaCompress, h]
    dsimp only
    cases compressFrom first.1 first.2 rest with
    | none => simp
    | some out => simp [cborEncode_isSome_iff]
  rw [h] at hs ⊢
  rw [hloops, compressFrom_follows first.1 first.2 rest rfl, follows_iff first rest hs,
    List.forall_mem_cons]
  simp

/-! ### From the buckets to the entries -/

section Buckets
variable {samples : Dataset} {timeDivisor : ℤ} (hd : UInt32.ofInt timeDivisor ≠ 0)
include hd

theorem sums_iff : (∀ m, buckets samples timeDivisor = some m → ∀ e ∈ m.entries,
      (sumLoop [] e.2).isSome) ↔
    ∀ b, ∀ dp ∈ bucket samples (UInt32.ofInt timeDivisor) b,
      dp.length ≤ width (bucket samples (UInt32.ofInt timeDivisor) b) := by
  obtain ⟨m, hm, hg⟩ := buckets_get? samples hd
  constructor
  · intro h b
    rcases eq_or_ne (bucket samples (UInt32.ofInt timeDivisor) b) [] with hempty | hne
    · simp [hempty]
    · have hb := hg b
      rw [if_neg hne] at hb
      exact (sumLoop_isSome_iff _).mp (h m hm _ (SortedMap.get?_eq_some.mp hb))
  · intro h m' hm' e he
    obtain rfl := Option.some.inj (hm.symm.trans hm')
    have hb := (hg e.1).symm.trans (SortedMap.get?_eq_some.mpr he)
    split_ifs at hb
    rw [← Option.some.inj hb, sumLoop_isSome_iff]
    exact h e.1

variable {ds : Dataset} (hds : downsample samples timeDivisor defaultWatts = some ds)
  (hwithin : ∀ b, ∀ dp ∈ bucket samples (UInt32.ofInt timeDivisor) b,
    dp.length ≤ width (bucket samples (UInt32.ofInt timeDivisor) b))
include hds hwithin

/- The downsampled dataset is the means of the buckets that hold a sample. -/
theorem mem_downsampled (e : UInt32 × Datapoint) : e ∈ ds.entries ↔
    bucket samples (UInt32.ofInt timeDivisor) e.1 ≠ [] ∧
      e.2 = means (bucket samples (UInt32.ofInt timeDivisor) e.1) := by
  rw [← SortedMap.get?_eq_some, downsample_get? hd hds]
  split_ifs with hempty
  · simp [hempty]
  · rw [average_eq _ hempty (hwithin e.1), Option.some_inj]
    exact ⟨fun h => ⟨hempty, h.symm⟩, fun h => h.2.symm⟩

theorem mem_of_occupied {b : UInt32} (h : bucket samples (UInt32.ofInt timeDivisor) b ≠ []) :
    (b, means (bucket samples (UInt32.ofInt timeDivisor) b)) ∈ ds.entries :=
  (mem_downsampled hd hds hwithin _).mpr ⟨h, rfl⟩

/- Nothing is left of a dataset only when nothing was in it. -/
theorem entries_eq_nil (h : ds.entries = []) : samples.entries = [] := by
  refine List.eq_nil_iff_forall_not_mem.mpr fun e he => ?_
  have hin : e.2 ∈ bucket samples (UInt32.ofInt timeDivisor) (e.1 / UInt32.ofInt timeDivisor) :=
    List.mem_map.mpr ⟨e, List.mem_filter.mpr ⟨he, by simp⟩, rfl⟩
  have hmem := mem_of_occupied hd hds hwithin (List.ne_nil_of_mem hin)
  rw [h] at hmem
  cases hmem

/- The first entry is the bucket of the first sample. -/
theorem length_first {first : UInt32 × Datapoint} {rest : List (UInt32 × Datapoint)}
    (h : ds.entries = first :: rest) :
    first.2.length = firstWidth samples (UInt32.ofInt timeDivisor) := by
  obtain ⟨hne, hmeans⟩ := (mem_downsampled hd hds hwithin first).mp (by simp [h])
  obtain ⟨dp, hdp⟩ := List.exists_mem_of_ne_nil _ hne
  obtain ⟨x, hx, -⟩ := List.mem_map.mp hdp
  obtain ⟨hx, hxb⟩ := List.mem_filter.mp hx
  have hxb := of_decide_eq_true hxb
  obtain ⟨e, es, hes⟩ := List.exists_cons_of_ne_nil (List.ne_nil_of_mem hx)
  have hle : e.1 / UInt32.ofInt timeDivisor ≤ first.1 := by
    have hex : e.1 ≤ x.1 := by
      rw [hes] at hx
      rcases List.mem_cons.mp hx with rfl | hx
      · exact le_rfl
      · have hs := samples.sorted
        rw [hes] at hs
        exact (List.rel_of_pairwise_cons hs hx).le
    rw [← hxb, UInt32.le_iff_toNat_le, UInt32.toNat_div, UInt32.toNat_div]
    exact Nat.div_le_div_right (UInt32.le_iff_toNat_le.mp hex)
  have hge : first.1 ≤ e.1 / UInt32.ofInt timeDivisor := by
    have hoccupied : bucket samples (UInt32.ofInt timeDivisor) (e.1 / UInt32.ofInt timeDivisor) ≠ [] := by
      refine List.ne_nil_of_mem (a := e.2) (List.mem_map.mpr ⟨e, List.mem_filter.mpr ⟨?_, ?_⟩, rfl⟩)
      · simp [hes]
      · simp
    have hin := mem_of_occupied hd hds hwithin hoccupied
    have hs := ds.sorted
    rw [h] at hin hs
    rcases List.mem_cons.mp hin with heq | hin
    · exact (congrArg Prod.fst heq).ge
    · exact (List.rel_of_pairwise_cons hs hin).le
  rw [hmeans, length_means, le_antisymm hge hle, firstWidth, hes]

theorem noWider_iff (w : ℕ) : (∀ e ∈ ds.entries, e.2.length ≤ w) ↔
    ∀ b, width (bucket samples (UInt32.ofInt timeDivisor) b) ≤ w := by
  constructor
  · intro h b
    rcases eq_or_ne (bucket samples (UInt32.ofInt timeDivisor) b) [] with hempty | hne
    · rw [hempty]
      exact Nat.zero_le w
    · have he := h _ (mem_of_occupied hd hds hwithin hne)
      rwa [length_means] at he
  · intro h e he
    rw [((mem_downsampled hd hds hwithin e).mp he).2, length_means]
    exact h e.1

theorem repeated_iff (w : ℕ) : Repeated w ds.entries ↔
    ∀ b' b, b' < b → width (bucket samples (UInt32.ofInt timeDivisor) b) < w →
      width (bucket samples (UInt32.ofInt timeDivisor) b') = w →
      (∀ c, b' < c → c < b → width (bucket samples (UInt32.ofInt timeDivisor) c) < w) →
      means (bucket samples (UInt32.ofInt timeDivisor) b) <+:
        means (bucket samples (UInt32.ofInt timeDivisor) b') := by
  have hentry := mem_downsampled hd hds hwithin
  constructor
  · intro h b' b hlt hb hb' hbetween
    rcases eq_or_ne (bucket samples (UInt32.ofInt timeDivisor) b) [] with hempty | hne
    · rw [hempty]
      exact List.nil_prefix
    · have hne' : bucket samples (UInt32.ofInt timeDivisor) b' ≠ [] := by
        intro hempty
        rw [hempty] at hb'
        simp only [width] at hb'
        omega
      refine h _ (mem_of_occupied hd hds hwithin hne') _ (mem_of_occupied hd hds hwithin hne) hlt
        (by rwa [length_means]) (by rwa [length_means]) fun c hc hbc hcb => ?_
      rw [((hentry c).mp hc).2, length_means]
      exact hbetween c.1 hbc hcb
  · intro h a ha e he hlt hew haw hbetween
    rw [((hentry e).mp he).2, length_means] at hew
    rw [((hentry a).mp ha).2, length_means] at haw
    rw [((hentry e).mp he).2, ((hentry a).mp ha).2]
    refine h a.1 e.1 hlt hew haw fun c hac hce => ?_
    rcases eq_or_ne (bucket samples (UInt32.ofInt timeDivisor) c) [] with hempty | hne
    · rw [hempty]
      exact Nat.zero_lt_of_lt hew
    · have hc := hbetween _ (mem_of_occupied hd hds hwithin hne) hac hce
      rwa [length_means] at hc

end Buckets

/-! ### All three loops -/

theorem widthsFit_of_empty {samples : Dataset} (h : samples.entries = []) (divisor : UInt32) :
    WidthsFit samples divisor := by
  have hbucket : ∀ b, bucket samples divisor b = [] := fun b => by simp only [bucket, h]; rfl
  refine ⟨fun b dp hdp => ?_, fun b => ?_, fun b' b _ _ _ _ => ?_⟩
  · rw [hbucket] at hdp
    cases hdp
  · rw [hbucket]
    exact Nat.zero_le _
  · rw [hbucket]
    exact List.nil_prefix

theorem indicesInBounds_of_divisor {samples : Dataset} {timeDivisor : ℤ}
    (hd : UInt32.ofInt timeDivisor ≠ 0) (lib : CborLibrary) :
    IndicesInBounds lib samples timeDivisor ↔ WidthsFit samples (UInt32.ofInt timeDivisor) := by
  have hloops : IndicesInBounds lib samples timeDivisor ↔
      (∀ b, ∀ dp ∈ bucket samples (UInt32.ofInt timeDivisor) b,
        dp.length ≤ width (bucket samples (UInt32.ofInt timeDivisor) b)) ∧
      ∀ ds, downsample samples timeDivisor defaultWatts = some ds → (deltaCompress ds).isSome ∧
        ∀ delta, deltaCompress ds = some delta → (cborEncode lib delta).isSome := by
    rw [← sums_iff hd]
    exact ⟨fun h => ⟨h.sums, fun ds hds => ⟨h.lasts ds hds, fun delta => h.rows ds delta hds⟩⟩,
      fun h => ⟨h.1, fun ds hds => (h.2 ds hds).1, fun ds delta hds => (h.2 ds hds).2 delta⟩⟩
  rw [hloops]
  by_cases hwithin : ∀ b, ∀ dp ∈ bucket samples (UInt32.ofInt timeDivisor) b,
      dp.length ≤ width (bucket samples (UInt32.ofInt timeDivisor) b)
  · have hsome : (downsample samples timeDivisor defaultWatts).isSome :=
      (downsample_isSome_iff _ hd).mpr fun b hb => (average_isSome_iff _ hb).mpr (hwithin b)
    obtain ⟨ds, hds⟩ := Option.isSome_iff_exists.mp hsome
    have hall : (∀ ds, downsample samples timeDivisor defaultWatts = some ds →
        (deltaCompress ds).isSome ∧
          ∀ delta, deltaCompress ds = some delta → (cborEncode lib delta).isSome) ↔
        ((deltaCompress ds).isSome ∧
          ∀ delta, deltaCompress ds = some delta → (cborEncode lib delta).isSome) := by
      rw [hds]
      simp only [Option.some_inj, forall_eq']
    rw [hall]
    rcases hentries : ds.entries with - | ⟨first, rest⟩
    · have hempty := entries_eq_nil hd hds hwithin hentries
      have hnil : deltaCompress ds = some [] := by rw [deltaCompress, hentries]
      refine ⟨fun _ => widthsFit_of_empty hempty _, fun _ => ⟨hwithin, by rw [hnil]; rfl, ?_⟩⟩
      intro delta hdelta
      rw [hnil] at hdelta
      rw [← Option.some.inj hdelta]
      rfl
    · rw [encode_compress_iff lib ds hentries, length_first hd hds hwithin hentries,
        noWider_iff hd hds hwithin, repeated_iff hd hds hwithin]
      exact ⟨fun h => ⟨h.1, h.2.1, h.2.2⟩, fun h => ⟨h.within, h.noWider, h.repeated⟩⟩
  · exact ⟨fun h => absurd h.1 hwithin, fun h => absurd h.within hwithin⟩

/- With a divisor, an index past the end is all that can go wrong on the path. -/
theorem cborData_isSome_iff {samples : Dataset} {timeDivisor : ℤ}
    (hd : UInt32.ofInt timeDivisor ≠ 0) (lib : CborLibrary) :
    (cborData lib samples timeDivisor).isSome ↔ IndicesInBounds lib samples timeDivisor := by
  have hsums : (∀ m, buckets samples timeDivisor = some m → ∀ e ∈ m.entries,
      (sumLoop [] e.2).isSome) ↔ (downsample samples timeDivisor defaultWatts).isSome := by
    rw [sums_iff hd, downsample_isSome_iff _ hd]
    refine forall_congr' fun b => ?_
    rcases eq_or_ne (bucket samples (UInt32.ofInt timeDivisor) b) [] with hempty | hne
    · simp [hempty]
    · rw [average_isSome_iff _ hne]
      exact ⟨fun h _ => h, fun h => h hne⟩
  have hloops : IndicesInBounds lib samples timeDivisor ↔
      (downsample samples timeDivisor defaultWatts).isSome ∧
      (∀ ds, downsample samples timeDivisor defaultWatts = some ds → (deltaCompress ds).isSome) ∧
      ∀ ds delta, downsample samples timeDivisor defaultWatts = some ds →
        deltaCompress ds = some delta → (cborEncode lib delta).isSome := by
    rw [← hsums]
    exact ⟨fun h => ⟨h.sums, h.lasts, h.rows⟩, fun h => ⟨h.1, h.2.1, h.2.2⟩⟩
  rw [hloops]
  unfold cborData compressed
  cases downsample samples timeDivisor defaultWatts with
  | none => simp
  | some ds =>
    cases hc : deltaCompress ds with
    | none => simp [hc]
    | some delta =>
      simp only [Option.bind_some, Option.isSome_some, Option.some_inj, true_and, hc]
      constructor
      · intro h
        refine ⟨fun ds' hds' => by rw [← hds', hc]; rfl, fun ds' delta' hds' hdelta' => ?_⟩
        rw [← hds', hc] at hdelta'
        rwa [← Option.some.inj hdelta']
      · exact fun h => h.2 ds delta rfl hc

/-- For every raw dataset and every divisor: the indices of the three loops are in
bounds if and only if, where there is a divisor at all, the widths of the buckets
fit. -/
theorem indicesInBounds_iff (lib : CborLibrary) (samples : Dataset) (timeDivisor : ℤ) :
    IndicesInBounds lib samples timeDivisor ↔
      (UInt32.ofInt timeDivisor ≠ 0 → WidthsFit samples (UInt32.ofInt timeDivisor)) := by
  by_cases hd : UInt32.ofInt timeDivisor = 0
  · refine ⟨fun _ h => absurd hd h, fun _ => ?_⟩
    have hnone : ∀ ts, bucketTimestamp ts timeDivisor = none := fun ts => by
      simp only [bucketTimestamp, if_pos hd]
    have hempty : ∀ m, buckets samples timeDivisor = some m → m.entries = [] := by
      intro m hm
      have hdivides := buckets_divides (by rw [hm]; rfl : (buckets samples timeDivisor).isSome)
      rcases he : samples.entries with - | ⟨e, es⟩
      · rw [buckets, he] at hm
        rw [← Option.some.inj hm]
        rfl
      · have h := hdivides e (by simp [he])
        rw [hnone] at h
        cases h
    have hds : ∀ ds, downsample samples timeDivisor defaultWatts = some ds → ds.entries = [] := by
      intro ds h
      obtain ⟨m, hm, h⟩ := Option.bind_eq_some_iff.mp h
      rw [hempty m hm] at h
      rw [← Option.some.inj h]
      rfl
    have hnil : ∀ ds, downsample samples timeDivisor defaultWatts = some ds →
        deltaCompress ds = some [] := fun ds h => by rw [deltaCompress, hds ds h]
    refine ⟨fun m hm e he => ?_, fun ds h => by rw [hnil ds h]; rfl, fun ds delta h hdelta => ?_⟩
    · rw [hempty m hm] at he
      cases he
    · rw [hnil ds h] at hdelta
      rw [← Option.some.inj hdelta]
      rfl
  · rw [indicesInBounds_of_divisor hd]
    exact ⟨fun h _ => h, fun h => h hd⟩

/- An inverter whose second string starts to report within a bucket. -/
def secondString : List (UInt32 × Datapoint) := [(1728000000, [10]), (1728000060, [10, 20])]

def secondStringRaw : Dataset := contentAfter SortedMap.empty [] secondString

/- The day's raw data are what was stored, and archiving them at five minutes
indexes the second value of a sum of one. -/
theorem not_indicesInBounds_secondString :
    ((putReadings fresh "inverter".toList .dcPower secondString).rawData "inverter".toList .dcPower
      20000).1 = some secondStringRaw ∧
    ¬ IndicesInBounds .shortest secondStringRaw (factor 5) := by
  obtain ⟨hco, hholds⟩ := putReadings_holds (k := .dcPower) secondString fresh_coherent
    (fresh_holds "inverter".toList .dcPower)
  constructor
  · rw [hholds.rawData hco]
    exact congrArg some (SortedMap.ext (by decide))
  · rw [indicesInBounds_of_divisor (by decide)]
    intro h
    have hfit := h.within 5760000 [10, 20] (by decide)
    exact absurd hfit (by decide)

end Iotic.Database
