import Iotic.Database.DatabaseTypes
import Iotic.Lib.Sequences

/-!
# Delta coding of datasets (DatabaseUtil::deltaCompress, deltaDecompress)

`none` is an index past the end of a vector. Both subtractions wrap: timestamps
in 32 bits, values by the narrowing to `int16_t`.
-/

namespace Iotic.Database
open Sequences

/-! ### The loops -/

/- `deltaDatapoint[i] = datapoint[i] - lastDatapoint[i]` for the indices of `datapoint`. -/
def minus : Datapoint → Datapoint → Option Datapoint
  | [], _ => some []
  | _ :: _, [] => none
  | v :: datapoint, l :: lastDatapoint =>
    (minus datapoint lastDatapoint).map fun rest => (v - l) :: rest

/- `vec[i] = currentValue[i] + deltaValue[i]` for the indices of `deltaValue`. -/
def plus : Datapoint → Datapoint → Option Datapoint
  | _, [] => some []
  | [], _ :: _ => none
  | c :: currentValue, d :: deltaValue =>
    (plus currentValue deltaValue).map fun rest => (c + d) :: rest

/- The loop of deltaCompress after its first iteration. -/
def compressFrom (lastTimestamp : UInt32) (lastDatapoint : Datapoint) :
    List (UInt32 × Datapoint) → Option DeltaDataset
  | [] => some []
  | (timestamp, datapoint) :: rest =>
    (minus datapoint lastDatapoint).bind fun deltaDatapoint =>
      if deltaDatapoint.all (· == 0) then compressFrom lastTimestamp lastDatapoint rest
      else (compressFrom timestamp datapoint rest).map fun out =>
        (timestamp - lastTimestamp, deltaDatapoint) :: out

def deltaCompress (dataset : Dataset) : Option DeltaDataset :=
  match dataset.entries with
  | [] => some []
  | (timestamp, datapoint) :: rest =>
    (compressFrom timestamp datapoint rest).map fun out => (timestamp, datapoint) :: out

/- The loop of deltaDecompress after its first iteration. -/
def decompressFrom (currentTimestamp : UInt32) (currentValue : Datapoint) (samples : Dataset) :
    DeltaDataset → Option Dataset
  | [] => some samples
  | (deltaTimestamp, deltaValue) :: rest =>
    (plus currentValue deltaValue).bind fun value =>
      decompressFrom (currentTimestamp + deltaTimestamp) value
        (samples.put (currentTimestamp + deltaTimestamp) value) rest

def deltaDecompress (deltaData : DeltaDataset) : Option Dataset :=
  match deltaData with
  | [] => some SortedMap.empty
  | (deltaTimestamp, deltaValue) :: rest =>
    decompressFrom (0 + deltaTimestamp) deltaValue
      (SortedMap.empty.put (0 + deltaTimestamp) deltaValue) rest

/-! ### Datapoints of one width -/

def sub (a b : Datapoint) : Datapoint := List.zipWith (· - ·) a b

theorem length_sub {w : ℕ} {a b : Datapoint} (ha : a.length = w) (hb : b.length = w) :
    (sub a b).length = w := by
  rw [sub, List.length_zipWith, ha, hb, Nat.min_self]

theorem minus_eq (a b : Datapoint) (h : a.length ≤ b.length) : minus a b = some (sub a b) := by
  induction a generalizing b with
  | nil => rfl
  | cons v a ih =>
    obtain ⟨l, b, rfl⟩ := List.exists_cons_of_length_pos (Nat.zero_lt_of_lt h)
    have ht := ih b (Nat.le_of_succ_le_succ h)
    rw [minus, ht]
    rfl

theorem minus_eq_none (a b : Datapoint) (h : b.length < a.length) : minus a b = none := by
  induction a generalizing b with
  | nil => cases h
  | cons v a ih =>
    cases b with
    | nil => rfl
    | cons l b =>
      rw [minus, ih b (Nat.lt_of_succ_lt_succ h)]
      rfl

/- Adding the wrapped difference gives the value back. -/
theorem plus_sub (a b : Datapoint) (h : a.length = b.length) : plus b (sub a b) = some a := by
  induction a generalizing b with
  | nil => cases b <;> rfl
  | cons v a ih =>
    cases b with
    | nil => cases h
    | cons l b =>
      have ht := ih b (Nat.succ.inj h)
      have hv : l + (v - l) = v := by rw [Int16.add_comm, Int16.sub_add_cancel]
      show (plus b (sub a b)).map (fun rest => (l + (v - l)) :: rest) = some (v :: a)
      rw [ht, hv]
      rfl

theorem sub_all_zero_iff (a b : Datapoint) (h : a.length ≤ b.length) :
    (sub a b).all (· == 0) = true ↔ a <+: b := by
  induction a generalizing b with
  | nil => exact ⟨fun _ => List.nil_prefix, fun _ => rfl⟩
  | cons v a ih =>
    obtain ⟨l, b, rfl⟩ := List.exists_cons_of_length_pos (Nat.zero_lt_of_lt h)
    have ht := ih b (Nat.le_of_succ_le_succ h)
    have hv : v - l = 0 ↔ v = l := by rw [Int16.sub_eq_iff_eq_add, Int16.zero_add]
    show ((v - l == 0) && (sub a b).all (· == 0)) = true ↔ v :: a <+: l :: b
    rw [Bool.and_eq_true, beq_iff_eq, hv, ht, List.cons_prefix_cons]

theorem sub_all_zero (a b : Datapoint) (h : a.length = b.length) :
    (sub a b).all (· == 0) = true ↔ a = b := by
  rw [sub_all_zero_iff a b h.le]
  exact ⟨fun hp => hp.eq_of_length h, fun he => he ▸ List.prefix_rfl⟩

/-! ### What compression keeps -/

/- Each entry as the difference from the one before. -/
def deltasFrom (timestamp : UInt32) (datapoint : Datapoint) :
    List (UInt32 × Datapoint) → DeltaDataset
  | [] => []
  | e :: es => (e.1 - timestamp, sub e.2 datapoint) :: deltasFrom e.1 e.2 es

def deltas : List (UInt32 × Datapoint) → DeltaDataset
  | [] => []
  | e :: es => e :: deltasFrom e.1 e.2 es

theorem uniform_deltasFrom {w : ℕ} (t : UInt32) (dp : Datapoint) (es : List (UInt32 × Datapoint))
    (hd : dp.length = w) (h : Uniform w es) : Uniform w (deltasFrom t dp es) := by
  induction es generalizing t dp with
  | nil => exact h
  | cons e es ih =>
    intro x hx
    rcases List.mem_cons.mp hx with rfl | hx
    · exact length_sub h.head hd
    · exact ih e.1 e.2 h.head h.tail x hx

theorem uniform_deltas {w : ℕ} (es : List (UInt32 × Datapoint)) (h : Uniform w es) :
    Uniform w (deltas es) := by
  cases es with
  | nil => exact h
  | cons e es =>
    intro x hx
    rcases List.mem_cons.mp hx with rfl | hx
    · exact h.head
    · exact uniform_deltasFrom e.1 e.2 es h.head h.tail x hx

/- The coupling of the two loops: an entry that is skipped equals the last kept
one, so the last kept datapoint is always the datapoint just passed. -/
theorem compressFrom_eq {w : ℕ} (t : UInt32) (dp : Datapoint) (es : List (UInt32 × Datapoint))
    (hd : dp.length = w) (h : Uniform w es) :
    compressFrom t dp es = some (deltasFrom t dp (changesFrom dp es)) := by
  induction es generalizing t dp with
  | nil => rfl
  | cons e es ih =>
    have hl : e.2.length = dp.length := by rw [hd, h.head]
    rw [compressFrom, minus_eq e.2 dp hl.le, Option.bind_some, changesFrom]
    by_cases he : e.2 = dp
    · rw [if_pos ((sub_all_zero e.2 dp hl).mpr he), if_pos he, he]
      exact ih t dp hd h.tail
    · have ht := ih e.1 e.2 h.head h.tail
      rw [if_neg fun hz => he ((sub_all_zero e.2 dp hl).mp hz), if_neg he, ht]
      rfl

theorem deltaCompress_eq {w : ℕ} (d : Dataset) (h : Uniform w d.entries) :
    deltaCompress d = some (deltas (changes d.entries)) := by
  rw [deltaCompress]
  generalize d.entries = es at h ⊢
  cases es with
  | nil => rfl
  | cons e es =>
    have ht := compressFrom_eq e.1 e.2 es h.head h.tail
    dsimp only
    rw [ht]
    rfl

/-! ### What decompression restores -/

theorem decompressFrom_eq {w : ℕ} (t : UInt32) (dp : Datapoint) (m : Dataset)
    (es : List (UInt32 × Datapoint)) (hd : dp.length = w) (h : Uniform w es) :
    decompressFrom t dp m (deltasFrom t dp es) =
      some (es.foldl (fun m e => m.put e.1 e.2) m) := by
  induction es generalizing t dp m with
  | nil => rfl
  | cons e es ih =>
    have hl : e.2.length = dp.length := by rw [hd, h.head]
    have ht : t + (e.1 - t) = e.1 := by rw [UInt32.add_comm, UInt32.sub_add_cancel]
    rw [deltasFrom, decompressFrom, plus_sub e.2 dp hl, Option.bind_some, ht,
      ih e.1 e.2 _ h.head h.tail]
    rfl

/- Integrating the deltas of ascending entries gives back exactly these entries. -/
theorem deltaDecompress_deltas {w : ℕ} (es : List (UInt32 × Datapoint)) (h : Uniform w es)
    (hs : es.Pairwise fun a b => a.1 < b.1) :
    ∃ d, deltaDecompress (deltas es) = some d ∧ d.entries = es := by
  cases es with
  | nil => exact ⟨_, rfl, rfl⟩
  | cons e es =>
    refine ⟨_, ?_, SortedMap.entries_foldl_put (e :: es) SortedMap.empty hs⟩
    rw [deltas, deltaDecompress, UInt32.zero_add]
    exact decompressFrom_eq e.1 e.2 _ es h.head h.tail

theorem changes_sorted (d : Dataset) : (changes d.entries).Pairwise fun a b => a.1 < b.1 :=
  d.sorted.sublist (changes_sublist d.entries)

/- Decompression undoes compression up to the repeated values, and these are gone
for good: a second compression has nothing left to skip. -/
theorem deltaDecompress_deltaCompress (w : ℕ) (d : Dataset) (h : Uniform w d.entries) :
    ∃ delta d', deltaCompress d = some delta ∧ deltaDecompress delta = some d' ∧
      d'.entries = changes d.entries ∧ deltaCompress d' = some delta := by
  have hu : Uniform w (changes d.entries) := h.sublist (changes_sublist d.entries)
  obtain ⟨d', hd', he⟩ := deltaDecompress_deltas _ hu (changes_sorted d)
  have hc : deltaCompress d' = some (deltas (changes d.entries)) := by
    rw [deltaCompress_eq d' (he ▸ hu), he, changes_changes]
  exact ⟨_, d', deltaCompress_eq d h, hd', he, hc⟩

/- A step from -32768 to 32767, whose delta wraps to -1, after a repeated value. -/
def wrappingDataset : Dataset where
  entries := [(10, [-32768, 7]), (11, [-32768, 7]), (14, [32767, 7]), (20, [32767, 6])]
  sorted := by decide

theorem deltaDecompress_deltaCompress_wrapping :
    Uniform 2 wrappingDataset.entries ∧ ∃ delta d', deltaCompress wrappingDataset = some delta ∧
      deltaDecompress delta = some d' ∧ d'.entries = changes wrappingDataset.entries ∧
      deltaCompress d' = some delta := by
  have h : Uniform 2 wrappingDataset.entries := by unfold Uniform; decide
  exact ⟨h, deltaDecompress_deltaCompress 2 wrappingDataset h⟩

end Iotic.Database
