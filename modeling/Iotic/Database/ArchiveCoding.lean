import Iotic.Database.CborCoding
import Iotic.Database.Delta
import Iotic.Database.Downsample

/-!
# From raw data to archived bytes

The chain of ArchiveDayUseCase, and what its last two links write: the arrays of
the kept entries' differences.
-/

namespace Iotic.Database
open ByteString Cbor Sequences Iotic.Common

def compressed (lib : CborLibrary) (dataset : Dataset) : Option Bytes :=
  (deltaCompress dataset).bind (cborEncode lib)

/- `cborEncode(deltaCompress(downsample(rawData, factor)))`. -/
def cborData (lib : CborLibrary) (rawData : Dataset) (factor : ℤ) : Option Bytes :=
  (downsample rawData factor defaultWatts).bind (compressed lib)

/- The other direction, `deltaDecompress(cborDecode(cborData))`. -/
def decompressed (lib : CborLibrary) (cborData : Bytes) : Option Dataset :=
  (cborDecode lib cborData).bind deltaDecompress

/-! ### Bounds from the key order -/

/- Ascending 32-bit keys: there are at most 2^32 of them. -/
theorem head_add_length_le (e : UInt32 × Datapoint) (es : List (UInt32 × Datapoint))
    (h : (e :: es).Pairwise fun a b => a.1 < b.1) : e.1.toNat + (e :: es).length ≤ 2 ^ 32 := by
  induction es generalizing e with
  | nil =>
    have hlt := e.1.toNat_lt
    rw [List.length_singleton]
    omega
  | cons f es ih =>
    obtain ⟨hhd, htl⟩ := List.pairwise_cons.mp h
    have hf := UInt32.lt_iff_toNat_lt.mp (hhd f List.mem_cons_self)
    have hl := ih f htl
    simp only [List.length_cons] at hl ⊢
    omega

theorem length_entries_le (es : List (UInt32 × Datapoint))
    (h : es.Pairwise fun a b => a.1 < b.1) : es.length ≤ 2 ^ 32 := by
  cases es with
  | nil => exact Nat.zero_le _
  | cons e es =>
    have hl := head_add_length_le e es h
    omega

theorem length_deltasFrom (t : UInt32) (dp : Datapoint) (es : List (UInt32 × Datapoint)) :
    (deltasFrom t dp es).length = es.length := by
  induction es generalizing t dp with
  | nil => rfl
  | cons e es ih => rw [deltasFrom, List.length_cons, ih, List.length_cons]

theorem length_deltas (es : List (UInt32 × Datapoint)) : (deltas es).length = es.length := by
  cases es with
  | nil => rfl
  | cons e es => rw [deltas, List.length_cons, length_deltasFrom, List.length_cons]

/- The first entry keeps its timestamp and the others become differences. -/
theorem deltas_lt {n : ℕ} (es : List (UInt32 × Datapoint))
    (h : es.Pairwise fun a b => a.1 < b.1) (hn : ∀ e ∈ es, e.1.toNat < n) :
    ∀ e ∈ deltas es, e.1.toNat < n := by
  have hfrom : ∀ (t : UInt32) (dp : Datapoint) (fs : List (UInt32 × Datapoint)),
      (∀ f ∈ fs, t < f.1 ∧ f.1.toNat < n) → fs.Pairwise (fun a b => a.1 < b.1) →
      ∀ e ∈ deltasFrom t dp fs, e.1.toNat < n := by
    intro t dp fs
    induction fs generalizing t dp with
    | nil => simp [deltasFrom]
    | cons f fs ih =>
      intro hfs hp e he
      obtain ⟨hhd, htl⟩ := List.pairwise_cons.mp hp
      obtain ⟨htf, hfn⟩ := hfs f List.mem_cons_self
      rcases List.mem_cons.mp he with rfl | he
      · show (f.1 - t).toNat < n
        rw [UInt32.toNat_sub_of_le f.1 t (UInt32.le_of_lt htf)]
        omega
      · exact ih f.1 f.2 (fun g hg => ⟨hhd g hg, (hfs g (List.mem_cons_of_mem _ hg)).2⟩) htl e he
  cases es with
  | nil => simp [deltas]
  | cons e es =>
    obtain ⟨hhd, htl⟩ := List.pairwise_cons.mp h
    intro x hx
    rcases List.mem_cons.mp hx with rfl | hx
    · exact hn x List.mem_cons_self
    · exact hfrom e.1 e.2 es (fun g hg => ⟨hhd g hg, hn g (List.mem_cons_of_mem _ hg)⟩) htl x hx

/-! ### The written arrays -/

theorem length_arrays {w : ℕ} {data : DeltaDataset} : ∀ a ∈ arrays w data, a.length = data.length := by
  intro a ha
  rcases List.mem_cons.mp ha with rfl | ha
  · exact List.length_map _
  · obtain ⟨i, _, rfl⟩ := List.mem_map.mp ha
    rw [List.length_map, column, List.length_map]

theorem flatMap_arrays (w : ℕ) (data : DeltaDataset) :
    ((arrays w data).flatMap fun a => .array a.length :: a.map .int) =
      (arrays w data).flatMap (arrayItems data.length) := by
  refine List.flatMap_congr fun a ha => ?_
  rw [length_arrays a ha]
  rfl

theorem length_deltas_changes_lt (d : Dataset) : (deltas (changes d.entries)).length < 2 ^ 64 := by
  have hl := length_entries_le _ (changes_sorted d)
  rw [length_deltas]
  omega

/- Kept entries of a dataset are few enough for their number to be written as it is. -/
theorem compressed_eq (lib : CborLibrary) {w : ℕ} (d : Dataset) (hne : d.entries ≠ [])
    (h : Uniform w d.entries) :
    compressed lib d = some (((arrays w (deltas (changes d.entries))).flatMap fun a =>
      .array a.length :: a.map .int).flatMap lib.write) := by
  have hu := uniform_deltas _ (h.sublist (changes_sublist d.entries))
  have hn : deltas (changes d.entries) ≠ [] := by
    obtain ⟨e, es, he⟩ := List.exists_cons_of_ne_nil hne
    rw [he]
    exact List.cons_ne_nil _ _
  rw [compressed, deltaCompress_eq d h, Option.bind_some, cborEncode_eq lib hn hu,
    Nat.mod_eq_of_lt (length_deltas_changes_lt d), flatMap_arrays]

/- In the format's own terms the bytes are heads and integers of the arrays. -/
theorem compressed_encodes {lib : CborLibrary} (hf : lib.Faithful) {w : ℕ} (d : Dataset)
    (hne : d.entries ≠ []) (h : Uniform w d.entries) :
    ∃ bytes, compressed lib d = some bytes ∧
      EncodesAll ((arrays w (deltas (changes d.entries))).flatMap fun a =>
        .array a.length :: a.map .int) bytes := by
  refine ⟨_, compressed_eq lib d hne h, hf.encodesAll ?_⟩
  rw [flatMap_arrays]
  exact arrays_writable (length_deltas_changes_lt d) _

/- What the C++ reader makes of the bytes: the kept entries. -/
theorem decompressed_compressed {lib : CborLibrary} (hf : lib.Faithful) {w : ℕ} {d : Dataset}
    {bytes : Bytes} (hne : d.entries ≠ []) (h : Uniform w d.entries)
    (ht : ∀ e ∈ d.entries, e.1.toNat < 2 ^ 31) (hb : compressed lib d = some bytes) :
    ∃ d', decompressed lib bytes = some d' ∧ d'.entries = changes d.entries := by
  have hu : Uniform w (changes d.entries) := h.sublist (changes_sublist d.entries)
  have hlt := deltas_lt _ (changes_sorted d) fun e he => ht e ((changes_sublist _).subset he)
  obtain ⟨d', hd', hde⟩ := deltaDecompress_deltas _ hu (changes_sorted d)
  rw [compressed_eq lib d hne h, flatMap_arrays] at hb
  obtain rfl := Option.some.inj hb
  have hr := cborDecode_arrays hf (length_deltas_changes_lt d) (uniform_deltas _ hu) hlt
  refine ⟨d', ?_, hde⟩
  rw [decompressed, hr, Option.bind_some, hd']

end Iotic.Database
