import Iotic.Database.ArchiveCoding
import Iotic.Webapp.CborDecoder

/-!
# The two decoders of archived data

The daemon writes differences wrapped to 16 bits. Here is what the web app's
running sums make of them, and when they are the columns the daemon reads back.
-/

namespace Iotic.Webapp
open ByteString Cbor Sequences Iotic.Common Iotic.Database

/-! ### The decoded columns -/

/- The difference of the two values is an `int16_t`. -/
def Fits (a b : Int16) : Prop := -2 ^ 15 ≤ b.toInt - a.toInt ∧ b.toInt - a.toInt < 2 ^ 15

instance (a b : Int16) : Decidable (Fits a b) := inferInstanceAs (Decidable (_ ∧ _))

theorem fits_self (a : Int16) : Fits a a := by
  rw [Fits, Int.sub_self]
  decide

theorem fits_iff (a b : Int16) : Fits a b ↔ (b - a).toInt = b.toInt - a.toInt := by
  have hlo := Int16.le_toInt (b - a)
  have hhi := Int16.toInt_lt (b - a)
  constructor
  · rintro ⟨h1, h2⟩
    rw [Int16.toInt_sub]
    exact Int.bmod_eq_of_le (by omega) (by omega)
  · intro h
    rw [Fits, ← h]
    omega

/- In every channel the steps from one entry to the next fit. -/
def DifferencesFit (w : ℕ) (es : List (UInt32 × Datapoint)) : Prop :=
  ∀ i < w, (column es i).IsChain Fits

theorem getD_sub (a b : Datapoint) (h : a.length = b.length) (i : ℕ) :
    (sub a b).getD i 0 = a.getD i 0 - b.getD i 0 := by
  induction a generalizing b i with
  | nil =>
    cases b with
    | nil => simp [sub]
    | cons l b => cases h
  | cons v a ih =>
    cases b with
    | nil => cases h
    | cons l b =>
      cases i with
      | zero => rfl
      | succ i => exact ih b (Nat.succ.inj h) i

theorem column_deltasFrom {w : ℕ} (t : UInt32) (dp : Datapoint) (es : List (UInt32 × Datapoint))
    (hd : dp.length = w) (h : Uniform w es) (i : ℕ) :
    column (deltasFrom t dp es) i = diffsFrom (dp.getD i 0) (column es i) := by
  induction es generalizing t dp with
  | nil => rfl
  | cons e es ih =>
    have ht := ih e.1 e.2 h.head h.tail
    have hs := getD_sub e.2 dp (by rw [hd, h.head]) i
    show (sub e.2 dp).getD i 0 :: column (deltasFrom e.1 e.2 es) i = _
    rw [ht, hs]
    rfl

/- A column comes out right exactly when none of its steps wraps. -/
theorem deltaDecode_column_iff {w : ℕ} (es : List (UInt32 × Datapoint)) (h : Uniform w es) (i : ℕ) :
    deltaDecode ((column (deltas es) i).map Int16.toInt) = (column es i).map Int16.toInt ↔
      (column es i).IsChain Fits := by
  cases es with
  | nil => exact ⟨fun _ => List.isChain_nil, fun _ => rfl⟩
  | cons e es =>
    have hc := column_deltasFrom e.1 e.2 es h.head h.tail i
    have hl : deltaDecode ((column (deltas (e :: es)) i).map Int16.toInt) =
        (e.2.getD i 0).toInt ::
          sumsFrom (e.2.getD i 0).toInt ((diffsFrom (e.2.getD i 0) (column es i)).map Int16.toInt) := by
      rw [← hc]
      rfl
    have hr : (column (e :: es) i).map Int16.toInt =
        (e.2.getD i 0).toInt :: (column es i).map Int16.toInt := rfl
    have hfit : (fun a b : Int16 => (b - a).toInt = b.toInt - a.toInt) = Fits :=
      funext fun a => funext fun b => propext (fits_iff a b).symm
    rw [hl, hr, List.cons.injEq, sums_map_diffs_iff, hfit]
    exact ⟨fun hx => hx.2, fun hx => ⟨rfl, hx⟩⟩

theorem deltasFrom_timestamps (t : UInt32) (dp : Datapoint) (es : List (UInt32 × Datapoint)) :
    (deltasFrom t dp es).map Prod.fst = diffsFrom t (es.map Prod.fst) := by
  induction es generalizing t dp with
  | nil => rfl
  | cons e es ih =>
    rw [deltasFrom, List.map_cons, ih]
    rfl

/- Ascending timestamps always come out right. -/
theorem deltaDecode_timestamps (es : List (UInt32 × Datapoint))
    (hs : es.Pairwise fun a b => a.1 < b.1) :
    deltaDecode ((deltas es).map fun e => (e.1.toNat : ℤ)) = es.map fun e => (e.1.toNat : ℤ) := by
  cases es with
  | nil => rfl
  | cons e es =>
    have hp : ((e :: es).map Prod.fst).Pairwise (· < ·) := List.pairwise_map.mpr hs
    have hc : (e.1 :: es.map Prod.fst).IsChain fun a b : UInt32 =>
        ((b - a).toNat : ℤ) = b.toNat - a.toNat := hp.isChain.imp fun a b hab => by
      have hle := UInt32.le_of_lt hab
      rw [UInt32.toNat_sub_of_le b a hle]
      have hle' := UInt32.le_iff_toNat_le.mp hle
      omega
    have hsum := (sums_map_diffs_iff (fun t : UInt32 => (t.toNat : ℤ)) e.1 (es.map Prod.fst)).mpr hc
    rw [← deltasFrom_timestamps e.1 e.2 es, List.map_map, List.map_map] at hsum
    exact congrArg (List.cons (e.1.toNat : ℤ)) hsum

/- The arrays the web app decodes: right timestamps and, per channel, running sums. -/
theorem decodeArrays_compressed {lib : CborLibrary} (hf : lib.Faithful) {w : ℕ} (d : Dataset)
    (hne : d.entries ≠ []) (h : Uniform w d.entries) :
    ∃ bytes, compressed lib d = some bytes ∧
      decodeArrays bytes = .ok (((changes d.entries).map fun e => (e.1.toNat : ℤ)) ::
        (List.range w).map fun i =>
          deltaDecode ((column (deltas (changes d.entries)) i).map Int16.toInt)) := by
  obtain ⟨bytes, hb, he⟩ := compressed_encodes hf d hne h
  refine ⟨bytes, hb, ?_⟩
  rw [decodeArrays_eq he, arrays, List.map_cons, deltaDecode_timestamps _ (changes_sorted d),
    List.map_map]
  rfl

/-! ### Entries that repeat a value do not matter for the steps -/

theorem isChain_changesFrom {V A : Type} [DecidableEq V] {K : Type} (f : V → A) {R : A → A → Prop}
    (hR : ∀ a, R a a) (last : V) (es : List (K × V)) :
    (f last :: (changesFrom last es).map fun e => f e.2).IsChain R ↔
      (f last :: es.map fun e => f e.2).IsChain R := by
  induction es generalizing last with
  | nil => exact Iff.rfl
  | cons e es ih =>
    have ht := ih e.2
    rw [changesFrom, List.map_cons, List.isChain_cons_cons]
    split_ifs with he
    · rw [← he, ht]
      exact ⟨fun hx => ⟨hR _, hx⟩, fun hx => hx.2⟩
    · rw [List.map_cons, List.isChain_cons_cons, ht]

theorem differencesFit_changes (w : ℕ) (es : List (UInt32 × Datapoint)) :
    DifferencesFit w (changes es) ↔ DifferencesFit w es := by
  cases es with
  | nil => exact Iff.rfl
  | cons e es =>
    have hi : ∀ i, (column (changes (e :: es)) i).IsChain Fits ↔ (column (e :: es) i).IsChain Fits :=
      fun i => isChain_changesFrom (fun dp : Datapoint => dp.getD i 0) fits_self e.2 es
    exact forall₂_congr fun i _ => hi i

/- The web app's arrays are the columns the daemon reads back exactly for datasets
whose steps fit: it sums without wrapping to 16 bits. -/
theorem decodeArrays_eq_decompressed_iff (lib : CborLibrary) (hf : lib.Faithful) (w : ℕ)
    (d : Dataset) (hne : d.entries ≠ []) (h : Uniform w d.entries)
    (ht : ∀ e ∈ d.entries, e.1.toNat < 2 ^ 31) :
    (∃ bytes d', compressed lib d = some bytes ∧ decompressed lib bytes = some d' ∧
      decodeArrays bytes = .ok (arrays w d'.entries)) ↔ DifferencesFit w d.entries := by
  obtain ⟨bytes, hb, hdart⟩ := decodeArrays_compressed hf d hne h
  obtain ⟨d', hd', hde⟩ := decompressed_compressed hf hne h ht hb
  have hu : Uniform w (changes d.entries) := h.sublist (changes_sublist d.entries)
  have hcols : decodeArrays bytes = .ok (arrays w d'.entries) ↔
      DifferencesFit w (changes d.entries) := by
    rw [hdart, hde, arrays, Except.ok.injEq, List.cons.injEq]
    constructor
    · rintro ⟨-, hx⟩ i hi
      have hxi := List.map_inj_left.mp hx i (List.mem_range.mpr hi)
      exact (deltaDecode_column_iff _ hu i).mp hxi
    · intro hx
      refine ⟨rfl, List.map_inj_left.mpr fun i hi => ?_⟩
      exact (deltaDecode_column_iff _ hu i).mpr (hx i (List.mem_range.mp hi))
  rw [← differencesFit_changes, ← hcols]
  constructor
  · rintro ⟨bytes', d'', hb', hd'', hx⟩
    obtain rfl := Option.some.inj (hb.symm.trans hb')
    obtain rfl := Option.some.inj (hd'.symm.trans hd'')
    exact hx
  · intro hx
    exact ⟨bytes, d', hb, hd', hx⟩

/- A step from -32768 to 32767 is written as the difference -1. -/
def steppedDataset : Dataset where
  entries := [(1, [-32768]), (2, [32767])]
  sorted := by decide

theorem decodeArrays_eq_decompressed_iff_stepped :
    (∃ bytes d', compressed .shortest steppedDataset = some bytes ∧
      decompressed .shortest bytes = some d' ∧ decodeArrays bytes = .ok (arrays 1 d'.entries)) ↔
      DifferencesFit 1 steppedDataset.entries :=
  decodeArrays_eq_decompressed_iff .shortest CborLibrary.shortest_faithful 1 steppedDataset
    (by decide) (by unfold Uniform; decide) (by decide)

/- The web app's second value is -32769, the daemon's is 32767. -/
theorem not_decodeArrays_eq_decompressed :
    ¬ ∀ (lib : CborLibrary) (w : ℕ) (d : Dataset), lib.Faithful → d.entries ≠ [] →
      Uniform w d.entries → (∀ e ∈ d.entries, e.1.toNat < 2 ^ 31) →
      ∃ bytes d', compressed lib d = some bytes ∧ decompressed lib bytes = some d' ∧
        decodeArrays bytes = .ok (arrays w d'.entries) := by
  intro hall
  obtain ⟨bytes, d', hb, hd', hx⟩ := hall .shortest 1 steppedDataset CborLibrary.shortest_faithful
    (by decide) (by unfold Uniform; decide) (by decide)
  have hbytes : compressed .shortest steppedDataset =
      some [130, 1, 1, 130, 57, 127, 255, 32] := by decide
  obtain rfl := Option.some.inj (hb.symm.trans hbytes)
  have hcpp : (decompressed .shortest [130, 1, 1, 130, 57, 127, 255, 32]).map (·.entries) =
      some steppedDataset.entries := by decide
  have hdart : decodeArrays [130, 1, 1, 130, 57, 127, 255, 32] =
      .ok [[1, 2], [-32768, -32769]] := by decide
  rw [hd', Option.map_some, Option.some.injEq] at hcpp
  rw [hdart, hcpp, Except.ok.injEq] at hx
  exact absurd hx (by decide)

end Iotic.Webapp
