import Iotic.Lib.SortedMap
import Mathlib.Algebra.Ring.Int.Defs

/-!
# Datasets (DatabaseTypes.h)

Timestamps are `uint32_t`, values `int16_t`, both with the wrap-around of their
width. A `std::map` keyed by timestamp is an ordered map.
-/

namespace Iotic.Database

/- The order of the machine type is its numeric one; Mathlib's ordered-type class
is not instantiated for it. -/
instance linearOrderUInt32 : LinearOrder UInt32 where
  le_refl := UInt32.le_refl
  le_trans := fun _ _ _ => UInt32.le_trans
  lt_iff_le_not_ge := fun a b => by
    simp only [UInt32.lt_iff_toNat_lt, UInt32.le_iff_toNat_le]
    omega
  le_antisymm := fun _ _ => UInt32.le_antisymm
  le_total := UInt32.le_total
  toDecidableLE := inferInstance
  toDecidableEq := inferInstance
  toDecidableLT := inferInstance
  min_def := fun _ _ => rfl
  max_def := fun _ _ => rfl

theorem toNat_ofInt {z : ℤ} (h0 : 0 ≤ z) (h1 : z < 2 ^ 32) : ((UInt32.ofInt z).toNat : ℤ) = z := by
  rw [UInt32.ofInt, UInt32.toNat_ofNat']
  omega

theorem ofInt_ne_zero {z : ℤ} (h0 : 1 ≤ z) (h1 : z < 2 ^ 31) : UInt32.ofInt z ≠ 0 := by
  intro h
  have hn := toNat_ofInt (z := z) (by omega) (by omega)
  rw [h] at hn
  simp at hn
  omega

abbrev Datapoint := List Int16
abbrev Dataset := SortedMap UInt32 Datapoint
abbrev DeltaDataset := List (UInt32 × Datapoint)

/- All datapoints have `w` values. -/
def Uniform (w : ℕ) (es : List (UInt32 × Datapoint)) : Prop := ∀ e ∈ es, e.2.length = w

theorem Uniform.sublist {w : ℕ} {es fs : List (UInt32 × Datapoint)} (h : Uniform w es)
    (hs : fs.Sublist es) : Uniform w fs := fun e he => h e (hs.subset he)

theorem Uniform.tail {w : ℕ} {e : UInt32 × Datapoint} {es : List (UInt32 × Datapoint)}
    (h : Uniform w (e :: es)) : Uniform w es := fun x hx => h x (List.mem_cons_of_mem _ hx)

theorem Uniform.head {w : ℕ} {e : UInt32 × Datapoint} {es : List (UInt32 × Datapoint)}
    (h : Uniform w (e :: es)) : e.2.length = w := h e List.mem_cons_self

end Iotic.Database
