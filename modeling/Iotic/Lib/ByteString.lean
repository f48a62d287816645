import Mathlib.Data.List.Basic
import Mathlib.Data.Nat.Bitwise
import Mathlib.Tactic.Common
import Mathlib.Tactic.Ring

/-!
# Strings of bytes

Numbers written with their high byte first, and what stands at an offset: a reader
of bytes that keeps an offset is followed by what is left behind it.
-/

namespace ByteString

abbrev Bytes := List UInt8

/-! ### Big-endian numbers -/

def bigEndian : ℕ → ℕ → Bytes
  | 0, _ => []
  | k + 1, n => bigEndian k (n / 256) ++ [UInt8.ofNat n]

def beValue (bs : Bytes) : ℕ := bs.foldl (fun acc b => acc * 256 + b.toNat) 0

@[simp] theorem length_bigEndian (k n : ℕ) : (bigEndian k n).length = k := by
  induction k generalizing n with
  | zero => rfl
  | succ k ih => rw [bigEndian, List.length_append, ih, List.length_singleton]

theorem beValue_bigEndian (k n : ℕ) (h : n < 256 ^ k) : beValue (bigEndian k n) = n := by
  induction k generalizing n with
  | zero =>
    have hn : n = 0 := by simpa using h
    rw [hn]
    rfl
  | succ k ih =>
    have hd : n / 256 < 256 ^ k := Nat.div_lt_of_lt_mul (by rw [pow_succ] at h; omega)
    have hv : beValue (bigEndian k (n / 256) ++ [UInt8.ofNat n]) =
        beValue (bigEndian k (n / 256)) * 256 + (UInt8.ofNat n).toNat := by
      simp only [beValue, List.foldl_append, List.foldl_cons, List.foldl_nil]
    have hb : (UInt8.ofNat n).toNat = n % 256 := UInt8.toNat_ofNat'
    rw [bigEndian, hv, ih _ hd, hb]
    omega

/-- One more byte of a number that is read from the high end. -/
theorem shift_or (value : ℕ) (b : UInt8) : (value <<< 8) ||| b.toNat = value * 256 + b.toNat := by
  have hb : b.toNat < 2 ^ 8 := b.toNat_lt
  rw [← Nat.shiftLeft_add_eq_or_of_lt hb, Nat.shiftLeft_eq]

/-! ### What stands at an offset -/

theorem getElem?_of_drop {bytes rest : Bytes} {offset : ℕ} {b : UInt8}
    (h : bytes.drop offset = b :: rest) : bytes[offset]? = some b := by
  rw [← List.head?_drop, h]
  rfl

theorem drop_add {bytes bs rest : Bytes} {offset : ℕ} (h : bytes.drop offset = bs ++ rest) :
    bytes.drop (offset + bs.length) = rest := by
  rw [← List.drop_drop, h, List.drop_left]

theorem drop_succ {bytes rest : Bytes} {offset : ℕ} {b : UInt8}
    (h : bytes.drop offset = b :: rest) : bytes.drop (offset + 1) = rest :=
  drop_add (show bytes.drop offset = [b] ++ rest from h)

/-- A reader that may fail goes on where it does not. -/
@[simp] theorem ok_bind {E A B : Type} (a : A) (f : A → Except E B) :
    (Except.ok a >>= f) = f a := rfl

end ByteString
