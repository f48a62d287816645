import Mathlib.Algebra.BigOperators.Intervals
import Mathlib.Data.Nat.Count
import Mathlib.Tactic.Linarith

/-!
# Timelines

A timeline lists at which time a quantity took which value, latest entry first.
The value holds from its time until the entry before it in the list takes over.
-/

namespace Timeline
variable {α : Type*}

/- `d` is the value before the first entry. -/
def valueAt (d : α) : List (ℤ × α) → ℤ → α
  | [], _ => d
  | (ts, v) :: older, t => if ts ≤ t then v else valueAt d older t

/- How many of the time units in `[a, b)` begin with a value that satisfies `P`. -/
def timeIn (P : α → Bool) (d : α) (h : List (ℤ × α)) (a b : ℤ) : ℕ :=
  Nat.count (fun k => P (valueAt d h (a + k)) = true) (b - a).toNat

variable {P : α → Bool} {d v : α} {h h' : List (ℤ × α)} {ts a b : ℤ}

theorem timeIn_congr (hv : ∀ t, a ≤ t → t < b → valueAt d h t = valueAt d h' t) :
    timeIn P d h a b = timeIn P d h' a b := by
  unfold timeIn
  rw [Nat.count_eq_card_filter_range, Nat.count_eq_card_filter_range]
  congr 1
  refine Finset.filter_congr fun k hk => ?_
  have hlt := Finset.mem_range.mp hk
  rw [hv (a + k) (by omega) (by omega)]

/- An entry says nothing about the time before it. -/
theorem timeIn_cons (hb : b ≤ ts) : timeIn P d ((ts, v) :: h) a b = timeIn P d h a b :=
  timeIn_congr fun t _ ht => by rw [valueAt, if_neg (by omega)]

theorem timeIn_add {m : ℤ} (ham : a ≤ m) (hmb : m ≤ b) :
    timeIn P d h a b = timeIn P d h a m + timeIn P d h m b := by
  have hlength : (b - a).toNat = (m - a).toNat + (b - m).toNat := by omega
  have hstart : ∀ k : ℕ, a + (((m - a).toNat + k : ℕ) : ℤ) = m + k := by
    intro k
    omega
  unfold timeIn
  rw [hlength, Nat.count_add]
  simp only [hstart]

/- From the latest entry on, its value holds throughout. -/
theorem timeIn_head (hab : a ≤ b) (ha : ts ≤ a) :
    (timeIn P d ((ts, v) :: h) a b : ℤ) = if P v then b - a else 0 := by
  have hv : ∀ k : ℕ, valueAt d ((ts, v) :: h) (a + k) = v := by
    intro k
    rw [valueAt, if_pos (by omega)]
  unfold timeIn
  cases hp : P v with
  | true =>
    rw [Nat.count_of_forall fun k _ => by rw [hv k, hp]]
    exact Int.toNat_of_nonneg (sub_nonneg.mpr hab)
  | false =>
    rw [Nat.count_of_forall_not fun k _ => by rw [hv k, hp]; exact Bool.false_ne_true]
    rfl

theorem timeIn_nil (hd : P d = false) : timeIn P d [] a b = 0 :=
  Nat.count_of_forall_not fun k _ => by rw [valueAt, hd]; exact Bool.false_ne_true

end Timeline
