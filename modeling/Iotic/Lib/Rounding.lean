import Mathlib.Algebra.Order.BigOperators.Group.List
import Mathlib.Data.Rat.Floor
import Mathlib.Tactic.Linarith

/-!
# Rounding half away from zero, and truncation

What the C library's `round` does with an exact value, and what a conversion to an
integer type does.
-/

/-- The nearest integer, a half going away from zero. -/
def roundAway (q : ℚ) : ℤ := if 0 ≤ q then ⌊q + 1 / 2⌋ else -⌊-q + 1 / 2⌋

@[simp] theorem roundAway_intCast (z : ℤ) : roundAway z = z := by
  have half (w : ℤ) : ⌊(w : ℚ) + 1 / 2⌋ = w := by
    rw [Int.floor_eq_iff]
    constructor <;> linarith
  unfold roundAway
  split_ifs
  · exact half z
  · have hn := half (-z)
    push_cast at hn
    rw [hn, neg_neg]

theorem roundAway_mono {p q : ℚ} (h : p ≤ q) : roundAway p ≤ roundAway q := by
  unfold roundAway
  split_ifs with hp hq hq
  · exact Int.floor_mono (by linarith)
  · linarith
  · have hnp : 0 ≤ ⌊-p + 1 / 2⌋ := Int.floor_nonneg.mpr (by linarith)
    have hnq : 0 ≤ ⌊q + 1 / 2⌋ := Int.floor_nonneg.mpr (by linarith)
    omega
  · have hm : ⌊-q + 1 / 2⌋ ≤ ⌊-p + 1 / 2⌋ := Int.floor_mono (by linarith)
    omega

/- A half goes up. -/
theorem floor_half_eq_iff {q : ℚ} (hq : 0 ≤ q) (k : ℤ) :
    ⌊q + 1 / 2⌋ = k ↔ |q - k| < 1 / 2 ∨ 0 < k ∧ q = k - 1 / 2 := by
  rw [Int.floor_eq_iff, abs_lt]
  constructor
  · intro ⟨hlo, hhi⟩
    rcases lt_or_eq_of_le hlo with hlt | heq
    · exact .inl ⟨by linarith, by linarith⟩
    · have hk : (0 : ℚ) < k := by linarith
      exact .inr ⟨by exact_mod_cast hk, by linarith⟩
  · rintro (⟨hlo, hhi⟩ | ⟨-, rfl⟩)
    · exact ⟨by linarith, by linarith⟩
    · exact ⟨by linarith, by linarith⟩

/- Within half a unit of the value; at a half the integer farther from zero. -/
theorem roundAway_eq_iff (q : ℚ) (k : ℤ) :
    roundAway q = k ↔ |q - k| < 1 / 2 ∨ 0 < k ∧ q = k - 1 / 2 ∨ k < 0 ∧ q = k + 1 / 2 := by
  unfold roundAway
  split_ifs with hq
  · have hnot : ¬ (k < 0 ∧ q = k + 1 / 2) := by
      intro ⟨hk, heq⟩
      have hle : (k : ℚ) ≤ -1 := by exact_mod_cast Int.le_sub_one_of_lt hk
      linarith
    rw [floor_half_eq_iff hq, or_iff_left hnot]
  · have hnot : ¬ (0 < k ∧ q = k - 1 / 2) := by
      intro ⟨hk, heq⟩
      have hle : (1 : ℚ) ≤ k := by exact_mod_cast hk
      linarith
    have hdist : |-q - (-k : ℤ)| = |q - k| := by
      rw [← abs_neg]
      push_cast
      congr 1
      ring
    have hhalf : -q = (-k : ℤ) - 1 / 2 ↔ q = k + 1 / 2 := by
      push_cast
      constructor <;> intro h <;> linarith
    rw [neg_eq_iff_eq_neg, floor_half_eq_iff (by linarith), hdist, hhalf, neg_pos, or_iff_right hnot]

/-! ### How far rounding moves a value -/

theorem abs_roundAway_sub_le (q : ℚ) : |(roundAway q : ℚ) - q| ≤ 1 / 2 := by
  unfold roundAway
  split_ifs with hq
  · have hlo := Int.floor_le (q + 1 / 2)
    have hhi := Int.lt_floor_add_one (q + 1 / 2)
    rw [abs_le]
    constructor <;> linarith
  · have hlo := Int.floor_le (-q + 1 / 2)
    have hhi := Int.lt_floor_add_one (-q + 1 / 2)
    push_cast
    rw [abs_le]
    constructor <;> linarith

/- Values half a unit apart round to neighbours. -/
theorem abs_roundAway_sub_roundAway_le {p q : ℚ} (h : |p - q| ≤ 1 / 2) :
    |roundAway p - roundAway q| ≤ 1 := by
  have hp := abs_le.mp (abs_roundAway_sub_le p)
  have hq := abs_le.mp (abs_roundAway_sub_le q)
  have hpq := abs_le.mp h
  have hlo : ((-2 : ℤ) : ℚ) < (roundAway p - roundAway q : ℤ) := by
    push_cast
    linarith
  have hhi : ((roundAway p - roundAway q : ℤ) : ℚ) < (2 : ℤ) := by
    push_cast
    linarith
  have hlo := Int.cast_lt.mp hlo
  have hhi := Int.cast_lt.mp hhi
  exact abs_le.mpr ⟨by omega, by omega⟩

/- Rounding each term of a sum moves it by half a unit a term. -/
theorem abs_sum_roundAway_sub_le {α : Type*} (f : α → ℚ) (l : List α) :
    |((l.map fun x => roundAway (f x)).sum : ℚ) - (l.map f).sum| ≤ l.length / 2 := by
  induction l with
  | nil => simp
  | cons x l ih =>
    have hx := abs_le.mp (abs_roundAway_sub_le (f x))
    have hl := abs_le.mp ih
    simp only [List.map_cons, List.sum_cons, List.length_cons]
    rw [Int.cast_add, Nat.cast_succ, abs_le]
    constructor <;> linarith

/-! ### Rounded means -/

section Mean
variable {l : List ℤ} {a : ℤ}

theorem le_roundAway_mean (hne : l ≠ []) (h : ∀ x ∈ l, a ≤ x) :
    a ≤ roundAway ((l.sum : ℚ) / l.length) := by
  have hn : (0 : ℚ) < l.length := by exact_mod_cast List.length_pos_iff.mpr hne
  have hsum : (l.length : ℤ) * a ≤ l.sum := by
    have := List.card_nsmul_le_sum l a h
    rwa [nsmul_eq_mul] at this
  have hmean : (a : ℚ) ≤ (l.sum : ℚ) / l.length := by
    rw [le_div_iff₀ hn, mul_comm]
    exact_mod_cast hsum
  have hr := roundAway_mono hmean
  rwa [roundAway_intCast] at hr

theorem roundAway_mean_le (hne : l ≠ []) (h : ∀ x ∈ l, x ≤ a) :
    roundAway ((l.sum : ℚ) / l.length) ≤ a := by
  have hn : (0 : ℚ) < l.length := by exact_mod_cast List.length_pos_iff.mpr hne
  have hsum : l.sum ≤ (l.length : ℤ) * a := by
    have := List.sum_le_card_nsmul l a h
    rwa [nsmul_eq_mul] at this
  have hmean : (l.sum : ℚ) / l.length ≤ (a : ℚ) := by
    rw [div_le_iff₀ hn, mul_comm]
    exact_mod_cast hsum
  have hr := roundAway_mono hmean
  rwa [roundAway_intCast] at hr

/- A rounded mean lies among the values. -/
theorem exists_le_roundAway_mean (hne : l ≠ []) :
    ∃ x ∈ l, x ≤ roundAway ((l.sum : ℚ) / l.length) := by
  by_contra hc
  push Not at hc
  have h := le_roundAway_mean hne fun x hx => Int.add_one_le_iff.mpr (hc x hx)
  omega

theorem exists_roundAway_mean_le (hne : l ≠ []) :
    ∃ x ∈ l, roundAway ((l.sum : ℚ) / l.length) ≤ x := by
  by_contra hc
  push Not at hc
  have h := roundAway_mean_le hne fun x hx => Int.le_sub_one_iff.mpr (hc x hx)
  omega

end Mean

/- The mean of rounded values is off by half a unit at most. -/
theorem abs_mean_roundAway_sub_le {α : Type*} (f : α → ℚ) {l : List α} (hne : l ≠ []) :
    |((l.map fun x => roundAway (f x)).sum : ℚ) / l.length - (l.map f).sum / l.length| ≤ 1 / 2 := by
  have hn : (0 : ℚ) < l.length := by exact_mod_cast List.length_pos_iff.mpr hne
  rw [← sub_div, abs_div, abs_of_pos hn, div_le_iff₀ hn]
  have h := abs_sum_roundAway_sub_le f l
  linarith

/-! ### Truncation -/

/- The fraction is dropped. -/
def truncate (q : ℚ) : ℤ := if 0 ≤ q then ⌊q⌋ else ⌈q⌉

theorem truncate_nonneg_iff (q : ℚ) : 0 ≤ truncate q ↔ -1 < q := by
  unfold truncate
  split_ifs with hq
  · have hfloor : 0 ≤ ⌊q⌋ := Int.floor_nonneg.mpr hq
    simp only [hfloor, true_iff]
    linarith
  · rw [← Int.sub_one_lt_iff, Int.lt_ceil]
    norm_num

theorem truncate_lt_iff {n : ℤ} (hn : 0 < n) (q : ℚ) : truncate q < n ↔ q < n := by
  have hpos : (0 : ℚ) < n := Int.cast_pos.mpr hn
  unfold truncate
  split_ifs with hq
  · exact Int.floor_lt
  · have hceil : ⌈q⌉ ≤ 0 := Int.ceil_le.mpr (by push_cast; linarith)
    have hlt : ⌈q⌉ < n := by omega
    simp only [hlt, true_iff]
    linarith

theorem truncate_le {q : ℚ} (hq : 0 ≤ q) : (truncate q : ℚ) ≤ q := by
  unfold truncate
  rw [if_pos hq]
  exact Int.floor_le q

theorem truncate_eq_zero {q : ℚ} (hlo : -1 < q) (hhi : q ≤ 0) : truncate q = 0 := by
  have hnonneg := (truncate_nonneg_iff q).mpr hlo
  have hlt := (truncate_lt_iff (n := 1) (by decide) q).mpr (by push_cast; linarith)
  omega
