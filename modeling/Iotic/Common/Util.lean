import Iotic.Strategies.Strategy
import Mathlib.Algebra.Order.Group.Int
import Mathlib.Tactic.Ring

/-!
# Calendar days (common/Util.cpp)

A `std::chrono::year_month_day` is three numbers that need not name a day; `ok`
tells whether they do, `sys_days` counts the days from 1970-01-01 in the
proleptic Gregorian calendar.
-/

namespace Iotic.Common

structure YearMonthDay where
  year : ℤ
  month : ℕ
  day : ℕ
  deriving DecidableEq, Repr

namespace YearMonthDay

def isLeap (year : ℤ) : Bool := year % 4 = 0 && (year % 100 ≠ 0 || year % 400 = 0)

/- `year_month_day_last`. -/
def lastDay (year : ℤ) (month : ℕ) : ℕ :=
  if month = 2 then (if isLeap year then 29 else 28)
  else if month ∈ [4, 6, 9, 11] then 30
  else 31

def ok (ymd : YearMonthDay) : Bool :=
  1 ≤ ymd.month && ymd.month ≤ 12 && 1 ≤ ymd.day && ymd.day ≤ lastDay ymd.year ymd.month

/- Years begin in March here, so that the leap day is their last. -/
def sysDays (ymd : YearMonthDay) : ℤ :=
  let year := if ymd.month ≤ 2 then ymd.year - 1 else ymd.year
  let era := year / 400
  let yearOfEra := year - era * 400
  let monthFromMarch : ℤ := if ymd.month > 2 then ymd.month - 3 else ymd.month + 9
  let dayOfYear := (153 * monthFromMarch + 2) / 5 + ymd.day - 1
  let dayOfEra := yearOfEra * 365 + yearOfEra / 4 - yearOfEra / 100 + dayOfYear
  era * 146097 + dayOfEra - 719468

example : sysDays ⟨1970, 1, 1⟩ = 0 ∧ sysDays ⟨2024, 2, 29⟩ = 19782 := by decide

end YearMonthDay

/- `std::stoi` of digits. -/
def stoi (digits : List Char) : ℕ :=
  digits.foldl (fun n digit => n * 10 + (digit.toNat - 48)) 0

/- The pattern is `^(\d{4})-(\d{2})-(\d{2})$`; three zeros, which is no day, where
the text does not match. -/
def parseYmd : Name → YearMonthDay
  | [y1, y2, y3, y4, h1, m1, m2, h2, d1, d2] =>
    if [y1, y2, y3, y4, m1, m2, d1, d2].all Char.isDigit ∧ h1 = '-' ∧ h2 = '-' then
      ⟨stoi [y1, y2, y3, y4], stoi [m1, m2], stoi [d1, d2]⟩
    else ⟨0, 0, 0⟩
  | _ => ⟨0, 0, 0⟩

/-! ### The days a text can name -/

theorem stoi_lt (digits : List Char) (h : ∀ d ∈ digits, d.isDigit = true) :
    stoi digits < 10 ^ digits.length := by
  suffices hfrom : ∀ n, digits.foldl (fun n digit => n * 10 + (digit.toNat - 48)) n <
      (n + 1) * 10 ^ digits.length by simpa [stoi] using hfrom 0
  induction digits with
  | nil => simp
  | cons d digits ih =>
    intro n
    have hd := Char.isDigit_iff_toNat.mp (h d List.mem_cons_self)
    have hle : n * 10 + (d.toNat - 48) + 1 ≤ (n + 1) * 10 := by
      simp at hd
      omega
    have hrest := ih (fun x hx => h x (List.mem_cons_of_mem d hx)) (n * 10 + (d.toNat - 48))
    rw [List.foldl_cons, List.length_cons, pow_succ']
    calc _ < (n * 10 + (d.toNat - 48) + 1) * 10 ^ digits.length := hrest
      _ ≤ (n + 1) * 10 * 10 ^ digits.length := Nat.mul_le_mul_right _ hle
      _ = (n + 1) * (10 * 10 ^ digits.length) := by ring

theorem year_bounds (s : Name) : 0 ≤ (parseYmd s).year ∧ (parseYmd s).year < 10000 := by
  unfold parseYmd
  split
  · rename_i y1 y2 y3 y4 h1 m1 m2 h2 d1 d2
    split_ifs with hmatch
    · have hdigits : ∀ d ∈ [y1, y2, y3, y4], d.isDigit = true := fun d hd =>
        List.all_eq_true.mp hmatch.1 d (List.mem_append_left [m1, m2, d1, d2] hd)
      have hlt := stoi_lt _ hdigits
      simp only [List.length_cons, List.length_nil] at hlt
      dsimp only
      omega
    · decide
  · decide

/- The days reach from the first of year 0 to the last of year 9999. -/
theorem sysDays_bounds {s : Name} (h : (parseYmd s).ok = true) :
    -719528 ≤ (parseYmd s).sysDays ∧ (parseYmd s).sysDays ≤ 2932896 := by
  obtain ⟨hy0, hy1⟩ := year_bounds s
  generalize parseYmd s = ymd at *
  simp only [YearMonthDay.ok, Bool.and_eq_true, decide_eq_true_eq] at h
  obtain ⟨⟨⟨hm1, hm12⟩, hd1⟩, hlast⟩ := h
  have hd31 : ymd.day ≤ 31 := by
    refine hlast.trans ?_
    unfold YearMonthDay.lastDay
    split_ifs <;> omega
  unfold YearMonthDay.sysDays
  dsimp only
  split_ifs <;> constructor <;> omega

end Iotic.Common
