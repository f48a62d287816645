import Iotic.Lib.Sequences

/-!
# Bisection

In a list in which the elements with a property come first, bisection finds how many
there are.
-/

namespace Bisection
variable {A : Type*}

/- The search between `lo` and `hi`; `fuel` is at least the distance. -/
def search (p : A → Bool) (l : List A) : ℕ → ℕ → ℕ → ℕ
  | 0, lo, _ => lo
  | fuel + 1, lo, hi =>
    if lo < hi then
      let mid := lo + (hi - lo) / 2
      if l[mid]?.any p then search p l fuel (mid + 1) hi else search p l fuel lo mid
    else lo

def bisect (p : A → Bool) (l : List A) : ℕ := search p l l.length 0 l.length

theorem search_eq {p : A → Bool} {l : List A} (h : l.Pairwise fun a b => p b → p a)
    {fuel lo hi : ℕ} (hfuel : hi ≤ lo + fuel) (hhi : hi ≤ l.length)
    (hle : lo ≤ (l.takeWhile p).length) (hge : (l.takeWhile p).length ≤ hi) :
    search p l fuel lo hi = (l.takeWhile p).length := by
  induction fuel generalizing lo hi with
  | zero =>
    rw [search]
    omega
  | succ fuel ih =>
    rw [search]
    split_ifs with hlt
    · have hmid : lo + (hi - lo) / 2 < l.length := by omega
      have hany : l[lo + (hi - lo) / 2]?.any p ↔ lo + (hi - lo) / 2 < (l.takeWhile p).length := by
        rw [List.getElem?_eq_getElem hmid, Option.any_some,
          Sequences.lt_length_takeWhile_iff h hmid]
      dsimp only
      split_ifs with hp
      · have hbefore := hany.mp hp
        exact ih (by omega) hhi (by omega) hge
      · have hbehind := mt hany.mpr hp
        exact ih (by omega) (by omega) hle (by omega)
    · omega

theorem bisect_eq {p : A → Bool} {l : List A} (h : l.Pairwise fun a b => p b → p a) :
    bisect p l = (l.takeWhile p).length :=
  search_eq h (by omega) le_rfl (Nat.zero_le _) (List.takeWhile_prefix p).length_le

end Bisection
