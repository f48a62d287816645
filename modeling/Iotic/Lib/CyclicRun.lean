import Mathlib.Data.List.Basic
import Mathlib.Data.List.Nodup
import Mathlib.Data.List.Range
import Mathlib.Data.Nat.ModEq
import Mathlib.Tactic.Common

/-!
# Cyclic runs of ring positions

A ring of `n` cells used first in, first out: the cells in use are the `k`
positions that follow one another from `first`, wrapping round at `n`. The
library describes such a ring by a flag for each cell and two pointers.
-/

namespace CyclicRun

/-- The `k` ring positions from `first` on, in order. -/
def positions (n first k : ℕ) : List ℕ := (List.range k).map fun j => (first + j) % n

@[simp] theorem positions_zero (n first : ℕ) : positions n first 0 = [] := rfl

theorem positions_snoc (n first k : ℕ) :
    positions n first (k + 1) = positions n first k ++ [(first + k) % n] := by
  simp only [positions, List.range_succ, List.map_append, List.map_cons, List.map_nil]

theorem positions_cons (n first k : ℕ) (h : first < n) :
    positions n first (k + 1) = first :: positions n ((first + 1) % n) k := by
  simp only [positions, List.range_succ_eq_map, List.map_cons, List.map_map, Nat.add_zero,
    Nat.mod_eq_of_lt h]
  congr 1
  apply List.map_congr_left
  intro j _
  show (first + (j + 1)) % n = ((first + 1) % n + j) % n
  rw [Nat.mod_add_mod, Nat.add_right_comm, Nat.add_assoc]

theorem mem_positions {n first k i : ℕ} :
    i ∈ positions n first k ↔ ∃ j < k, (first + j) % n = i := by
  simp only [positions, List.mem_map, List.mem_range]

theorem lt_of_mem_positions {n first k i : ℕ} (hn : 0 < n) (h : i ∈ positions n first k) : i < n := by
  obtain ⟨j, _, rfl⟩ := mem_positions.mp h
  exact Nat.mod_lt _ hn

/- Two offsets below `n` reach the same cell only when they are equal. -/
theorem offset_inj {n first i j : ℕ} (hi : i < n) (hj : j < n)
    (h : (first + i) % n = (first + j) % n) : i = j := by
  have hm : i ≡ j [MOD n] := Nat.ModEq.add_left_cancel' first h
  have he : i % n = j % n := hm
  rwa [Nat.mod_eq_of_lt hi, Nat.mod_eq_of_lt hj] at he

theorem mem_positions_full {n first i : ℕ} (hf : first < n) (hi : i < n) :
    i ∈ positions n first n := by
  refine mem_positions.mpr ⟨(i + n - first) % n, Nat.mod_lt _ (by omega), ?_⟩
  rw [Nat.add_mod_mod, show first + (i + n - first) = i + n by omega, Nat.add_mod_right,
    Nat.mod_eq_of_lt hi]

theorem nodup_positions {n first k : ℕ} (hk : k ≤ n) : (positions n first k).Nodup := by
  refine List.nodup_range.map_on fun i hi j hj h => ?_
  rw [List.mem_range] at hi hj
  exact offset_inj (by omega) (by omega) h

/- Once round the ring every cell is met exactly once. -/
theorem count_positions_full {n first i : ℕ} (hf : first < n) (hi : i < n) :
    (positions n first n).count i = 1 :=
  List.count_eq_one_of_mem (nodup_positions le_rfl) (mem_positions_full hf hi)

/- A ring of flags that holds exactly the `k` cells from `first` on, with `next`
the cell after them. `k = 0` and `k = n` both put `next` on `first`. -/
structure Holds (n first next k : ℕ) (flags : List Bool) : Prop where
  length : flags.length = n
  first_lt : first < n
  count_le : k ≤ n
  next_eq : next = (first + k) % n
  flag_iff : ∀ i < n, flags[i]? = some true ↔ i ∈ positions n first k

theorem holds_empty {n : ℕ} (hn : 0 < n) : Holds n 0 0 0 (List.replicate n false) where
  length := List.length_replicate
  first_lt := hn
  count_le := Nat.zero_le n
  next_eq := (Nat.zero_mod n).symm
  flag_iff := fun i hi => by simp [hi]

namespace Holds
variable {n first next k : ℕ} {flags : List Bool}

theorem next_lt (h : Holds n first next k flags) : next < n := by
  rw [h.next_eq]
  exact Nat.mod_lt _ (Nat.zero_lt_of_lt h.first_lt)

theorem flag_iff_mem (h : Holds n first next k flags) (i : ℕ) :
    flags[i]? = some true ↔ i ∈ positions n first k := by
  by_cases hi : i < n
  · exact h.flag_iff i hi
  · have hl : flags.length ≤ i := by rw [h.length]; omega
    have hm : i ∉ positions n first k := fun hm =>
      hi (lt_of_mem_positions (Nat.zero_lt_of_lt h.first_lt) hm)
    simp [List.getElem?_eq_none hl, hm]

/- A clear flag at `next` rules out the full ring, a set flag at `first` the empty one. -/
theorem count_lt (h : Holds n first next k flags) (hf : flags[next]? ≠ some true) : k < n := by
  rcases Nat.lt_or_eq_of_le h.count_le with hk | hk
  · exact hk
  · have hm := mem_positions_full h.first_lt h.next_lt
    rw [← hk] at hm
    exact absurd ((h.flag_iff next h.next_lt).mpr (hk ▸ hm)) hf

theorem count_pos (h : Holds n first next k flags) (hf : flags[first]? = some true) : 0 < k := by
  have hm := (h.flag_iff first h.first_lt).mp hf
  obtain ⟨j, hj, _⟩ := mem_positions.mp hm
  omega

/-- Setting the flag at `next` and moving `next` on adds one cell at the end. -/
theorem push (h : Holds n first next k flags) (hf : flags[next]? ≠ some true) :
    Holds n first ((next + 1) % n) (k + 1) (flags.set next true) where
  length := by rw [List.length_set, h.length]
  first_lt := h.first_lt
  count_le := h.count_lt hf
  next_eq := by rw [h.next_eq, Nat.mod_add_mod, Nat.add_assoc]
  flag_iff := fun i hi => by
    have hl : next < flags.length := by rw [h.length]; exact h.next_lt
    rw [positions_snoc, List.mem_append, List.mem_singleton, ← h.next_eq, ← h.flag_iff i hi]
    by_cases he : i = next
    · subst he
      simp [List.getElem?_set_self hl]
    · rw [List.getElem?_set_ne (Ne.symm he)]
      simp [he]

/-- Clearing the flag at `first` and moving `first` on takes the first cell out. -/
theorem pop (h : Holds n first next (k + 1) flags) :
    Holds n ((first + 1) % n) next k (flags.set first false) where
  length := by rw [List.length_set, h.length]
  first_lt := Nat.mod_lt _ (Nat.zero_lt_of_lt h.first_lt)
  count_le := Nat.le_of_succ_le h.count_le
  next_eq := by rw [h.next_eq, Nat.mod_add_mod, Nat.add_right_comm, Nat.add_assoc]
  flag_iff := fun i hi => by
    have hl : first < flags.length := by rw [h.length]; exact h.first_lt
    by_cases he : i = first
    · subst he
      have hn : i ∉ positions n ((i + 1) % n) k := by
        intro hm
        obtain ⟨j, hj, hj'⟩ := mem_positions.mp hm
        rw [Nat.mod_add_mod, Nat.add_assoc] at hj'
        have hk := h.count_le
        have h0 : (i + (1 + j)) % n = (i + 0) % n := by rw [hj', Nat.add_zero, Nat.mod_eq_of_lt hi]
        have := offset_inj (by omega) (by omega) h0
        omega
      simp [List.getElem?_set_self hl, hn]
    · have hc := h.flag_iff i hi
      rw [positions_cons n first k h.first_lt, List.mem_cons] at hc
      rw [List.getElem?_set_ne (Ne.symm he), hc]
      simp [he]

end Holds
end CyclicRun
