import Iotic.Lib.Bisection
import Mathlib.Data.List.Pairwise

/-!
# Points of the site that come in late (site_service.dart)

Points are kept in the order of their x. New ones replace all old points in the range
they cover, which two binary searches find. The searches belong to `package:collection`.
-/

namespace Iotic.Webapp.SiteService
variable {FlSpot X : Type}

/- `lowerBound(sortedList, value, compare)`. -/
abbrev LowerBound (FlSpot : Type) := List FlSpot → FlSpot → (FlSpot → FlSpot → ℤ) → ℕ

/- The first position that does not compare less than the value, where everything that
compares less is before everything that does not. -/
def LowerBound.Faithful (lowerBound : LowerBound FlSpot) : Prop :=
  ∀ sortedList value compare,
    (sortedList.Pairwise fun s t => compare t value < 0 → compare s value < 0) →
      lowerBound sortedList value compare =
        (sortedList.takeWhile fun s => compare s value < 0).length

/- The doubles are compared, so that no x is NaN. -/
variable [LinearOrder X] (x : FlSpot → X)

def compareFirst (s t : FlSpot) : ℤ :=
  if x s < x t then -1 else if x s > x t then 1 else 0

/- Equal ones compare less here. -/
def compareLast (s t : FlSpot) : ℤ :=
  if x s ≤ x t then -1 else if x s > x t then 1 else 0

/- `removeRange` throws where the range is none of the list: `none`. -/
def add (lowerBound : LowerBound FlSpot) (oldList newList : List FlSpot) : Option (List FlSpot) :=
  match newList.head?, newList.getLast? with
  | some first, some last =>
    let i := lowerBound oldList first (compareFirst x)
    let j := lowerBound oldList last (compareLast x)
    if i ≤ j ∧ j ≤ oldList.length then some (oldList.take i ++ newList ++ oldList.drop j) else none
  | _, _ => some oldList

def Sorted (points : List FlSpot) : Prop := points.Pairwise fun s t => x s ≤ x t

/- The old points that stay: before the first new one, and behind the last. -/
def before (first : FlSpot) (points : List FlSpot) : List FlSpot := points.filter fun s => x s < x first

def behind (last : FlSpot) (points : List FlSpot) : List FlSpot := points.filter fun s => x last < x s

section Searches
variable {x} {lowerBound : LowerBound FlSpot} {points : List FlSpot}

theorem compareFirst_neg_iff (s t : FlSpot) : compareFirst x s t < 0 ↔ x s < x t := by
  unfold compareFirst
  split_ifs with hlt <;> simp [hlt]

theorem compareLast_neg_iff (s t : FlSpot) : compareLast x s t < 0 ↔ x s ≤ x t := by
  unfold compareLast
  split_ifs with hle <;> simp [hle]

/- What compares less comes first, for either comparison. -/
theorem sorted_compareFirst (h : Sorted x points) (first : FlSpot) :
    points.Pairwise fun s t => compareFirst x t first < 0 → compareFirst x s first < 0 := by
  refine h.imp fun {s t} hst ht => ?_
  rw [compareFirst_neg_iff] at ht ⊢
  exact hst.trans_lt ht

theorem sorted_compareLast (h : Sorted x points) (last : FlSpot) :
    points.Pairwise fun s t => compareLast x t last < 0 → compareLast x s last < 0 := by
  refine h.imp fun {s t} hst ht => ?_
  rw [compareLast_neg_iff] at ht ⊢
  exact hst.trans ht

theorem take_lowerBound (hlower : lowerBound.Faithful) (h : Sorted x points) (first : FlSpot) :
    points.take (lowerBound points first (compareFirst x)) = before x first points := by
  have hp := sorted_compareFirst h first
  rw [hlower points first _ hp, before]
  simp only [compareFirst_neg_iff] at hp ⊢
  exact (Sequences.filter_eq_take (by simpa using hp)).symm

theorem drop_lowerBound (hlower : lowerBound.Faithful) (h : Sorted x points) (last : FlSpot) :
    points.drop (lowerBound points last (compareLast x)) = behind x last points := by
  have hp := sorted_compareLast h last
  rw [hlower points last _ hp, behind]
  simp only [compareLast_neg_iff] at hp ⊢
  rw [← Sequences.filter_not_eq_drop (by simpa using hp)]
  simp [← not_le]

/- The range is one of the list: what is below the first is not above the last. -/
theorem lowerBound_le_lowerBound (hlower : lowerBound.Faithful) (h : Sorted x points)
    {first last : FlSpot} (hle : x first ≤ x last) :
    lowerBound points first (compareFirst x) ≤ lowerBound points last (compareLast x) ∧
      lowerBound points last (compareLast x) ≤ points.length := by
  have hfirst := sorted_compareFirst h first
  have hlast := sorted_compareLast h last
  rw [hlower points first _ hfirst, hlower points last _ hlast]
  simp only [compareFirst_neg_iff, compareLast_neg_iff] at hfirst hlast ⊢
  refine ⟨?_, (List.takeWhile_prefix _).length_le⟩
  rw [Sequences.length_takeWhile_eq (by simpa using hfirst),
    Sequences.length_takeWhile_eq (by simpa using hlast)]
  refine (List.monotone_filter_right points fun s hs => ?_).length_le
  simp only [decide_eq_true_eq] at hs ⊢
  exact (hs.trans_le hle).le

/- Below, among and above the new points. -/
theorem sorted_append {oldList newList : List FlSpot} (hold : Sorted x oldList)
    (hnew : Sorted x newList) {first last : FlSpot} (hfirst : ∀ s ∈ newList, x first ≤ x s)
    (hlast : ∀ s ∈ newList, x s ≤ x last) (hle : x first ≤ x last) :
    Sorted x (before x first oldList ++ newList ++ behind x last oldList) := by
  have hbefore : ∀ s ∈ before x first oldList, x s < x first := fun s hs => by
    simpa using (List.mem_filter.mp hs).2
  have hbehind : ∀ s ∈ behind x last oldList, x last < x s := fun s hs => by
    simpa using (List.mem_filter.mp hs).2
  refine List.pairwise_append.mpr ⟨List.pairwise_append.mpr ⟨hold.filter _, hnew, ?_⟩,
    hold.filter _, ?_⟩
  · intro s hs t ht
    exact (hbefore s hs).le.trans (hfirst t ht)
  · intro s hs t ht
    rcases List.mem_append.mp hs with hs | hs
    · exact ((hbefore s hs).le.trans hle).trans (hbehind t ht).le
    · exact (hlast s hs).trans (hbehind t ht).le

end Searches

/-- The new points are in the list as they are, between the old points below the first
and above the last of them, and the list is sorted again. -/
theorem add_eq {lowerBound : LowerBound FlSpot} (hlower : lowerBound.Faithful)
    {oldList newList : List FlSpot} (hold : Sorted x oldList) (hnew : Sorted x newList)
    (hne : newList ≠ []) :
    ∃ points, add x lowerBound oldList newList = some points ∧ Sorted x points ∧
      points = before x (newList.head hne) oldList ++ newList ++
        behind x (newList.getLast hne) oldList := by
  have hrefl : Std.Refl fun s t : FlSpot => x s ≤ x t := ⟨fun s => le_rfl⟩
  have hfirst : ∀ s ∈ newList, x (newList.head hne) ≤ x s := fun s hs => hnew.rel_head hs
  have hlast : ∀ s ∈ newList, x s ≤ x (newList.getLast hne) := fun s hs => hnew.rel_getLast hs
  have hle := hfirst _ (List.getLast_mem hne)
  refine ⟨_, ?_, sorted_append hold hnew hfirst hlast hle, rfl⟩
  rw [add, List.head?_eq_some_head hne, List.getLast?_eq_some_getLast hne]
  dsimp only
  rw [if_pos (lowerBound_le_lowerBound hlower hold hle), take_lowerBound hlower hold,
    drop_lowerBound hlower hold]

/- The search of the package. -/
def bisection : LowerBound FlSpot := fun sortedList value compare =>
  Bisection.bisect (fun s => compare s value < 0) sortedList

theorem bisection_faithful : (bisection : LowerBound FlSpot).Faithful := by
  intro sortedList value compare h
  exact Bisection.bisect_eq (by simpa using h)

theorem add_eq_overlapping :
    ∃ points, add (Prod.fst : ℤ × ℤ → ℤ) bisection [(1, 10), (2, 20), (2, 21), (4, 40)]
        [(2, 0), (3, 0)] = some points ∧
      Sorted Prod.fst points ∧ points = [(1, 10), (2, 0), (3, 0), (4, 40)] := by
  have hold : Sorted (Prod.fst : ℤ × ℤ → ℤ) [(1, 10), (2, 20), (2, 21), (4, 40)] := by
    unfold Sorted
    decide
  have hnew : Sorted (Prod.fst : ℤ × ℤ → ℤ) [(2, 0), (3, 0)] := by
    unfold Sorted
    decide
  obtain ⟨points, hadd, hsorted, hpoints⟩ := add_eq Prod.fst bisection_faithful hold hnew (by decide)
  exact ⟨points, hadd, hsorted, hpoints.trans (by decide)⟩

end Iotic.Webapp.SiteService
