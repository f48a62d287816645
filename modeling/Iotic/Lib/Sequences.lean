import Mathlib.Algebra.BigOperators.Group.List.Basic
import Mathlib.Algebra.Ring.Int.Defs
import Mathlib.Data.Int.Notation
import Mathlib.Data.List.Basic
import Mathlib.Data.List.Chain
import Mathlib.Data.List.Nodup
import Mathlib.Order.Lattice
import Mathlib.Tactic.Common

/-!
# Sequences of stamped values

Three things done to a sequence of values: keeping only the ones that change,
replacing each by its difference from the one before, and summing up again. The
last sections are about successive elements, about stable sorting, about samples that
hit a window, about sums taken group by group and about loops whose body may be
undefined at some element.
-/

namespace Sequences
variable {K V A : Type*}

/-! ### Keeping the changes -/

/- The value in force behind the entries. -/
def lastValue (last : V) : List (K × V) → V
  | [] => last
  | e :: es => lastValue e.2 es

theorem lastValue_snoc (last : V) (es : List (K × V)) (e : K × V) :
    lastValue last (es ++ [e]) = e.2 := by
  induction es generalizing last with
  | nil => rfl
  | cons x es ih => exact ih x.2

/- The last entry holds the value in force. -/
theorem lastValue_of_getLast? (last : V) {es : List (K × V)} {e : K × V}
    (h : es.getLast? = some e) : lastValue last es = e.2 := by
  obtain ⟨init, rfl⟩ := List.getLast?_eq_some_iff.mp h
  exact lastValue_snoc last init e

section Changes
variable [DecidableEq V]

/- The entries whose value differs from the value just before, `last` at first. -/
def changesFrom (last : V) : List (K × V) → List (K × V)
  | [] => []
  | e :: es => if e.2 = last then changesFrom e.2 es else e :: changesFrom e.2 es

/-- The first entry, and each later one that differs from its predecessor. -/
def changes : List (K × V) → List (K × V)
  | [] => []
  | e :: es => e :: changesFrom e.2 es

theorem changesFrom_sublist (last : V) (es : List (K × V)) : (changesFrom last es).Sublist es := by
  induction es generalizing last with
  | nil => exact List.Sublist.slnil
  | cons e es ih =>
    rw [changesFrom]
    split_ifs
    · exact (ih e.2).cons e
    · exact (ih e.2).cons_cons e

theorem changes_sublist (es : List (K × V)) : (changes es).Sublist es := by
  cases es with
  | nil => exact List.Sublist.slnil
  | cons e es => exact (changesFrom_sublist e.2 es).cons_cons e

theorem changesFrom_append (last : V) (es fs : List (K × V)) :
    changesFrom last (es ++ fs) = changesFrom last es ++ changesFrom (lastValue last es) fs := by
  induction es generalizing last with
  | nil => rfl
  | cons e es ih =>
    rw [List.cons_append, changesFrom, changesFrom, ih e.2, lastValue]
    split_ifs
    · rfl
    · rfl

/- An entry at the end stays exactly if it differs from the one before it. -/
theorem changes_snoc (es : List (K × V)) (a b : K × V) :
    changes (es ++ [a] ++ [b]) =
      if b.2 = a.2 then changes (es ++ [a]) else changes (es ++ [a]) ++ [b] := by
  cases es with
  | nil =>
    show a :: changesFrom a.2 [b] = if b.2 = a.2 then [a] else [a, b]
    rw [changesFrom, changesFrom]
    split_ifs <;> rfl
  | cons e es =>
    have hc : changes (e :: es ++ [a] ++ [b]) = e :: changesFrom e.2 (es ++ [a] ++ [b]) := rfl
    have ha : changes (e :: es ++ [a]) = e :: changesFrom e.2 (es ++ [a]) := rfl
    rw [hc, ha, changesFrom_append e.2 (es ++ [a]) [b], lastValue_snoc, changesFrom, changesFrom]
    split_ifs
    · rw [List.append_nil]
    · rfl

theorem changesFrom_changesFrom (last : V) (es : List (K × V)) :
    changesFrom last (changesFrom last es) = changesFrom last es := by
  induction es generalizing last with
  | nil => rfl
  | cons e es ih =>
    by_cases h : e.2 = last
    · rw [changesFrom, if_pos h, h]
      exact ih last
    · rw [changesFrom, if_neg h, changesFrom, if_neg h, ih e.2]

theorem lastValue_changesFrom (last : V) (es : List (K × V)) :
    lastValue last (changesFrom last es) = lastValue last es := by
  induction es generalizing last with
  | nil => rfl
  | cons e es ih =>
    by_cases h : e.2 = last
    · rw [changesFrom, if_pos h, lastValue, ← h]
      exact ih e.2
    · rw [changesFrom, if_neg h, lastValue, lastValue]
      exact ih e.2

theorem changes_changes (es : List (K × V)) : changes (changes es) = changes es := by
  cases es with
  | nil => rfl
  | cons e es => rw [changes, changes, changesFrom_changesFrom]

end Changes

/-! ### Entries in the order of their keys -/

section Ordered
variable [LinearOrder K]

/- The entries up to a key come first. -/
theorem filter_le_append {es : List (K × V)} (hs : es.Pairwise fun a b => a.1 ≤ b.1) (k : K) :
    ∃ later, es = (es.filter fun e => e.1 ≤ k) ++ later ∧ ∀ e ∈ later, k < e.1 := by
  induction es with
  | nil => exact ⟨[], rfl, fun _ he => (nomatch he)⟩
  | cons e es ih =>
    obtain ⟨hhd, htl⟩ := List.pairwise_cons.mp hs
    by_cases hk : e.1 ≤ k
    · obtain ⟨later, hsplit, hlater⟩ := ih htl
      refine ⟨later, ?_, hlater⟩
      rw [List.filter_cons_of_pos (by simpa using hk), List.cons_append, ← hsplit]
    · have hall : ∀ x ∈ e :: es, k < x.1 := by
        intro x hx
        rcases List.mem_cons.mp hx with rfl | hx
        · exact not_le.mp hk
        · exact (not_le.mp hk).trans_le (hhd x hx)
      refine ⟨e :: es, ?_, hall⟩
      rw [List.filter_eq_nil_iff.mpr fun x hx => by simpa using hall x hx, List.nil_append]

/- Which entries stay is decided before the key. -/
theorem filter_changesFrom [DecidableEq V] {es : List (K × V)}
    (hs : es.Pairwise fun a b => a.1 ≤ b.1) (last : V) (k : K) :
    (changesFrom last es).filter (fun e => e.1 ≤ k) =
      changesFrom last (es.filter fun e => e.1 ≤ k) := by
  obtain ⟨later, hsplit, hlater⟩ := filter_le_append hs k
  have hbefore : (changesFrom last (es.filter fun e => e.1 ≤ k)).filter (fun e => e.1 ≤ k) =
      changesFrom last (es.filter fun e => e.1 ≤ k) := by
    refine List.filter_eq_self.mpr fun e he => ?_
    exact (List.mem_filter.mp ((changesFrom_sublist _ _).subset he)).2
  have hafter : (changesFrom (lastValue last (es.filter fun e => e.1 ≤ k)) later).filter
      (fun e => e.1 ≤ k) = [] := by
    refine List.filter_eq_nil_iff.mpr fun e he => ?_
    simpa using hlater e ((changesFrom_sublist _ _).subset he)
  conv_lhs => rw [hsplit, changesFrom_append, List.filter_append, hbefore, hafter, List.append_nil]

end Ordered

/-! ### Differences and running sums -/

def diffsFrom [Sub A] (last : A) : List A → List A
  | [] => []
  | x :: xs => (x - last) :: diffsFrom x xs

def sumsFrom [Add A] (acc : A) : List A → List A
  | [] => []
  | d :: ds => (acc + d) :: sumsFrom (acc + d) ds

theorem length_sumsFrom [Add A] (acc : A) (ds : List A) : (sumsFrom acc ds).length = ds.length := by
  induction ds generalizing acc with
  | nil => rfl
  | cons d ds ih => rw [sumsFrom, List.length_cons, ih, List.length_cons]

theorem length_diffsFrom [Sub A] (last : A) (xs : List A) : (diffsFrom last xs).length = xs.length := by
  induction xs generalizing last with
  | nil => rfl
  | cons x xs ih => rw [diffsFrom, List.length_cons, ih, List.length_cons]

/- Summing the images of differences gives back the images of the sequence if and
only if every single difference is mapped to the difference of the images: one
step that does not commute with `f` spoils the running sum at that very place. -/
theorem sums_map_diffs_iff [Sub A] (f : A → ℤ) (last : A) (xs : List A) :
    sumsFrom (f last) ((diffsFrom last xs).map f) = xs.map f ↔
      (last :: xs).IsChain fun a b => f (b - a) = f b - f a := by
  induction xs generalizing last with
  | nil => simp [diffsFrom, sumsFrom]
  | cons x xs ih =>
    rw [diffsFrom, List.map_cons, sumsFrom, List.map_cons, List.cons.injEq, List.isChain_cons_cons]
    constructor
    · rintro ⟨hx, hxs⟩
      rw [hx] at hxs
      exact ⟨by omega, (ih x).mp hxs⟩
    · rintro ⟨hx, hxs⟩
      have he : f last + f (x - last) = f x := by omega
      rw [he]
      exact ⟨rfl, (ih x).mpr hxs⟩

/- A loop that scales each difference as it adds it scales the running sums. -/
theorem scanl_scaled (k acc : ℤ) (ds : List ℤ) :
    ds.scanl (fun previous d => previous + d * k) (acc * k) =
      (acc :: sumsFrom acc ds).map (· * k) := by
  induction ds generalizing acc with
  | nil => rfl
  | cons d ds ih =>
    have hstep : acc * k + d * k = (acc + d) * k := (Int.add_mul acc d k).symm
    rw [List.scanl_cons, hstep, ih, sumsFrom, List.map_cons (l := (acc + d) :: _)]

/-! ### Successive elements -/

/- Each element but the first, with the one before it. -/
def steps (l : List A) : List (A × A) := l.zip l.tail

theorem steps_snoc (l : List A) (a b : A) :
    steps (l ++ [a] ++ [b]) = steps (l ++ [a]) ++ [(a, b)] := by
  induction l with
  | nil => rfl
  | cons x l ih =>
    cases l with
    | nil => rfl
    | cons y l =>
      show (x, y) :: steps (y :: l ++ [a] ++ [b]) = (x, y) :: steps (y :: l ++ [a]) ++ [(a, b)]
      rw [ih]
      rfl

/-! ### Stable sorting -/

/- Sorting keeps the order of any elements that compare as equal. -/
theorem filter_mergeSort {le : A → A → Bool} (trans : ∀ a b c, le a b → le b c → le a c)
    (total : ∀ a b, le a b || le b a) {q : A → Bool} (hq : ∀ a b, q a → q b → le a b)
    (l : List A) : (l.mergeSort le).filter q = l.filter q := by
  have hle : (l.filter q).Pairwise fun a b => le a b := by
    refine List.pairwise_of_forall_mem_list fun a ha b hb => ?_
    exact hq a b (List.mem_filter.mp ha).2 (List.mem_filter.mp hb).2
  have hsub : (l.filter q).Sublist ((l.mergeSort le).filter q) := by
    have h := (List.sublist_mergeSort trans total hle List.filter_sublist).filter q
    simpa only [List.filter_filter, Bool.and_self] using h
  have hlen := ((List.mergeSort_perm l le).filter q).length_eq
  exact (hsub.eq_of_length hlen.symm).symm

theorem mem_iff_of_filter_eq [DecidableEq K] (key : A → K) {l l' : List A}
    (h : ∀ k, (l.filter fun a => key a = k) = l'.filter fun a => key a = k) (a : A) :
    a ∈ l ↔ a ∈ l' := by
  have ha := congrArg (a ∈ ·) (h (key a))
  simpa [List.mem_filter] using ha

/- Sorted lists that hold the same elements of each key in the same order are the same. -/
theorem eq_of_filter_eq [LinearOrder K] (key : A → K) {l l' : List A}
    (hl : l.Pairwise fun a b => key a ≤ key b) (hl' : l'.Pairwise fun a b => key a ≤ key b)
    (h : ∀ k, (l.filter fun a => key a = k) = l'.filter fun a => key a = k) : l = l' := by
  have hmem := mem_iff_of_filter_eq key h
  induction l generalizing l' with
  | nil =>
    symm
    rw [List.eq_nil_iff_forall_not_mem]
    intro a ha
    cases (hmem a).mpr ha
  | cons a l ih =>
    cases l' with
    | nil => cases (hmem a).mp List.mem_cons_self
    | cons b l' =>
      have hab : key a ≤ key b := by
        cases List.mem_cons.mp ((hmem b).mpr List.mem_cons_self) with
        | inl heq => rw [heq]
        | inr hb => exact (List.pairwise_cons.mp hl).1 b hb
      have hba : key b ≤ key a := by
        cases List.mem_cons.mp ((hmem a).mp List.mem_cons_self) with
        | inl heq => rw [heq]
        | inr ha => exact (List.pairwise_cons.mp hl').1 a ha
      have hkey : key b = key a := le_antisymm hba hab
      have hhead := h (key a)
      rw [List.filter_cons_of_pos (by simp), List.filter_cons_of_pos (by simpa using hkey)] at hhead
      obtain ⟨rfl, -⟩ := List.cons.inj hhead
      have htail : ∀ k, (l.filter fun c => key c = k) = l'.filter fun c => key c = k := by
        intro k
        have hk := h k
        by_cases hc : key a = k
        · rw [List.filter_cons_of_pos (by simpa using hc),
            List.filter_cons_of_pos (by simpa using hc)] at hk
          exact (List.cons.inj hk).2
        · rwa [List.filter_cons_of_neg (by simpa using hc),
            List.filter_cons_of_neg (by simpa using hc)] at hk
      rw [ih (List.pairwise_cons.mp hl).2 (List.pairwise_cons.mp hl').2 htail
        (mem_iff_of_filter_eq key htail)]

/-! ### Ranges -/

/- In a sorted list a bound is found at the number of elements before it. -/
theorem lt_length_takeWhile_iff {p : A → Bool} {l : List A}
    (h : l.Pairwise fun a b => p b → p a) {i : ℕ} (hi : i < l.length) :
    i < (l.takeWhile p).length ↔ p l[i] := by
  induction l generalizing i with
  | nil => cases hi
  | cons a l ih =>
    obtain ⟨ha, hl⟩ := List.pairwise_cons.mp h
    by_cases hp : p a
    · rw [List.takeWhile_cons_of_pos hp]
      cases i with
      | zero => simpa using hp
      | succ i =>
        have hi' : i < l.length := Nat.lt_of_succ_lt_succ hi
        simpa using ih hl hi'
    · rw [List.takeWhile_cons_of_neg hp]
      have hnot : ¬ p (a :: l)[i] := by
        cases i with
        | zero => exact hp
        | succ i => exact fun hpi => hp (ha _ (List.getElem_mem _) hpi)
      simpa using hnot

/- What holds from one index on and up to another, holds of the elements between. -/
theorem filter_eq_slice {f : A → Bool} {l : List A} {m n : ℕ}
    (h : ∀ i (hi : i < l.length), f l[i] ↔ m ≤ i ∧ i < n) : l.filter f = (l.take n).drop m := by
  induction l generalizing m n with
  | nil => simp
  | cons a l ih =>
    have ha : f a ↔ m ≤ 0 ∧ 0 < n := h 0 (Nat.zero_lt_succ _)
    have htail : ∀ i (hi : i < l.length), f l[i] ↔ m - 1 ≤ i ∧ i < n - 1 := by
      intro i hi
      have hs : f l[i] ↔ m ≤ i + 1 ∧ i + 1 < n := h (i + 1) (Nat.succ_lt_succ hi)
      rw [hs]
      omega
    have hrest := ih htail
    cases n with
    | zero =>
      rw [List.filter_cons_of_neg (by rw [ha]; omega), hrest]
      simp
    | succ n =>
      cases m with
      | zero =>
        rw [List.filter_cons_of_pos (ha.mpr (by omega)), hrest]
        rfl
      | succ m =>
        rw [List.filter_cons_of_neg (by rw [ha]; omega), hrest]
        rfl

/- Where the elements with a property come first, they are what is before their number,
and the others what is behind. -/
theorem filter_eq_take {p : A → Bool} {l : List A} (h : l.Pairwise fun a b => p b → p a) :
    l.filter p = l.take (l.takeWhile p).length := by
  have hslice := filter_eq_slice (f := p) (m := 0) (n := (l.takeWhile p).length)
    fun i hi => by rw [lt_length_takeWhile_iff h hi]; simp
  rw [hslice, List.drop_zero]

theorem filter_not_eq_drop {p : A → Bool} {l : List A} (h : l.Pairwise fun a b => p b → p a) :
    (l.filter fun a => !p a) = l.drop (l.takeWhile p).length := by
  have hslice := filter_eq_slice (f := fun a => !p a) (m := (l.takeWhile p).length) (n := l.length)
    fun i hi => by rw [← not_lt, lt_length_takeWhile_iff h hi]; simp [hi]
  rw [hslice, List.take_length]

theorem length_takeWhile_eq {p : A → Bool} {l : List A} (h : l.Pairwise fun a b => p b → p a) :
    (l.takeWhile p).length = (l.filter p).length := by
  rw [filter_eq_take h, List.length_take, min_eq_left (List.takeWhile_prefix p).length_le]

/-! ### Samples in a window -/

/- Where no two have a property, one is enough for exactly one. -/
theorem countP_eq_one_iff {p : A → Bool} {l : List A} (h : l.Pairwise fun a b => ¬ (p a ∧ p b)) :
    l.countP p = 1 ↔ ∃ a ∈ l, p a := by
  rw [← List.countP_pos_iff]
  have hle : l.countP p ≤ 1 := by
    induction l with
    | nil => simp
    | cons a l ih =>
      obtain ⟨ha, hl⟩ := List.pairwise_cons.mp h
      by_cases hp : p a
      · have hnone : l.countP p = 0 := by
          rw [List.countP_eq_zero]
          exact fun b hb hpb => ha b hb ⟨hp, hpb⟩
        rw [List.countP_cons_of_pos hp, hnone]
      · rw [List.countP_cons_of_neg hp]
        exact ih hl
  omega

/- Rising samples that start before a window and end behind it hit it unless two
successive ones leap over it. -/
theorem exists_mem_window_iff [LinearOrder A] {lo hi : A} (hw : lo ≤ hi) {l : List A}
    (hl : l.Pairwise (· < ·)) (hfirst : ∀ a ∈ l.head?, a < lo) (hlast : ∃ a ∈ l, hi < a) :
    (∃ a ∈ l, lo ≤ a ∧ a ≤ hi) ↔ l.IsChain fun a b => ¬ (a < lo ∧ hi < b) := by
  induction l with
  | nil => simp at hlast
  | cons a l ih =>
    have halo : a < lo := hfirst a rfl
    obtain ⟨hal, hl⟩ := List.pairwise_cons.mp hl
    obtain ⟨z, hz, hzhi⟩ := hlast
    have hzl : z ∈ l := by
      rcases List.mem_cons.mp hz with rfl | hzl
      · exact absurd (halo.trans_le hw) (not_lt.mpr hzhi.le)
      · exact hzl
    have hskip : (∃ x ∈ a :: l, lo ≤ x ∧ x ≤ hi) ↔ ∃ x ∈ l, lo ≤ x ∧ x ≤ hi := by
      simp [not_le.mpr halo]
    rw [hskip]
    cases l with
    | nil => cases hzl
    | cons b l =>
      rw [List.isChain_cons_cons]
      rcases lt_or_ge b lo with hb | hb
      · rw [ih hl (fun x hx => by rwa [← Option.some.inj hx]) ⟨z, hzl, hzhi⟩]
        have hnot : ¬ (a < lo ∧ hi < b) := fun h => absurd (hb.trans_le hw) (not_lt.mpr h.2.le)
        simp [hnot]
      · have hall : ∀ x ∈ b :: l, b ≤ x := by
          intro x hx
          rcases List.mem_cons.mp hx with rfl | hx
          · exact le_rfl
          · exact ((List.pairwise_cons.mp hl).1 x hx).le
        rcases le_or_gt b hi with hbhi | hbhi
        · have hchain : (b :: l).IsChain fun x y => ¬ (x < lo ∧ hi < y) :=
            (hl.imp_of_mem fun hx _ _ h => absurd h.1 (not_lt.mpr (hb.trans (hall _ hx)))).isChain
          exact iff_of_true ⟨b, List.mem_cons_self, hb, hbhi⟩
            ⟨fun h => absurd h.2 (not_lt.mpr hbhi), hchain⟩
        · refine iff_of_false ?_ fun h => h.1 ⟨halo, hbhi⟩
          intro ⟨x, hx, _, hxhi⟩
          exact absurd (hbhi.trans_le (hall x hx)) (not_lt.mpr hxhi)

/-! ### Sums over groups -/

/- A sum may be taken group by group, where every element belongs to one. -/
theorem sum_map_groups [DecidableEq K] (key : A → K) (g : A → ℤ) {keys : List K}
    (hnd : keys.Nodup) {l : List A} (h : ∀ a ∈ l, key a ∈ keys) :
    (l.map g).sum = (keys.map fun k => ((l.filter fun a => key a = k).map g).sum).sum := by
  induction l with
  | nil => simp
  | cons a l ih =>
    obtain ⟨ha, hl⟩ := List.forall_mem_cons.mp h
    have hgroup : ∀ k, (((a :: l).filter fun a => key a = k).map g).sum =
        (if k = key a then g a else 0) + ((l.filter fun a => key a = k).map g).sum := by
      intro k
      by_cases hk : key a = k
      · rw [List.filter_cons_of_pos (by simpa using hk), if_pos hk.symm, List.map_cons, List.sum_cons]
      · rw [List.filter_cons_of_neg (by simpa using hk), if_neg (Ne.symm hk), zero_add]
    have hone : (keys.map fun k => if k = key a then g a else 0).sum = g a := by
      rw [List.sum_map_ite_eq, List.count_eq_one_of_mem hnd ha]
      simp
    simp only [hgroup, List.sum_map_add, hone, List.map_cons, List.sum_cons, ih hl]

/-! ### Loops with a partial body -/

theorem mapM_eq_pure {A B : Type*} {m : Type _ → Type*} [Monad m] [LawfulMonad m] {f : A → m B}
    {g : A → B} {l : List A} (h : ∀ x ∈ l, f x = pure (g x)) :
    l.mapM f = pure (l.map g) := by
  induction l with
  | nil => rfl
  | cons x xs ih =>
    have hx := h x List.mem_cons_self
    have ht := ih fun y hy => h y (List.mem_cons_of_mem _ hy)
    rw [List.mapM_cons, hx, ht, pure_bind, pure_bind, List.map_cons]

theorem mapM_eq_some {B : Type*} {f : A → Option B} {g : A → B} {l : List A}
    (h : ∀ x ∈ l, f x = some (g x)) : l.mapM f = some (l.map g) := mapM_eq_pure h

theorem mapM_isSome_iff {B : Type*} {f : A → Option B} {l : List A} :
    (l.mapM f).isSome ↔ ∀ x ∈ l, (f x).isSome := by
  induction l with
  | nil => simp
  | cons x l ih =>
    rw [List.mapM_cons, List.forall_mem_cons, ← ih]
    cases f x with
    | none => simp
    | some y => cases hl : l.mapM f <;> simp

theorem foldlM_eq_some {B : Type*} {f : B → A → Option B} {g : B → A → B} {xs : List A}
    (h : ∀ b, ∀ x ∈ xs, f b x = some (g b x)) (b : B) : xs.foldlM f b = some (xs.foldl g b) := by
  induction xs generalizing b with
  | nil => rfl
  | cons x xs ih =>
    rw [List.foldlM_cons, h b x List.mem_cons_self]
    exact ih (fun b y hy => h b y (List.mem_cons_of_mem _ hy)) (g b x)

/- Where `J` is kept and tells at which elements the body is defined, it is defined all
the way exactly where it is at every element. -/
theorem foldlM_isSome_iff {B : Type*} {f : B → A → Option B} {J : B → Prop} {P : A → Prop}
    {xs : List A} (hJ : ∀ b b', ∀ x ∈ xs, J b → f b x = some b' → J b')
    (hP : ∀ b, J b → ∀ x ∈ xs, ((f b x).isSome ↔ P x)) {b : B} (hb : J b) :
    (xs.foldlM f b).isSome ↔ ∀ x ∈ xs, P x := by
  induction xs generalizing b with
  | nil => simp
  | cons x xs ih =>
    have hx := hP b hb x List.mem_cons_self
    rw [List.foldlM_cons, List.forall_mem_cons, ← hx]
    cases hf : f b x with
    | none => simp
    | some b' =>
      have hrest := ih (fun c c' y hy => hJ c c' y (List.mem_cons_of_mem x hy))
        (fun c hc y hy => hP c hc y (List.mem_cons_of_mem x hy))
        (hJ b b' x List.mem_cons_self hb hf)
      simpa using hrest

end Sequences
