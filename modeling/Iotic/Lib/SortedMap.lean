import Mathlib.Order.Lattice
import Mathlib.Data.List.Pairwise
import Mathlib.Data.List.Induction
import Mathlib.Data.List.Nodup
import Mathlib.Tactic.Common

/-!
# Ordered maps

A finite map held as its entries in strictly ascending key order: what an
in-order traversal of a search tree or a scan of an ordered store delivers.
The order is a field, so a map with a repeated or misplaced key cannot be built.
-/

/-- Finite map, entries in strictly ascending key order. -/
@[ext] structure SortedMap (K V : Type*) [LinearOrder K] where
  entries : List (K × V)
  sorted : entries.Pairwise fun a b => a.1 < b.1

namespace SortedMap
variable {K V W : Type*} [LinearOrder K]

def empty : SortedMap K V := ⟨[], List.Pairwise.nil⟩

/-! ### Lookup and insertion on the entry list -/

def lookupEntry (k : K) : List (K × V) → Option V
  | [] => none
  | (k', v) :: es => if k = k' then some v else lookupEntry k es

/- Insert in order, overwriting the value of a key that is there. -/
def putEntry (k : K) (v : V) : List (K × V) → List (K × V)
  | [] => [(k, v)]
  | (k', v') :: es =>
    if k < k' then (k, v) :: (k', v') :: es
    else if k = k' then (k, v) :: es
    else (k', v') :: putEntry k v es

theorem mem_putEntry {k : K} {v : V} {es : List (K × V)} {e : K × V}
    (h : e ∈ putEntry k v es) : e = (k, v) ∨ e ∈ es := by
  induction es with
  | nil => exact Or.inl (by simpa [putEntry] using h)
  | cons hd tl ih =>
    obtain ⟨k', v'⟩ := hd
    rw [putEntry] at h
    split_ifs at h with h1 h2
    · exact List.mem_cons.mp h
    · rcases List.mem_cons.mp h with h | h
      · exact Or.inl h
      · exact Or.inr (List.mem_cons_of_mem _ h)
    · rcases List.mem_cons.mp h with h | h
      · exact Or.inr (h ▸ List.mem_cons_self)
      · exact (ih h).imp id (List.mem_cons_of_mem _)

theorem sorted_putEntry (k : K) (v : V) (es : List (K × V))
    (h : es.Pairwise fun a b => a.1 < b.1) : (putEntry k v es).Pairwise fun a b => a.1 < b.1 := by
  induction es with
  | nil => simp [putEntry]
  | cons hd tl ih =>
    obtain ⟨k', v'⟩ := hd
    obtain ⟨hhd, htl⟩ := List.pairwise_cons.mp h
    rw [putEntry]
    split_ifs with h1 h2
    · refine List.pairwise_cons.mpr ⟨fun e he => ?_, h⟩
      rcases List.mem_cons.mp he with rfl | he
      · exact h1
      · exact h1.trans (hhd e he)
    · subst h2
      exact List.pairwise_cons.mpr ⟨hhd, htl⟩
    · refine List.pairwise_cons.mpr ⟨fun e he => ?_, ih htl⟩
      rcases mem_putEntry he with rfl | he
      · exact lt_of_le_of_ne (not_lt.mp h1) (Ne.symm h2)
      · exact hhd e he

theorem putEntry_map {W : Type*} (f : V → W) (k : K) (v : V) (es : List (K × V)) :
    putEntry k (f v) (es.map fun e => (e.1, f e.2)) =
      (putEntry k v es).map fun e => (e.1, f e.2) := by
  induction es with
  | nil => rfl
  | cons e es ih =>
    obtain ⟨a, w⟩ := e
    rw [List.map_cons, putEntry, putEntry, ih]
    split_ifs <;> rfl

theorem lookup_putEntry (k : K) (v : V) (es : List (K × V)) (k' : K) :
    lookupEntry k' (putEntry k v es) = if k' = k then some v else lookupEntry k' es := by
  induction es with
  | nil => rfl
  | cons hd tl ih =>
    obtain ⟨a, w⟩ := hd
    rw [putEntry]
    by_cases h1 : k < a
    · rw [if_pos h1, lookupEntry]
    rw [if_neg h1]
    by_cases h2 : k = a
    · subst h2
      rw [if_pos rfl, lookupEntry, lookupEntry]
      split_ifs <;> rfl
    rw [if_neg h2, lookupEntry, ih, lookupEntry]
    by_cases h3 : k' = k
    · rw [if_pos h3, if_pos h3, if_neg (h3 ▸ h2)]
    · rw [if_neg h3, if_neg h3]

theorem lookupEntry_of_lt {k : K} {es : List (K × V)} (h : ∀ e ∈ es, k < e.1) :
    lookupEntry k es = none := by
  induction es with
  | nil => rfl
  | cons hd tl ih =>
    obtain ⟨a, w⟩ := hd
    have ha : k ≠ a := (h (a, w) List.mem_cons_self).ne
    rw [lookupEntry, if_neg ha]
    exact ih fun e he => h e (List.mem_cons_of_mem _ he)

theorem lookupEntry_eq_some {k : K} {v : V} {es : List (K × V)}
    (h : es.Pairwise fun a b => a.1 < b.1) : lookupEntry k es = some v ↔ (k, v) ∈ es := by
  induction es with
  | nil => simp [lookupEntry]
  | cons hd tl ih =>
    obtain ⟨a, w⟩ := hd
    obtain ⟨hhd, htl⟩ := List.pairwise_cons.mp h
    rw [lookupEntry, List.mem_cons, Prod.mk.injEq]
    split_ifs with hk
    · subst hk
      have hn : (k, v) ∉ tl := fun hm => lt_irrefl k (hhd (k, v) hm)
      simp [hn, eq_comm]
    · rw [ih htl]
      simp [hk]

/-! ### The operations -/

def get? (m : SortedMap K V) (k : K) : Option V := lookupEntry k m.entries

def put (m : SortedMap K V) (k : K) (v : V) : SortedMap K V :=
  ⟨putEntry k v m.entries, sorted_putEntry k v m.entries m.sorted⟩

def filter (m : SortedMap K V) (p : K × V → Bool) : SortedMap K V :=
  ⟨m.entries.filter p, m.sorted.sublist List.filter_sublist⟩

@[simp] theorem get?_empty (k : K) : (empty : SortedMap K V).get? k = none := rfl

theorem get?_put (m : SortedMap K V) (k : K) (v : V) (k' : K) :
    (m.put k v).get? k' = if k' = k then some v else m.get? k' :=
  lookup_putEntry k v m.entries k'

@[simp] theorem get?_put_self (m : SortedMap K V) (k : K) (v : V) : (m.put k v).get? k = some v := by
  rw [get?_put, if_pos rfl]

theorem get?_put_of_ne (m : SortedMap K V) (k : K) (v : V) {k' : K} (h : k' ≠ k) :
    (m.put k v).get? k' = m.get? k' := by
  rw [get?_put, if_neg h]

theorem get?_eq_some {m : SortedMap K V} {k : K} {v : V} :
    m.get? k = some v ↔ (k, v) ∈ m.entries := lookupEntry_eq_some m.sorted

/- Two maps with the same lookups are the same map. -/
theorem ext_get? {m n : SortedMap K V} (h : ∀ k, m.get? k = n.get? k) : m = n := by
  have hmem : ∀ e : K × V, e ∈ m.entries ↔ e ∈ n.entries := fun ⟨k, v⟩ => by
    rw [← get?_eq_some, ← get?_eq_some, h]
  have hnd : ∀ l : List (K × V), l.Pairwise (fun a b => a.1 < b.1) → l.Nodup := fun l hl =>
    hl.imp fun {a b} hab (he : a = b) => hab.ne (congrArg Prod.fst he)
  have hp : m.entries.Perm n.entries :=
    (List.perm_ext_iff_of_nodup (hnd _ m.sorted) (hnd _ n.sorted)).mpr hmem
  exact SortedMap.ext (hp.eq_of_pairwise (fun a b _ _ hab hba => absurd (hab.trans hba) (lt_irrefl _))
    m.sorted n.sorted)

/-! ### Keys -/

def keys (m : SortedMap K V) : List K := m.entries.map Prod.fst

theorem sorted_keys (m : SortedMap K V) : m.keys.Pairwise fun a b => a < b :=
  List.pairwise_map.mpr m.sorted

theorem nodup_keys (m : SortedMap K V) : m.keys.Nodup := m.sorted_keys.imp fun h => h.ne

theorem mem_keys {m : SortedMap K V} {k : K} : k ∈ m.keys ↔ (m.get? k).isSome := by
  rw [keys, List.mem_map, Option.isSome_iff_exists]
  constructor
  · rintro ⟨e, he, rfl⟩
    exact ⟨e.2, get?_eq_some.mpr he⟩
  · rintro ⟨v, hv⟩
    exact ⟨(k, v), get?_eq_some.mp hv, rfl⟩

/- Maps that are defined at the same keys list the same keys. -/
theorem keys_congr {m : SortedMap K V} {n : SortedMap K W}
    (h : ∀ k, (m.get? k).isSome ↔ (n.get? k).isSome) : m.keys = n.keys := by
  have hp : m.keys.Perm n.keys := (List.perm_ext_iff_of_nodup m.nodup_keys n.nodup_keys).mpr
    fun k => by rw [mem_keys, mem_keys, h]
  exact hp.eq_of_pairwise (fun a b _ _ hab hba => absurd (hab.trans hba) (lt_irrefl _))
    m.sorted_keys n.sorted_keys

/-! ### Insertion in order -/

theorem entries_put_of_lt (m : SortedMap K V) (k : K) (v : V) (h : ∀ e ∈ m.entries, e.1 < k) :
    (m.put k v).entries = m.entries ++ [(k, v)] := by
  show putEntry k v m.entries = m.entries ++ [(k, v)]
  generalize m.entries = es at h
  induction es with
  | nil => rfl
  | cons hd tl ih =>
    obtain ⟨a, w⟩ := hd
    have ha : a < k := h (a, w) List.mem_cons_self
    rw [putEntry, if_neg ha.asymm, if_neg ha.ne', ih fun e he => h e (List.mem_cons_of_mem _ he)]
    rfl

/- Putting new entries in ascending order, all above the old ones, appends them:
a copy made key by key in the order of a scan. -/
theorem entries_foldl_put (es : List (K × V)) (m : SortedMap K V)
    (h : (m.entries ++ es).Pairwise fun a b => a.1 < b.1) :
    (es.foldl (fun m e => m.put e.1 e.2) m).entries = m.entries ++ es := by
  induction es generalizing m with
  | nil => simp
  | cons e es ih =>
    have hlt : ∀ x ∈ m.entries, x.1 < e.1 := fun x hx =>
      (List.pairwise_append.mp h).2.2 x hx e List.mem_cons_self
    have he : (m.put e.1 e.2).entries = m.entries ++ [e] := entries_put_of_lt m e.1 e.2 hlt
    rw [List.foldl_cons, ih _ (by rw [he, List.append_assoc]; exact h), he, List.append_assoc]
    rfl

theorem get?_filter (m : SortedMap K V) (p : K × V → Bool) (k : K) :
    (m.filter p).get? k = (m.get? k).filter fun v => p (k, v) := by
  apply Option.ext
  intro v
  rw [get?_eq_some, Option.filter_eq_some_iff, get?_eq_some]
  exact List.mem_filter

/-! ### Scans -/

/- The entries whose keys lie in `[lo, hi)`. -/
def window (m : SortedMap K V) (lo hi : K) : SortedMap K V :=
  m.filter fun e => lo ≤ e.1 ∧ e.1 < hi

theorem mem_window {m : SortedMap K V} {lo hi : K} {e : K × V} :
    e ∈ (m.window lo hi).entries ↔ e ∈ m.entries ∧ lo ≤ e.1 ∧ e.1 < hi := by
  rw [window, filter, List.mem_filter, decide_eq_true_iff]

/- A cursor that starts at the first key from `lo` on and stops before `hi`. -/
theorem scan_eq_window (m : SortedMap K V) (lo hi : K) :
    (m.entries.dropWhile fun e => e.1 < lo).takeWhile (fun e => e.1 < hi) =
      (m.window lo hi).entries := by
  show _ = m.entries.filter fun e => lo ≤ e.1 ∧ e.1 < hi
  have hs := m.sorted
  generalize m.entries = es at hs
  induction es with
  | nil => rfl
  | cons e es ih =>
    obtain ⟨hhd, htl⟩ := List.pairwise_cons.mp hs
    by_cases hlo : e.1 < lo
    · rw [List.dropWhile_cons_of_pos (p := fun e : K × V => e.1 < lo) (decide_eq_true hlo), ih htl,
        List.filter_cons_of_neg]
      simp [not_le.mpr hlo]
    · have hes : es.dropWhile (fun e => e.1 < lo) = es := by
        cases es with
        | nil => rfl
        | cons f es =>
          have hf := (not_lt.mp hlo).trans (le_of_lt (hhd f List.mem_cons_self))
          exact List.dropWhile_cons_of_neg (by simpa using hf)
      have ih := ih htl
      rw [hes] at ih
      rw [List.dropWhile_cons_of_neg (by simpa using hlo)]
      by_cases hhi : e.1 < hi
      · rw [List.takeWhile_cons_of_pos (p := fun e : K × V => e.1 < hi) (decide_eq_true hhi), ih,
          List.filter_cons_of_pos]
        simpa using ⟨not_lt.mp hlo, hhi⟩
      · rw [List.takeWhile_cons_of_neg (by simpa using hhi)]
        refine (List.filter_eq_nil_iff.mpr fun f hf => ?_).symm
        have hle : hi ≤ f.1 := by
          rcases List.mem_cons.mp hf with rfl | hf
          · exact not_lt.mp hhi
          · exact (not_lt.mp hhi).trans (le_of_lt (hhd f hf))
        simp [hle]

theorem window_put (m : SortedMap K V) (lo hi k : K) (v : V) :
    (m.put k v).window lo hi =
      if lo ≤ k ∧ k < hi then (m.window lo hi).put k v else m.window lo hi := by
  apply ext_get?
  intro k'
  by_cases hk : k' = k
  · subst hk
    split_ifs with hw
    · rw [window, get?_filter, get?_put_self, get?_put_self]
      simp [hw]
    · rw [window, window, get?_filter, get?_filter, get?_put_self]
      cases m.get? k' <;> simp [hw]
  · split_ifs with hw
    · rw [get?_put_of_ne _ _ _ hk, window, window, get?_filter, get?_filter, get?_put_of_ne _ _ _ hk]
    · rw [window, window, get?_filter, get?_filter, get?_put_of_ne _ _ _ hk]

/- What is left when such a cursor erases every entry it visits. -/
def eraseScan (m : SortedMap K V) (lo hi : K) : SortedMap K V where
  entries := (m.entries.takeWhile fun e => e.1 < lo) ++
    (m.entries.dropWhile fun e => e.1 < lo).dropWhile fun e => e.1 < hi
  sorted := by
    refine m.sorted.sublist ?_
    conv_rhs => rw [← List.takeWhile_append_dropWhile (p := fun e : K × V => e.1 < lo) (l := m.entries)]
    exact (List.Sublist.refl _).append (List.dropWhile_sublist _)

theorem mem_eraseScan {m : SortedMap K V} {lo hi : K} {e : K × V} :
    e ∈ (m.eraseScan lo hi).entries ↔ e ∈ m.entries ∧ ¬ (lo ≤ e.1 ∧ e.1 < hi) := by
  have hsplit : m.entries = (m.entries.takeWhile fun e => e.1 < lo) ++
      ((m.window lo hi).entries ++
        (m.entries.dropWhile fun e => e.1 < lo).dropWhile fun e => e.1 < hi) := by
    rw [← scan_eq_window, List.takeWhile_append_dropWhile, List.takeWhile_append_dropWhile]
  have hnodup : m.entries.Nodup := m.sorted.imp fun h he => absurd h (by rw [he]; exact lt_irrefl _)
  rw [hsplit] at hnodup
  obtain ⟨_, hrest, hbefore⟩ := List.nodup_append.mp hnodup
  obtain ⟨_, _, hafter⟩ := List.nodup_append.mp hrest
  unfold eraseScan
  rw [List.mem_append]
  constructor
  · rintro (h | h)
    · have hm : e ∈ m.entries := by
        rw [hsplit]
        exact List.mem_append_left _ h
      refine ⟨hm, fun hin => ?_⟩
      exact hbefore e h e (List.mem_append_left _ (mem_window.mpr ⟨hm, hin⟩)) rfl
    · have hm : e ∈ m.entries := by
        rw [hsplit]
        exact List.mem_append_right _ (List.mem_append_right _ h)
      exact ⟨hm, fun hin => hafter e (mem_window.mpr ⟨hm, hin⟩) e h rfl⟩
  · rintro ⟨hm, hout⟩
    rw [hsplit, List.mem_append, List.mem_append] at hm
    rcases hm with h | h | h
    · exact Or.inl h
    · exact absurd (mem_window.mp h).2 hout
    · exact Or.inr h

/-! ### The last entry up to a key -/

def lastUpTo (m : SortedMap K V) (k : K) : Option (K × V) :=
  (m.entries.filter fun e => e.1 ≤ k).getLast?

theorem entries_put_of_le (m : SortedMap K V) (k : K) (v : V) (h : ∀ e ∈ m.entries, e.1 ≤ k) :
    (m.put k v).entries = (m.entries.filter fun e => e.1 < k) ++ [(k, v)] := by
  show putEntry k v m.entries = (m.entries.filter fun e => e.1 < k) ++ [(k, v)]
  have hs := m.sorted
  generalize m.entries = es at h hs
  induction es with
  | nil => rfl
  | cons hd tl ih =>
    obtain ⟨a, w⟩ := hd
    obtain ⟨hhd, htl⟩ := List.pairwise_cons.mp hs
    have hle : a ≤ k := h (a, w) List.mem_cons_self
    rcases hle.lt_or_eq with hlt | rfl
    · rw [putEntry, if_neg hlt.asymm, if_neg hlt.ne',
        ih (fun e he => h e (List.mem_cons_of_mem _ he)) htl, List.filter_cons_of_pos (by simpa using hlt)]
      rfl
    · cases tl with
      | nil => simp [putEntry]
      | cons x tl =>
        exact absurd (hhd x List.mem_cons_self)
          (not_lt.mpr (h x (List.mem_cons_of_mem _ List.mem_cons_self)))

theorem mem_foldl_put {es : List (K × V)} {m : SortedMap K V} {x : K × V}
    (h : x ∈ (es.foldl (fun m e => m.put e.1 e.2) m).entries) : x ∈ m.entries ∨ x ∈ es := by
  induction es generalizing m with
  | nil => exact Or.inl h
  | cons e es ih =>
    rcases ih h with h | h
    · rcases mem_putEntry h with rfl | h
      · exact Or.inr List.mem_cons_self
      · exact Or.inl h
    · exact Or.inr (List.mem_cons_of_mem e h)

/- Entries put in the order of their keys: up to any key, the last one put is the
last one there. -/
theorem lastUpTo_foldl_put (es : List (K × V)) (hs : es.Pairwise fun a b => a.1 ≤ b.1) (k : K) :
    (es.foldl (fun m e => m.put e.1 e.2) empty).lastUpTo k =
      (es.filter fun e => e.1 ≤ k).getLast? := by
  induction es using List.reverseRecOn with
  | nil => rfl
  | append_singleton es e ih =>
    obtain ⟨hes, -, hlast⟩ := List.pairwise_append.mp hs
    have hle : ∀ x ∈ (es.foldl (fun m e => m.put e.1 e.2) empty).entries, x.1 ≤ e.1 := by
      intro x hx
      rcases mem_foldl_put hx with hx | hx
      · cases hx
      · exact hlast x hx e (List.mem_singleton_self e)
    unfold lastUpTo at ih ⊢
    rw [List.foldl_append, List.foldl_cons, List.foldl_nil, entries_put_of_le _ e.1 e.2 hle,
      List.filter_append, List.filter_append]
    by_cases hk : e.1 ≤ k
    · rw [List.filter_cons_of_pos (by simpa using hk)]
      simp only [List.filter_nil, List.getLast?_append, List.getLast?_singleton, Option.some_or]
    · rw [List.filter_cons_of_neg (by simpa using hk), List.filter_nil, List.append_nil,
        List.append_nil, ← ih hes, List.filter_filter]
      congr 1
      refine List.filter_congr fun x _ => ?_
      have himp : x.1 ≤ k → x.1 < e.1 := fun hx => hx.trans_lt (not_le.mp hk)
      by_cases hx : x.1 ≤ k
      · simp [hx, himp hx]
      · simp [hx]

/- A cut that holds the key has the same last entry, if it holds that. -/
theorem lastUpTo_window (m : SortedMap K V) {lo hi k : K} (hk : k < hi) :
    (m.window lo hi).lastUpTo k = (m.lastUpTo k).filter fun e => lo ≤ e.1 := by
  have hcut : ((m.window lo hi).entries.filter fun e => e.1 ≤ k) =
      (m.entries.filter fun e => e.1 ≤ k).filter fun e => lo ≤ e.1 := by
    unfold window filter
    dsimp only
    rw [List.filter_filter, List.filter_filter]
    refine List.filter_congr fun x _ => ?_
    by_cases hx : x.1 ≤ k
    · simp [hx, hx.trans_lt hk]
    · simp [hx]
  have hs : (m.entries.filter fun e => e.1 ≤ k).Pairwise fun a b => a.1 < b.1 :=
    m.sorted.sublist List.filter_sublist
  unfold lastUpTo
  rw [hcut]
  generalize (m.entries.filter fun e => e.1 ≤ k) = es at hs
  induction es using List.reverseRecOn with
  | nil => rfl
  | append_singleton es e _ =>
    obtain ⟨-, -, hlast⟩ := List.pairwise_append.mp hs
    rw [List.filter_append]
    by_cases hlo : lo ≤ e.1
    · rw [List.filter_cons_of_pos (by simpa using hlo), List.filter_nil, List.getLast?_concat,
        List.getLast?_concat, Option.filter_some, if_pos (by simpa using hlo)]
    · have hnil : es.filter (fun e => lo ≤ e.1) = [] := by
        refine List.filter_eq_nil_iff.mpr fun x hx => ?_
        have hlt := hlast x hx e (List.mem_singleton_self e)
        simpa using hlt.trans (not_le.mp hlo)
      rw [hnil, List.filter_cons_of_neg (by simpa using hlo), List.filter_nil, List.append_nil,
        List.getLast?_nil, List.getLast?_concat, Option.filter_some, if_neg (by simpa using hlo)]

/-! ### Loops that fill a map -/

/-- `m[k].push_back(v)`: a key that is not there starts with an empty list. -/
def pushBack (m : SortedMap K (List V)) (k : K) (v : V) : SortedMap K (List V) :=
  m.put k ((m.get? k).getD [] ++ [v])

/- Grouping: after the loop a key holds the values sent to it, in their order. -/
theorem get?_foldl_pushBack {A : Type*} (f : A → K) (g : A → V) (as : List A)
    (m : SortedMap K (List V)) (k : K) :
    (as.foldl (fun m a => m.pushBack (f a) (g a)) m).get? k =
      if (as.filter fun a => f a = k) = [] then m.get? k
      else some ((m.get? k).getD [] ++ (as.filter fun a => f a = k).map g) := by
  induction as generalizing m with
  | nil => rfl
  | cons a as ih =>
    rw [List.foldl_cons, ih]
    by_cases h : f a = k
    · subst h
      simp only [pushBack, get?_put_self, List.filter_cons_of_pos (p := fun b => decide (f b = f a))
        (decide_eq_true rfl), List.map_cons, Option.getD_some, reduceCtorEq, if_false]
      split_ifs with hf
      · rw [hf, List.map_nil]
      · rw [List.append_assoc, List.singleton_append]
    · have hp : (m.pushBack (f a) (g a)).get? k = m.get? k := get?_put_of_ne _ _ _ (Ne.symm h)
      have hf : ((a :: as).filter fun b => f b = k) = as.filter fun b => f b = k :=
        List.filter_cons_of_neg (by simpa using h)
      rw [hp, hf]

/- A loop over distinct keys whose value may be undefined: what it leaves at each key. -/
theorem get?_foldlM_put (g : V → Option W) (es : List (K × V))
    (hs : es.Pairwise fun a b => a.1 < b.1) (m m' : SortedMap K W)
    (h : es.foldlM (fun m e => (g e.2).map (m.put e.1)) m = some m') (k : K) :
    m'.get? k = match lookupEntry k es with
      | some v => g v
      | none => m.get? k := by
  induction es generalizing m with
  | nil =>
    obtain rfl := Option.some.inj h
    rfl
  | cons e es ih =>
    obtain ⟨hhd, htl⟩ := List.pairwise_cons.mp hs
    rw [List.foldlM_cons] at h
    obtain ⟨m1, h1, h2⟩ := Option.bind_eq_some_iff.mp h
    obtain ⟨w, hw, rfl⟩ := Option.map_eq_some_iff.mp h1
    rw [ih htl (m.put e.1 w) h2]
    obtain ⟨a, v⟩ := e
    rw [lookupEntry]
    by_cases hk : k = a
    · subst hk
      rw [lookupEntry_of_lt hhd, if_pos rfl]
      exact (get?_put_self m k w).trans hw.symm
    · rw [if_neg hk, get?_put_of_ne m a w hk]

theorem foldlM_put_isSome_iff (g : V → Option W) (es : List (K × V)) (m : SortedMap K W) :
    (es.foldlM (fun m e => (g e.2).map (m.put e.1)) m).isSome ↔ ∀ e ∈ es, (g e.2).isSome := by
  induction es generalizing m with
  | nil => simp
  | cons e es ih =>
    rw [List.foldlM_cons, List.forall_mem_cons]
    cases hw : g e.2 with
    | none => simp
    | some w => exact (ih (m.put e.1 w)).trans (by simp)

end SortedMap
