import Mathlib.Order.Lattice
import Mathlib.Data.List.Basic
import Mathlib.Tactic.Common

/-!
# Ordered maps with repeated keys

The entries are held in the order of their keys. A new entry goes behind the ones
with its key, so that the values of a key stay in the order they were put in.
-/

/-- Finite multimap, entries in ascending key order. -/
@[ext] structure Multimap (K V : Type*) [LinearOrder K] where
  entries : List (K × V)
  ordered : entries.Pairwise fun a b => a.1 ≤ b.1

namespace Multimap
variable {K V : Type*} [LinearOrder K]

def empty : Multimap K V := ⟨[], List.Pairwise.nil⟩

/-- Insert at the upper bound of the key. -/
def emplaceEntry (k : K) (v : V) : List (K × V) → List (K × V)
  | [] => [(k, v)]
  | (k', v') :: es => if k < k' then (k, v) :: (k', v') :: es else (k', v') :: emplaceEntry k v es

theorem mem_emplaceEntry {k : K} {v : V} {es : List (K × V)} {e : K × V} :
    e ∈ emplaceEntry k v es ↔ e = (k, v) ∨ e ∈ es := by
  induction es with
  | nil => simp [emplaceEntry]
  | cons hd tl ih =>
    unfold emplaceEntry
    split
    · simp only [List.mem_cons]
    · simp only [List.mem_cons, ih]
      tauto

theorem ordered_emplaceEntry (k : K) (v : V) (es : List (K × V))
    (h : es.Pairwise fun a b => a.1 ≤ b.1) :
    (emplaceEntry k v es).Pairwise fun a b => a.1 ≤ b.1 := by
  induction es with
  | nil => simp [emplaceEntry]
  | cons hd tl ih =>
    have htl := List.pairwise_cons.mp h
    unfold emplaceEntry
    split
    · rename_i hlt
      refine List.pairwise_cons.mpr ⟨fun e he => ?_, h⟩
      rcases List.mem_cons.mp he with rfl | he
      · exact le_of_lt hlt
      · exact le_trans (le_of_lt hlt) (htl.1 e he)
    · rename_i hge
      refine List.pairwise_cons.mpr ⟨fun e he => ?_, ih htl.2⟩
      rcases mem_emplaceEntry.mp he with rfl | he
      · exact not_lt.mp hge
      · exact htl.1 e he

def emplace (m : Multimap K V) (k : K) (v : V) : Multimap K V :=
  ⟨emplaceEntry k v m.entries, ordered_emplaceEntry k v m.entries m.ordered⟩

/-! ### The values of a key -/

def valuesOf (k : K) (es : List (K × V)) : List V := (es.filter fun e => e.1 = k).map Prod.snd

def values (m : Multimap K V) (k : K) : List V := valuesOf k m.entries

@[simp] theorem values_empty (k : K) : (empty : Multimap K V).values k = [] := rfl

theorem valuesOf_append (k : K) (es es' : List (K × V)) :
    valuesOf k (es ++ es') = valuesOf k es ++ valuesOf k es' := by
  simp only [valuesOf, List.filter_append, List.map_append]

theorem valuesOf_emplaceEntry (k k' : K) (v : V) (es : List (K × V))
    (h : es.Pairwise fun a b => a.1 ≤ b.1) :
    valuesOf k' (emplaceEntry k v es) = valuesOf k' es ++ valuesOf k' [(k, v)] := by
  induction es with
  | nil => simp [emplaceEntry, valuesOf]
  | cons hd tl ih =>
    have htl := List.pairwise_cons.mp h
    unfold emplaceEntry
    split
    · rename_i hlt
      -- every entry from here on has a greater key
      have hnone : k = k' → valuesOf k' (hd :: tl) = [] := by
        rintro rfl
        simp only [valuesOf, List.map_eq_nil_iff, List.filter_eq_nil_iff, decide_eq_true_iff]
        intro e he
        rcases List.mem_cons.mp he with rfl | he
        · exact ne_of_gt hlt
        · exact ne_of_gt (lt_of_lt_of_le hlt (htl.1 e he))
      have hcons : valuesOf k' ((k, v) :: hd :: tl) = valuesOf k' [(k, v)] ++ valuesOf k' (hd :: tl) :=
        valuesOf_append k' [(k, v)] (hd :: tl)
      rw [hcons]
      by_cases hk : k = k'
      · rw [hnone hk, List.append_nil, List.nil_append]
      · have hempty : valuesOf k' [(k, v)] = [] := by simp [valuesOf, hk]
        rw [hempty, List.append_nil, List.nil_append]
    · have hsplit := valuesOf_append k' [hd] (emplaceEntry k v tl)
      rw [ih htl.2, ← List.append_assoc, ← valuesOf_append] at hsplit
      exact hsplit

theorem values_emplace (m : Multimap K V) (k k' : K) (v : V) :
    (m.emplace k v).values k' = m.values k' ++ valuesOf k' [(k, v)] :=
  valuesOf_emplaceEntry k k' v m.entries m.ordered

/- What was put in one after another is found again, key by key, in that order. -/
theorem values_foldl_emplace (es : List (K × V)) (m : Multimap K V) (k : K) :
    (es.foldl (fun m e => m.emplace e.1 e.2) m).values k = m.values k ++ valuesOf k es := by
  induction es generalizing m with
  | nil => simp [valuesOf]
  | cons e es ih =>
    rw [List.foldl_cons, ih, values_emplace, List.append_assoc, ← valuesOf_append,
      List.singleton_append]

/-! ### Entries put in in order -/

theorem mem_foldl_emplace {es : List (K × V)} {m : Multimap K V} {e : K × V} :
    e ∈ (es.foldl (fun m e => m.emplace e.1 e.2) m).entries ↔ e ∈ m.entries ∨ e ∈ es := by
  induction es generalizing m with
  | nil => simp
  | cons a es ih =>
    have ha : e ∈ (m.emplace a.1 a.2).entries ↔ e = a ∨ e ∈ m.entries := mem_emplaceEntry
    rw [List.foldl_cons, ih, ha, List.mem_cons]
    tauto

theorem emplaceEntry_of_le {k : K} {v : V} {es : List (K × V)} (h : ∀ e ∈ es, e.1 ≤ k) :
    emplaceEntry k v es = es ++ [(k, v)] := by
  induction es with
  | nil => rfl
  | cons e es ih =>
    rw [List.forall_mem_cons] at h
    rw [emplaceEntry, if_neg (not_lt.mpr h.1), ih h.2, List.cons_append]

theorem entries_foldl_emplace (es : List (K × V)) (m : Multimap K V)
    (h : (m.entries ++ es).Pairwise fun a b => a.1 ≤ b.1) :
    (es.foldl (fun m e => m.emplace e.1 e.2) m).entries = m.entries ++ es := by
  induction es generalizing m with
  | nil => simp
  | cons e es ih =>
    have hle : ∀ a ∈ m.entries, a.1 ≤ e.1 := fun a ha =>
      (List.pairwise_append.mp h).2.2 a ha e List.mem_cons_self
    have hentries : (m.emplace e.1 e.2).entries = m.entries ++ [e] := emplaceEntry_of_le hle
    have hsplit : m.entries ++ e :: es = m.entries ++ [e] ++ es := by simp
    rw [hsplit] at h ⊢
    rw [List.foldl_cons, ih _ (by rwa [hentries]), hentries]

end Multimap
