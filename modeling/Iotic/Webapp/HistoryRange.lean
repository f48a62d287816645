import Iotic.Webapp.WebSocketService

/-!
# The range of a site history request (WebAppRouter::serializeSiteHistory)

The two bounds are looked for one without the other, and the lower one is moved back by
an entry: with both in the wrong order, the range may end before it begins.
-/

namespace Iotic.Webapp
open ByteString Sequences Iotic.Webserver

/-! ### The entries that are asked for -/

/-- From the last entry that is not after `fromTs`, or the first entry, to before `toTs`. -/
def requested (history : List Properties) (fromTs toTs : ℤ) : List Properties :=
  history.filter fun x =>
    (∀ y ∈ history, (y.ts.toNat : ℤ) ≤ fromTs → y.ts ≤ x.ts) ∧ (x.ts.toNat : ℤ) < toTs

/- The timestamps of a document, summed up as the web app does. -/
def timestampsOf (j : Json) : Option (List ℤ) :=
  ((member (enumToString "site") j).bind (member (enumToString "timestamp"))).map sumTimestamps

/-- Only entries are read, the timestamps are those of the entries asked for, and nothing
is sent where there are none. -/
def SendsRequested (lib : JsonLibrary) (history : List Properties) (fromTs toTs : ℤ) : Prop :=
  if requested history fromTs toTs = [] then serializeSiteHistory lib history fromTs toTs = some []
  else ∃ j, serializeSiteHistory lib history fromTs toTs = some (lib.toCbor j) ∧
    timestampsOf j = some ((requested history fromTs toTs).map fun x => (x.ts.toNat : ℤ))

/- The entries that are both not after `fromTs` and not before `toTs`. -/
def overlap (history : List Properties) (fromTs toTs : ℤ) : List Properties :=
  history.filter fun x => toTs ≤ (x.ts.toNat : ℤ) ∧ (x.ts.toNat : ℤ) ≤ fromTs

/-! ### The bounds -/

theorem toNat_ofInt {bound : ℤ} (h : 0 ≤ bound) (h' : bound < 2 ^ 31) :
    ((UInt32.ofInt bound).toNat : ℤ) = bound := by
  have hn : (UInt32.ofInt bound).toNat = (bound % 2 ^ 32).toNat % 2 ^ 32 := UInt32.toNat_ofNat'
  rw [hn]
  omega

section Bounds
variable {history : List Properties} {fromTs toTs : ℤ}

/- The number of entries that are not after `fromTs`. -/
def notAfter (history : List Properties) (fromTs : ℤ) : ℕ :=
  (history.takeWhile fun data => data.ts ≤ UInt32.ofInt fromTs).length

theorem itl_eq (history : List Properties) (fromTs : ℤ) :
    itl history fromTs = notAfter history fromTs - 1 := by
  rw [itl, ← notAfter]
  split_ifs with h
  · rfl
  · omega

theorem lt_notAfter_iff (hsorted : history.Pairwise fun a b => a.ts < b.ts) (hf : 0 ≤ fromTs)
    (hf' : fromTs < 2 ^ 31) {i : ℕ} (hi : i < history.length) :
    i < notAfter history fromTs ↔ (history[i].ts.toNat : ℤ) ≤ fromTs := by
  have hdown : history.Pairwise fun a b =>
      decide (b.ts ≤ UInt32.ofInt fromTs) = true → decide (a.ts ≤ UInt32.ofInt fromTs) = true := by
    refine hsorted.imp fun hab hb => ?_
    exact decide_eq_true (UInt32.le_trans (UInt32.le_of_lt hab) (of_decide_eq_true hb))
  have hbound := toNat_ofInt hf hf'
  rw [notAfter, lt_length_takeWhile_iff hdown hi, decide_eq_true_iff, UInt32.le_iff_toNat_le]
  omega

theorem lt_itu_iff (hsorted : history.Pairwise fun a b => a.ts < b.ts) (ht : 0 ≤ toTs)
    (ht' : toTs < 2 ^ 31) {i : ℕ} (hi : i < history.length) :
    i < itu history toTs ↔ (history[i].ts.toNat : ℤ) < toTs := by
  have hdown : history.Pairwise fun a b => decide (¬ UInt32.ofInt toTs ≤ b.ts) = true →
      decide (¬ UInt32.ofInt toTs ≤ a.ts) = true := by
    refine hsorted.imp fun hab hb => ?_
    rw [decide_eq_true_iff] at hb ⊢
    exact fun hle => hb (UInt32.le_trans hle (UInt32.le_of_lt hab))
  have hbound := toNat_ofInt ht ht'
  rw [itu, lt_length_takeWhile_iff hdown hi, decide_eq_true_iff, UInt32.le_iff_toNat_le]
  omega

theorem notAfter_le (history : List Properties) (fromTs : ℤ) :
    notAfter history fromTs ≤ history.length :=
  (List.takeWhile_sublist _).length_le

theorem ts_le_iff (hsorted : history.Pairwise fun a b => a.ts < b.ts) {i j : ℕ}
    (hi : i < history.length) (hj : j < history.length) : history[i].ts ≤ history[j].ts ↔ i ≤ j := by
  refine ⟨?_, ?_⟩
  · intro hle
    by_contra hlt
    have hless := List.pairwise_iff_getElem.mp hsorted j i hj hi (not_le.mp hlt)
    exact UInt32.not_lt.mpr hle hless
  · intro hle
    cases Nat.eq_or_lt_of_le hle with
    | inl heq =>
      subst heq
      exact UInt32.le_refl _
    | inr hlt => exact UInt32.le_of_lt (List.pairwise_iff_getElem.mp hsorted i j hi hj hlt)

/- An entry is at or after the last one not after `fromTs` where its index is. -/
theorem itl_le_iff (hsorted : history.Pairwise fun a b => a.ts < b.ts) (hf : 0 ≤ fromTs)
    (hf' : fromTs < 2 ^ 31) {i : ℕ} (hi : i < history.length) :
    itl history fromTs ≤ i ↔
      ∀ y ∈ history, (y.ts.toNat : ℤ) ≤ fromTs → y.ts ≤ history[i].ts := by
  have hle := notAfter_le history fromTs
  rw [itl_eq]
  refine ⟨?_, ?_⟩
  · intro h y hy hyf
    obtain ⟨j, hj, rfl⟩ := List.getElem_of_mem hy
    have hjn := (lt_notAfter_iff hsorted hf hf' hj).mpr hyf
    exact (ts_le_iff hsorted hj hi).mpr (by omega)
  · intro h
    by_cases hnone : notAfter history fromTs = 0
    · omega
    · have hlast : notAfter history fromTs - 1 < history.length := by omega
      have hlt : notAfter history fromTs - 1 < notAfter history fromTs := by omega
      have hts := h _ (List.getElem_mem hlast) ((lt_notAfter_iff hsorted hf hf' hlast).mp hlt)
      exact (ts_le_iff hsorted hlast hi).mp hts

theorem slice_eq_requested (hsorted : history.Pairwise fun a b => a.ts < b.ts) (hf : 0 ≤ fromTs)
    (hf' : fromTs < 2 ^ 31) (ht : 0 ≤ toTs) (ht' : toTs < 2 ^ 31) :
    slice history fromTs toTs = requested history fromTs toTs := by
  symm
  apply filter_eq_slice
  intro i hi
  rw [itl_le_iff hsorted hf hf' hi, lt_itu_iff hsorted ht ht' hi, decide_eq_true_iff]

/- The range ends before it begins where at least two entries are in both bounds. -/
theorem itl_le_itu_iff (hsorted : history.Pairwise fun a b => a.ts < b.ts) (hf : 0 ≤ fromTs)
    (hf' : fromTs < 2 ^ 31) (ht : 0 ≤ toTs) (ht' : toTs < 2 ^ 31) :
    itl history fromTs ≤ itu history toTs ↔ (overlap history fromTs toTs).length ≤ 1 := by
  have hslice : overlap history fromTs toTs =
      (history.take (notAfter history fromTs)).drop (itu history toTs) := by
    apply filter_eq_slice
    intro i hi
    have hitu := lt_itu_iff hsorted ht ht' hi
    rw [decide_eq_true_iff, ← lt_notAfter_iff hsorted hf hf' hi, ← not_lt, ← hitu, not_lt]
  have hle := notAfter_le history fromTs
  rw [hslice, List.length_drop, List.length_take, itl_eq]
  omega

end Bounds

/-! ### What is sent -/

theorem timestampsOf_document {entries : List Properties}
    (hsorted : entries.Pairwise fun a b => a.ts < b.ts) :
    timestampsOf (document entries) = some (entries.map fun e => (e.ts.toNat : ℤ)) := by
  have hsums := sumTimestamps_differences (List.pairwise_map.mpr hsorted)
  rw [List.map_map] at hsums
  rw [document_eq]
  exact congrArg some hsums

/-- The request is met exactly where the history is not empty and no two of its entries
are both not after `fromTs` and not before `toTs`. -/
theorem sendsRequested_iff (lib : JsonLibrary) (history : List Properties) (fromTs toTs : ℤ)
    (hsorted : history.Pairwise fun a b => a.ts < b.ts) (hf : 0 ≤ fromTs) (hf' : fromTs < 2 ^ 31)
    (ht : 0 ≤ toTs) (ht' : toTs < 2 ^ 31) :
    SendsRequested lib history fromTs toTs ↔
      history ≠ [] ∧ (overlap history fromTs toTs).length ≤ 1 := by
  have hslice := slice_eq_requested hsorted hf hf' ht ht'
  rw [← itl_le_itu_iff hsorted hf hf' ht ht', SendsRequested, ← hslice]
  refine ⟨?_, ?_⟩
  · intro hsends
    by_contra hnot
    have hundefined : serializeSiteHistory lib history fromTs toTs = none := by
      rw [serializeSiteHistory, if_pos]
      by_cases hempty : history = []
      · exact Or.inl hempty
      · exact Or.inr (not_le.mp fun hle => hnot ⟨hempty, hle⟩)
    rw [hundefined] at hsends
    split_ifs at hsends
    obtain ⟨j, hj, -⟩ := hsends
    cases hj
  · intro ⟨hempty, hle⟩
    split_ifs with hnone
    · have hitu : itu history toTs ≤ history.length := (List.takeWhile_sublist _).length_le
      have hlength := congrArg List.length hnone
      rw [slice, List.length_drop, List.length_take, List.length_nil] at hlength
      rw [serializeSiteHistory, if_neg, if_pos (by omega)]
      simp only [hempty, false_or]
      omega
    · refine ⟨_, serializeSiteHistory_slice lib hnone, timestampsOf_document ?_⟩
      exact hsorted.sublist ((List.drop_sublist _ _).trans (List.take_sublist _ _))

theorem sendsRequested_three : SendsRequested .shortest threeEntries 29 46 :=
  (sendsRequested_iff .shortest threeEntries 29 46 (by decide) (by decide) (by decide) (by decide)
    (by decide)).mpr ⟨by decide, by decide⟩

/- A request to an empty history, and one with its bounds in the wrong order. -/
theorem not_sendsRequested : ¬ SendsRequested .shortest [] 0 60 ∧
    ¬ SendsRequested .shortest threeEntries 45 20 := by
  refine ⟨?_, ?_⟩
  · intro h
    rw [SendsRequested, if_pos (by decide)] at h
    cases h
  · intro h
    rw [SendsRequested, if_pos (by decide)] at h
    cases h

end Iotic.Webapp
