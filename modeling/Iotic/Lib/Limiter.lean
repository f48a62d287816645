import Mathlib.Data.Int.Notation
import Mathlib.Data.List.Basic
import Mathlib.Order.Basic

/-!
# A limit that recovers slowly

A limit between 0 and `n` may be lowered by one at any time and raised by one
only when `d` has passed since it was last changed. Whoever lowers it is thereby
promised `d` during which it stays down.
-/

namespace Limiter

/- The limit, and when it was last changed. -/
structure State where
  limit : ℤ
  changed : ℤ

inductive Change (d n now : ℤ) : State → State → Prop
  | same (s : State) : Change d n now s s
  | lower (s : State) : 0 < s.limit → Change d n now s ⟨s.limit - 1, now⟩
  | raise (s : State) : s.limit < n → d ≤ now - s.changed → Change d n now s ⟨s.limit + 1, now⟩

/- The limit before and after an event. -/
structure Entry where
  now : ℤ
  before : ℤ
  after : ℤ
  deriving DecidableEq, Repr

namespace Entry

/- In bounds, and at most one step apart. -/
def Gradual (n : ℤ) (e : Entry) : Prop :=
  (0 ≤ e.before ∧ e.before ≤ n) ∧ (0 ≤ e.after ∧ e.after ≤ n) ∧
    e.after ≤ e.before + 1 ∧ e.before ≤ e.after + 1

/- A raise keeps its distance from every change before it, and what lowered the
limit keeps it down for as long. -/
def Spaced (d : ℤ) (later earlier : Entry) : Prop :=
  (earlier.after ≠ earlier.before → later.before < later.after → d ≤ later.now - earlier.now) ∧
  (earlier.after < earlier.before → later.now - earlier.now < d → later.after ≤ earlier.after)

end Entry

/- What a state knows of the entries that led to it, latest first. -/
structure Tracks (d n : ℤ) (s : State) (log : List Entry) : Prop where
  limit : 0 ≤ s.limit ∧ s.limit ≤ n
  sorted : log.Pairwise fun later earlier => earlier.now ≤ later.now
  gradual : ∀ e ∈ log, e.Gradual n
  changed : ∀ e ∈ log, e.after ≠ e.before → e.now ≤ s.changed
  locked : ∀ e ∈ log, e.after < e.before → s.limit ≤ e.after ∨ ∃ a ∈ log, e.now + d ≤ a.now
  spaced : log.Pairwise (Entry.Spaced d)

variable {d n now : ℤ} {s t : State} {log : List Entry}

theorem tracks_nil (h : 0 ≤ s.limit ∧ s.limit ≤ n) : Tracks d n s [] where
  limit := h
  sorted := List.Pairwise.nil
  gradual := by simp
  changed := by simp
  locked := by simp
  spaced := List.Pairwise.nil

theorem Change.gradual (h : Change d n now s t) (hs : 0 ≤ s.limit ∧ s.limit ≤ n) :
    (⟨now, s.limit, t.limit⟩ : Entry).Gradual n := by
  cases h <;> simp only [Entry.Gradual] <;> omega

theorem Change.changed (h : Change d n now s t) : t = s ∨ t.changed = now := by
  cases h with
  | same => exact Or.inl rfl
  | lower => exact Or.inr rfl
  | raise => exact Or.inr rfl

theorem Change.raised (h : Change d n now s t) (hr : s.limit < t.limit) : d ≤ now - s.changed := by
  cases h with
  | same => omega
  | lower => dsimp only at hr; omega
  | raise _ hd => exact hd

/- An entry at the time of the change or after all the others. -/
theorem Tracks.change (h : Tracks d n s log) (hc : Change d n now s t)
    (hnow : ∀ e ∈ log, e.now ≤ now) : Tracks d n t (⟨now, s.limit, t.limit⟩ :: log) := by
  have hgradual := hc.gradual h.limit
  have hchanged : ∀ e ∈ log, e.after ≠ e.before → e.now ≤ t.changed := by
    intro e he hne
    rcases hc.changed with ht | ht
    · rw [ht]
      exact h.changed e he hne
    · rw [ht]
      exact hnow e he
  -- below a lowered limit the state stays until `d` has passed, whatever changes
  have hlocked : ∀ e ∈ log, e.after < e.before → t.limit ≤ e.after ∨ e.now + d ≤ now := by
    intro e he hlower
    rcases h.locked e he hlower with hle | ⟨a, ha, hd⟩
    · by_cases hr : s.limit < t.limit
      · have hdist := hc.raised hr
        have hlast := h.changed e he (by omega)
        exact Or.inr (by omega)
      · exact Or.inl (by omega)
    · have hlast := hnow a ha
      exact Or.inr (by omega)
  have hself : t.limit ≠ s.limit → now ≤ t.changed := by
    intro hne
    rcases hc.changed with ht | ht
    · exact absurd (congrArg State.limit ht) hne
    · omega
  refine ⟨hgradual.2.1, List.pairwise_cons.mpr ⟨hnow, h.sorted⟩, ?_, ?_, ?_,
    List.pairwise_cons.mpr ⟨?_, h.spaced⟩⟩
  · exact List.forall_mem_cons.mpr ⟨hgradual, h.gradual⟩
  · exact List.forall_mem_cons.mpr ⟨hself, hchanged⟩
  · intro e he hlower
    rcases List.mem_cons.mp he with rfl | he
    · exact Or.inl (Int.le_refl _)
    · apply (hlocked e he hlower).imp_right
      intro hd
      exact ⟨_, List.mem_cons_self, hd⟩
  · intro e he
    constructor
    · intro hne hr
      have hdist := hc.raised hr
      have hlast := h.changed e he hne
      dsimp only
      omega
    · intro hlower hd
      rcases hlocked e he hlower with hle | hpast
      · exact hle
      · dsimp only at hd
        omega

end Limiter
