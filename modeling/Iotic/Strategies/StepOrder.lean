import Iotic.Lib.Sequences
import Iotic.Strategies.PowerManager
import Iotic.Strategies.StrategyRepository
import Mathlib.Algebra.Order.Group.Int

/-!
# Which strategy is stepped

The repository keeps its strategies by priority, equal ones as they were added;
the power manager goes through them from either end and steps the first that
wants to.
-/

namespace Iotic.Strategies
variable {σ : Type*}

/-! ### The repository over a run -/

inductive RepositoryEvent (σ : Type*)
  | add (strategy : Strategy σ)
  | remove (thingId : Name)

def repositoryStep (strategies : List (Strategy σ)) : RepositoryEvent σ → List (Strategy σ)
  | .add strategy => addStrategy Strategy.priority strategies strategy
  | .remove thingId => eraseStrategies Strategy.thingId strategies thingId

/- A strategy with its number in the order of addition. -/
structure Entry (σ : Type*) where
  number : ℕ
  strategy : Strategy σ

def Entry.priority (e : Entry σ) : ℤ := e.strategy.priority

def Entry.thingId (e : Entry σ) : Name := e.strategy.thingId

/- The same run with the additions counted. -/
structure Ledger (σ : Type*) where
  added : ℕ
  entries : List (Entry σ)

namespace Ledger

def empty : Ledger σ := ⟨0, []⟩

def handle (r : Ledger σ) : RepositoryEvent σ → Ledger σ
  | .add strategy => ⟨r.added + 1, addStrategy Entry.priority r.entries ⟨r.added, strategy⟩⟩
  | .remove thingId => ⟨r.added, eraseStrategies Entry.thingId r.entries thingId⟩

def strategies (r : Ledger σ) : List (Strategy σ) := r.entries.map Entry.strategy

end Ledger

def RepositoryEvent.isAddition : RepositoryEvent σ → Bool
  | .add _ => true
  | .remove _ => false

/- An addition of the run that no later removal of its thing takes away. -/
def Standing (events : List (RepositoryEvent σ)) (e : Entry σ) : Prop :=
  ∃ pre post, events = pre ++ .add e.strategy :: post ∧
    e.number = pre.countP RepositoryEvent.isAddition ∧ ¬ RepositoryEvent.remove e.thingId ∈ post

/-! ### The strategies that want to be stepped -/

/- The entries that answer yes, asked one after another whether or not one is
stepped; each answer is given in the state the answers before it leave. -/
def wanting (wants : Strategy σ → SiteProperties → σ → Bool × σ) (p : SiteProperties) :
    List (Entry σ) → σ → List (Entry σ)
  | [], _ => []
  | e :: rest, world =>
    let answer := wants e.strategy p world
    if answer.1 then e :: wanting wants p rest answer.2 else wanting wants p rest answer.2

namespace Ledger

/- Asked from the back of the list. -/
def wantingDown (symbols : SymbolRepository σ) (p : SiteProperties) (m : PowerManager σ)
    (r : Ledger σ) : List (Entry σ) :=
  wanting Strategy.wantsToStepDown p r.entries.reverse (publishSymbols symbols p m.world)

/- Asked from the front, in the state the first loop leaves. -/
def wantingUp (symbols : SymbolRepository σ) (p : SiteProperties) (m : PowerManager σ)
    (r : Ledger σ) : List (Entry σ) :=
  wanting Strategy.wantsToStepUp p r.entries
    (stepDownPass p r.strategies ⟨m.lastStepTs, publishSymbols symbols p m.world⟩).manager.world

end Ledger

/- Where no answer changes another, it does not matter when they are asked. -/
theorem wanting_eq_filter {wants : Strategy σ → SiteProperties → σ → Bool × σ} {p : SiteProperties}
    (h : ∀ s t world, (wants s p (wants t p world).2).1 = (wants s p world).1)
    (entries : List (Entry σ)) (world : σ) :
    wanting wants p entries world = entries.filter fun e => (wants e.strategy p world).1 := by
  induction entries generalizing world with
  | nil => rfl
  | cons e rest ih =>
    simp only [wanting, ih, h, List.filter_cons]

theorem wanting_sublist (wants : Strategy σ → SiteProperties → σ → Bool × σ) (p : SiteProperties)
    (entries : List (Entry σ)) (world : σ) : (wanting wants p entries world).Sublist entries := by
  induction entries generalizing world with
  | nil => exact List.Sublist.refl _
  | cons e rest ih =>
    unfold wanting
    dsimp only
    split_ifs
    · exact (ih _).cons_cons e
    · exact (ih _).cons e

/- A step loop steps nothing, or the first that wants to. -/
theorem stepPass_wanting (wants : Strategy σ → SiteProperties → σ → Bool × σ) (debounce : ℤ)
    (step : Step) (p : SiteProperties) (entries : List (Entry σ)) (m : PowerManager σ) :
    let r := stepPass wants debounce step p (entries.map Entry.strategy) m
    r.calls = [] ∨ ∃ e rest, wanting wants p entries m.world = e :: rest ∧
      r.calls = [(e.strategy, step)] := by
  induction entries generalizing m with
  | nil => exact Or.inl rfl
  | cons e entries ih =>
    simp only [List.map_cons, stepPass, wanting]
    by_cases ha : (wants e.strategy p m.world).1 = true
    · by_cases hd : Due debounce p m.lastStepTs
      · rw [if_pos ⟨ha, hd⟩, if_pos ha]
        exact Or.inr ⟨e, _, rfl, rfl⟩
      · -- the debounce holds up the others as well
        rw [if_neg fun h => hd h.2]
        rcases stepPass_cases wants debounce step p (entries.map Entry.strategy)
          ⟨m.lastStepTs, (wants e.strategy p m.world).2⟩ with ⟨hc, _⟩ | ⟨_, _, _, _, _, _, hts, _⟩
        · exact Or.inl hc
        · exact absurd hts hd
    · rw [if_neg fun h => ha h.1, if_neg ha]
      exact ih ⟨m.lastStepTs, (wants e.strategy p m.world).2⟩

/-! ### The order of the repository -/

/- Higher priorities first, and each priority in the order of addition. -/
structure Ledger.Ordered (r : Ledger σ) : Prop where
  numbers : ∀ e ∈ r.entries, e.number < r.added
  priorities : r.entries.Pairwise fun a b => b.priority ≤ a.priority
  additions : ∀ priority, (r.entries.filter fun e => e.priority = priority).Pairwise
    fun a b => a.number < b.number

theorem Ledger.empty_ordered : (Ledger.empty : Ledger σ).Ordered where
  numbers := fun _ he => (nomatch he)
  priorities := List.Pairwise.nil
  additions := fun _ => List.Pairwise.nil

/- The comparison of the sort, on the priorities. -/
theorem sortsBefore_iff {S : Type*} (priority : S → ℤ) (a b : S) :
    (! decide (priority b > priority a)) = true ↔ priority b ≤ priority a := by
  simp only [gt_iff_lt, Bool.not_eq_true', decide_eq_false_iff_not, not_lt]

theorem sortsBefore_trans {S : Type*} (priority : S → ℤ) (a b d : S)
    (hab : (! decide (priority b > priority a)) = true)
    (hbd : (! decide (priority d > priority b)) = true) :
    (! decide (priority d > priority a)) = true := by
  rw [sortsBefore_iff] at hab hbd ⊢
  exact hbd.trans hab

theorem sortsBefore_total {S : Type*} (priority : S → ℤ) (a b : S) :
    ((! decide (priority b > priority a)) || ! decide (priority a > priority b)) = true := by
  rw [Bool.or_eq_true, sortsBefore_iff, sortsBefore_iff]
  exact le_total _ _

theorem addStrategy_pairwise {S : Type*} (priority : S → ℤ) (strategies : List S) (strategy : S) :
    (addStrategy priority strategies strategy).Pairwise fun a b => priority b ≤ priority a := by
  have h := List.pairwise_mergeSort (sortsBefore_trans priority) (sortsBefore_total priority)
    (strategies ++ [strategy])
  exact h.imp fun hab => (sortsBefore_iff priority _ _).mp hab

theorem filter_addStrategy {S : Type*} (priority : S → ℤ) (strategies : List S) (strategy : S)
    (n : ℤ) : (addStrategy priority strategies strategy).filter (fun s => priority s = n) =
      (strategies ++ [strategy]).filter fun s => priority s = n := by
  refine Sequences.filter_mergeSort (sortsBefore_trans priority) (sortsBefore_total priority) ?_ _
  intro a b ha hb
  rw [decide_eq_true_eq] at ha hb
  rw [sortsBefore_iff, ha, hb]

theorem Ledger.handle_ordered (r : Ledger σ) (e : RepositoryEvent σ) (h : r.Ordered) :
    (r.handle e).Ordered := by
  cases e with
  | add strategy =>
    refine ⟨fun e he => ?_, addStrategy_pairwise _ _ _, fun priority => ?_⟩
    · rcases mem_addStrategy.mp he with he | rfl
      · exact Nat.lt_succ_of_lt (h.numbers e he)
      · exact Nat.lt_succ_self r.added
    · simp only [handle, filter_addStrategy, List.filter_append]
      refine List.pairwise_append.mpr ⟨h.additions priority, ?_, fun a ha b hb => ?_⟩
      · exact (List.pairwise_singleton _ _).sublist List.filter_sublist
      · rw [List.mem_singleton.mp (List.mem_filter.mp hb).1]
        exact h.numbers a (List.mem_filter.mp ha).1
  | remove thingId =>
    refine ⟨fun e he => ?_, ?_, fun priority => ?_⟩
    · exact h.numbers e (mem_eraseStrategies.mp he).1
    · exact h.priorities.sublist List.filter_sublist
    · exact (h.additions priority).sublist (List.filter_sublist.filter _)

/- The entries are the strategies of the repository. -/
theorem Ledger.strategies_handle (r : Ledger σ) (e : RepositoryEvent σ) :
    (r.handle e).strategies = repositoryStep r.strategies e := by
  cases e with
  | add strategy =>
    simp only [strategies, handle, repositoryStep, addStrategy]
    rw [List.map_mergeSort, List.map_append]
    · rfl
    · exact fun a _ b _ => rfl
  | remove thingId =>
    simp only [strategies, handle, repositoryStep, eraseStrategies]
    rw [List.filter_map]
    rfl

theorem Ledger.strategies_foldl (events : List (RepositoryEvent σ)) (r : Ledger σ) :
    (events.foldl handle r).strategies = events.foldl repositoryStep r.strategies := by
  induction events generalizing r with
  | nil => rfl
  | cons e events ih => rw [List.foldl_cons, List.foldl_cons, ih, strategies_handle]

/- What an addition adds to the standing ones, and a removal leaves of them. -/
theorem standing_snoc_add {events : List (RepositoryEvent σ)} {strategy : Strategy σ} {e : Entry σ} :
    Standing (events ++ [.add strategy]) e ↔ Standing events e ∨
      e = ⟨events.countP RepositoryEvent.isAddition, strategy⟩ := by
  constructor
  · rintro ⟨pre, post, hsplit, hnumber, hkept⟩
    rcases List.eq_nil_or_concat post with rfl | ⟨post, last, rfl⟩
    · obtain ⟨rfl, hlast⟩ := List.append_inj' hsplit rfl
      obtain rfl : strategy = e.strategy := RepositoryEvent.add.inj (List.singleton_inj.mp hlast)
      exact Or.inr (by rw [← hnumber])
    · rw [List.concat_eq_append] at hsplit hkept
      rw [← List.cons_append, ← List.append_assoc] at hsplit
      obtain ⟨hevents, -⟩ := List.append_inj' hsplit rfl
      exact Or.inl ⟨pre, post, hevents, hnumber, fun h => hkept (List.mem_append_left _ h)⟩
  · rintro (⟨pre, post, rfl, hnumber, hkept⟩ | rfl)
    · refine ⟨pre, post ++ [.add strategy], by simp, hnumber, ?_⟩
      simpa using hkept
    · exact ⟨events, [], rfl, rfl, List.not_mem_nil⟩

theorem standing_snoc_remove {events : List (RepositoryEvent σ)} {thingId : Name} {e : Entry σ} :
    Standing (events ++ [.remove thingId]) e ↔ Standing events e ∧ e.thingId ≠ thingId := by
  constructor
  · rintro ⟨pre, post, hsplit, hnumber, hkept⟩
    rcases List.eq_nil_or_concat post with rfl | ⟨post, last, rfl⟩
    · obtain ⟨-, hlast⟩ := List.append_inj' hsplit rfl
      cases List.singleton_inj.mp hlast
    · rw [List.concat_eq_append] at hsplit hkept
      rw [← List.cons_append, ← List.append_assoc] at hsplit
      obtain ⟨hevents, hlast⟩ := List.append_inj' hsplit rfl
      rw [← List.singleton_inj.mp hlast] at hkept
      simp only [List.mem_append, List.mem_singleton, not_or, RepositoryEvent.remove.injEq] at hkept
      exact ⟨⟨pre, post, hevents, hnumber, hkept.1⟩, hkept.2⟩
  · rintro ⟨⟨pre, post, rfl, hnumber, hkept⟩, hid⟩
    refine ⟨pre, post ++ [.remove thingId], by simp, hnumber, ?_⟩
    simp only [List.mem_append, List.mem_singleton, not_or, RepositoryEvent.remove.injEq]
    exact ⟨hkept, hid⟩

theorem Ledger.added_foldl (events : List (RepositoryEvent σ)) :
    (events.foldl handle empty).added = events.countP RepositoryEvent.isAddition := by
  induction events using List.reverseRecOn with
  | nil => rfl
  | append_singleton events e ih =>
    rw [List.foldl_append, List.countP_append, ← ih]
    cases e <;> rfl

/-- The entries are exactly the additions not yet removed, each with its number. -/
theorem Ledger.mem_entries_iff (events : List (RepositoryEvent σ)) (e : Entry σ) :
    e ∈ (events.foldl handle empty).entries ↔ Standing events e := by
  induction events using List.reverseRecOn with
  | nil =>
    refine ⟨fun h => absurd h List.not_mem_nil, ?_⟩
    rintro ⟨pre, post, hsplit, -⟩
    simp at hsplit
  | append_singleton events event ih =>
    rw [List.foldl_append, List.foldl_cons, List.foldl_nil]
    cases event with
    | add strategy =>
      rw [standing_snoc_add, ← ih, ← added_foldl]
      exact mem_addStrategy
    | remove thingId =>
      rw [standing_snoc_remove, ← ih]
      exact mem_eraseStrategies

theorem Ledger.numbers_nodup (events : List (RepositoryEvent σ)) :
    ((events.foldl handle empty).entries.map Entry.number).Nodup := by
  induction events using List.reverseRecOn with
  | nil => exact List.nodup_nil
  | append_singleton events event ih =>
    have hordered : (events.foldl handle empty).Ordered :=
      Runs.foldl_invariant handle_ordered events _ empty_ordered
    rw [List.foldl_append, List.foldl_cons, List.foldl_nil]
    cases event with
    | add strategy =>
      have hperm : (addStrategy Entry.priority (events.foldl handle empty).entries
          ⟨(events.foldl handle empty).added, strategy⟩).Perm
          ((events.foldl handle empty).entries ++ [⟨(events.foldl handle empty).added, strategy⟩]) :=
        List.mergeSort_perm _ _
      refine (hperm.map Entry.number).nodup_iff.mpr ?_
      rw [List.map_append]
      refine List.nodup_append'.mpr ⟨ih, List.nodup_singleton _, ?_⟩
      intro n hn hlast
      obtain ⟨e, he, rfl⟩ := List.mem_map.mp hn
      have hlt := hordered.numbers e he
      have heq : e.number = (events.foldl handle empty).added := List.mem_singleton.mp hlast
      omega
    | remove thingId => exact ih.sublist (List.filter_sublist.map _)

/- The first of some entries in the order of the list has the largest priority
number, and was added before the others of that number. -/
theorem Ledger.Ordered.first {r : Ledger σ} (h : r.Ordered) {e : Entry σ} {rest : List (Entry σ)}
    (hs : (e :: rest).Sublist r.entries) : ∀ e' ∈ e :: rest,
      e'.priority ≤ e.priority ∧ (e'.priority = e.priority → e.number ≤ e'.number) := by
  intro e' he'
  rcases List.mem_cons.mp he' with rfl | he'
  · exact ⟨le_rfl, fun _ => le_rfl⟩
  · refine ⟨(List.pairwise_cons.mp (h.priorities.sublist hs)).1 e' he', fun heq => ?_⟩
    have hadd := (h.additions e.priority).sublist (hs.filter _)
    rw [List.filter_cons_of_pos (by simp)] at hadd
    exact ((List.pairwise_cons.mp hadd).1 e' (List.mem_filter.mpr ⟨he', by simp [heq]⟩)).le

/- The first from the back has the smallest, and was added after the others. -/
theorem Ledger.Ordered.last {r : Ledger σ} (h : r.Ordered) {e : Entry σ} {rest : List (Entry σ)}
    (hs : (e :: rest).Sublist r.entries.reverse) : ∀ e' ∈ e :: rest,
      e.priority ≤ e'.priority ∧ (e'.priority = e.priority → e'.number ≤ e.number) := by
  intro e' he'
  rcases List.mem_cons.mp he' with rfl | he'
  · exact ⟨le_rfl, fun _ => le_rfl⟩
  · have hpri := (List.pairwise_reverse.mpr (h.priorities.imp fun hab => hab)).sublist hs
    refine ⟨(List.pairwise_cons.mp hpri).1 e' he', fun heq => ?_⟩
    have hadd := (List.pairwise_reverse.mpr (h.additions e.priority))
    rw [← List.filter_reverse] at hadd
    have hadd := hadd.sublist (hs.filter _)
    rw [List.filter_cons_of_pos (by simp)] at hadd
    exact ((List.pairwise_cons.mp hadd).1 e' (List.mem_filter.mpr ⟨he', by simp [heq]⟩)).le

/-! ### Which strategy an update steps -/

/- The calls of an update, loop by loop. -/
theorem mem_onSiteProperties {symbols : SymbolRepository σ} {l : List (Strategy σ)}
    {p : SiteProperties} {m : PowerManager σ} {s : Strategy σ} {k : Step} (hk : k ≠ .Keep) :
    let down := stepDownPass p l ⟨m.lastStepTs, publishSymbols symbols p m.world⟩
    (s, k) ∈ (onSiteProperties symbols l p m).2 →
      (s, k) ∈ down.calls ∨ (s, k) ∈ (stepUpPass p down.strategies down.manager).calls := by
  dsimp only [onSiteProperties, keepPass]
  intro h
  rcases List.mem_append.mp h with h | h
  · exact List.mem_append.mp h
  · obtain ⟨t, _, ht⟩ := List.mem_map.mp h
    exact absurd (Prod.mk.inj ht).2.symm hk

theorem stepDown_wanting (symbols : SymbolRepository σ) (p : SiteProperties) (m : PowerManager σ)
    (r : Ledger σ) :
    let down := stepDownPass p r.strategies ⟨m.lastStepTs, publishSymbols symbols p m.world⟩
    down.calls = [] ∨ ∃ e rest, r.wantingDown symbols p m = e :: rest ∧
      down.calls = [(e.strategy, .Down)] := by
  have h := stepPass_wanting Strategy.wantsToStepDown stepDownDebounceSeconds .Down p
    r.entries.reverse ⟨m.lastStepTs, publishSymbols symbols p m.world⟩
  rw [List.map_reverse] at h
  exact h

/- Nothing stepped down leaves all strategies to the second loop. -/
theorem stepUp_wanting (symbols : SymbolRepository σ) {p : SiteProperties} (hp : Fits p.ts)
    (m : PowerManager σ) (r : Ledger σ) :
    let down := stepDownPass p r.strategies ⟨m.lastStepTs, publishSymbols symbols p m.world⟩
    let up := stepUpPass p down.strategies down.manager
    up.calls = [] ∨ (down.calls = [] ∧ ∃ e rest, r.wantingUp symbols p m = e :: rest ∧
      up.calls = [(e.strategy, .Up)]) := by
  dsimp only
  rcases stepDownPass_cases p r.strategies ⟨m.lastStepTs, publishSymbols symbols p m.world⟩ with
    ⟨hc, hs, _⟩ | ⟨_, _, _, _, _, _, _, hts⟩
  · rw [hs]
    rcases stepPass_wanting Strategy.wantsToStepUp stepUpDebounceSeconds .Up p r.entries
      (stepDownPass p r.strategies ⟨m.lastStepTs, publishSymbols symbols p m.world⟩).manager with
      h | h
    · exact Or.inl h
    · exact Or.inr ⟨hc, h⟩
  · exact Or.inl (stepUpPass_after_step hp _ _ hts).1

/- A step down is taken by the first loop, for the first that wants it. -/
theorem mem_calls_down {symbols : SymbolRepository σ} {p : SiteProperties} {m : PowerManager σ}
    {r : Ledger σ} {s : Strategy σ}
    (h : (s, Step.Down) ∈ (onSiteProperties symbols r.strategies p m).2) :
    (∃ e rest, r.wantingDown symbols p m = e :: rest ∧ e.strategy = s) ∧
      (stepDownPass p r.strategies ⟨m.lastStepTs, publishSymbols symbols p m.world⟩).calls ≠ [] := by
  have hmem := mem_onSiteProperties (by decide) h
  have hmem := hmem.resolve_right (by
    rw [stepUpPass]
    rcases stepPass_cases Strategy.wantsToStepUp stepUpDebounceSeconds .Up p _ _ with
      ⟨hu, -, -⟩ | ⟨_, _, _, -, -, hu, -, -⟩
    · rw [hu]
      simp
    · rw [hu]
      simp)
  rcases stepDown_wanting symbols p m r with hc | ⟨e, rest, hw, hc⟩
  · rw [hc] at hmem
    cases hmem
  · rw [hc, List.mem_singleton] at hmem
    exact ⟨⟨e, rest, hw, (Prod.mk.inj hmem).1.symm⟩, by rw [hc]; simp⟩

/- A step up is taken by the second, after the first has taken none. -/
theorem mem_calls_up {symbols : SymbolRepository σ} {p : SiteProperties} (hp : Fits p.ts)
    {m : PowerManager σ} {r : Ledger σ} {s : Strategy σ}
    (h : (s, Step.Up) ∈ (onSiteProperties symbols r.strategies p m).2) :
    (∃ e rest, r.wantingUp symbols p m = e :: rest ∧ e.strategy = s) ∧
      (stepDownPass p r.strategies ⟨m.lastStepTs, publishSymbols symbols p m.world⟩).calls = [] := by
  have hmem := mem_onSiteProperties (by decide) h
  have hmem := hmem.resolve_left (by
    rcases stepDown_wanting symbols p m r with hc | ⟨e, rest, _, hc⟩
    · rw [hc]
      simp
    · rw [hc]
      simp)
  rcases stepUp_wanting symbols hp m r with hu | ⟨hnone, e, rest, hw, hu⟩
  · rw [hu] at hmem
    cases hmem
  · rw [hu, List.mem_singleton] at hmem
    exact ⟨⟨e, rest, hw, (Prod.mk.inj hmem).1.symm⟩, hnone⟩

/- The strategy stepped down has, of those that want it, the smallest priority number
and was added last, the one stepped up has the largest and was added first, and there
are not both. -/
structure StepsInOrder (symbols : SymbolRepository σ) (p : SiteProperties) (m : PowerManager σ)
    (r : Ledger σ) : Prop where
  down : ∀ s, (s, Step.Down) ∈ (onSiteProperties symbols r.strategies p m).2 →
    ∃ e ∈ r.wantingDown symbols p m, e.strategy = s ∧ ∀ e' ∈ r.wantingDown symbols p m,
      e.priority ≤ e'.priority ∧ (e'.priority = e.priority → e'.number ≤ e.number)
  up : ∀ s, (s, Step.Up) ∈ (onSiteProperties symbols r.strategies p m).2 →
    ∃ e ∈ r.wantingUp symbols p m, e.strategy = s ∧ ∀ e' ∈ r.wantingUp symbols p m,
      e'.priority ≤ e.priority ∧ (e'.priority = e.priority → e.number ≤ e'.number)
  notBoth : ¬ ((∃ s, (s, Step.Down) ∈ (onSiteProperties symbols r.strategies p m).2) ∧
    ∃ s, (s, Step.Up) ∈ (onSiteProperties symbols r.strategies p m).2)

theorem Ledger.Ordered.stepsInOrder {symbols : SymbolRepository σ} {p : SiteProperties}
    (hp : Fits p.ts) (m : PowerManager σ) {r : Ledger σ} (hr : r.Ordered) :
    StepsInOrder symbols p m r where
  down s hs := by
    obtain ⟨⟨e, rest, hw, he⟩, -⟩ := mem_calls_down hs
    have hsub : (e :: rest).Sublist r.entries.reverse := by
      rw [← hw]
      exact wanting_sublist _ _ _ _
    rw [hw]
    exact ⟨e, List.mem_cons_self, he, hr.last hsub⟩
  up s hs := by
    obtain ⟨⟨e, rest, hw, he⟩, -⟩ := mem_calls_up hp hs
    have hsub : (e :: rest).Sublist r.entries := by
      rw [← hw]
      exact wanting_sublist _ _ _ _
    rw [hw]
    exact ⟨e, List.mem_cons_self, he, hr.first hsub⟩
  notBoth := by
    intro ⟨⟨s, hs⟩, t, ht⟩
    exact (mem_calls_down hs).2 (mem_calls_up hp ht).2

/- Two strategies that always want both steps. -/
def restlessEvents : List (RepositoryEvent Unit) :=
  [.add (restless "heater".toList true), .add (restless "relay".toList true)]

theorem restless_strategies :
    (restlessEvents.foldl Ledger.handle Ledger.empty).strategies =
      [restless "heater".toList true, restless "relay".toList true] := by
  rw [Ledger.strategies_foldl]
  simp [restlessEvents, repositoryStep, addStrategy, Ledger.strategies, Ledger.empty,
    List.mergeSort, restless]

/- Where the debounce wraps, the update that steps the one down steps the other up. -/
theorem restless_both {p : SiteProperties} (h : 2 ^ 32 ≤ p.ts + 180) (hlt : p.ts < 2 ^ 32) :
    (onSiteProperties ⟨fun _ _ w => w⟩ [restless "heater".toList true, restless "relay".toList true] p
      ⟨0, ()⟩).2 = [(restless "relay".toList true, .Down), (restless "heater".toList true, .Up)] := by
  have hdown : Due stepDownDebounceSeconds p 0 := by
    show (0 + 120) % 2 ^ 32 ≤ p.ts
    omega
  have hup : Due stepUpDebounceSeconds p (stepTs p) := by
    have hmod : stepTs p % 2 ^ 32 = p.ts % 2 ^ 32 := Int.bmod_emod
    show (stepTs p + 180) % 2 ^ 32 ≤ p.ts
    omega
  simp [onSiteProperties, stepDownPass, stepUpPass, keepPass, stepPass, publishSymbols, restless,
    hdown, hup]

/- The strategies of the ledger at a timestamp whose debounce wraps. -/
theorem not_stepsInOrder {p : SiteProperties} (h : 2 ^ 32 ≤ p.ts + 180) (hlt : p.ts < 2 ^ 32) :
    ¬ StepsInOrder ⟨fun _ _ w => w⟩ p ⟨0, ()⟩ (restlessEvents.foldl Ledger.handle Ledger.empty) := by
  intro horder
  have hboth := restless_both h hlt
  have hnot := horder.notBoth
  rw [restless_strategies, hboth] at hnot
  exact hnot ⟨⟨_, List.mem_cons_self⟩, _, List.mem_cons_of_mem _ List.mem_cons_self⟩

/-- After any additions and removals the entries are the strategies of the repository and
exactly the additions not yet removed, no two of one number; and on every update at `ts`,
in any state of the manager, steps are taken in their order if and only if the debounce
after `ts` ends within 32 bits. -/
theorem steps_in_order_iff (ts : UInt32) :
    (∀ (σ : Type) (symbols : SymbolRepository σ) (events : List (RepositoryEvent σ))
      (p : SiteProperties) (m : PowerManager σ), p.ts = ts.toNat →
        let r := events.foldl Ledger.handle Ledger.empty
        r.strategies = events.foldl repositoryStep [] ∧ (∀ e, e ∈ r.entries ↔ Standing events e) ∧
          (r.entries.map Entry.number).Nodup ∧ StepsInOrder symbols p m r) ↔
      ts.toNat + 180 < 2 ^ 32 := by
  constructor
  · intro hall
    by_contra hlate
    have hbound := ts.toNat_lt
    obtain ⟨-, -, -, horder⟩ := hall Unit ⟨fun _ _ w => w⟩ restlessEvents ⟨ts.toNat, 0, 0, 0, 0⟩
      ⟨0, ()⟩ rfl
    refine not_stepsInOrder ?_ ?_ horder
    · dsimp only
      omega
    · dsimp only
      omega
  · intro hfits σ symbols events p m hts
    have hp : Fits p.ts := by
      unfold Fits stepUpDebounceSeconds
      omega
    have hr : (events.foldl Ledger.handle Ledger.empty).Ordered :=
      Runs.foldl_invariant Ledger.handle_ordered events _ Ledger.empty_ordered
    exact ⟨Ledger.strategies_foldl events Ledger.empty, Ledger.mem_entries_iff events,
      Ledger.numbers_nodup events, hr.stepsInOrder hp m⟩

/- Two strategies of the same priority: one is stepped down and the other up in one update
at 4294967290, in the last three minutes that 32 bits can count. -/
theorem not_steps_in_order :
    let p : SiteProperties := ⟨4294967290, 0, 0, 0, 0⟩
    let r := restlessEvents.foldl Ledger.handle Ledger.empty
    (onSiteProperties ⟨fun _ _ w => w⟩ r.strategies p ⟨0, ()⟩).2 =
        [(restless "relay".toList true, .Down), (restless "heater".toList true, .Up)] ∧
      ¬ StepsInOrder ⟨fun _ _ w => w⟩ p ⟨0, ()⟩ r := by
  intro p r
  refine ⟨?_, not_stepsInOrder (by decide) (by decide)⟩
  rw [restless_strategies]
  exact restless_both (by decide) (by decide)

end Iotic.Strategies
