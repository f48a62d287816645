import Iotic.Lib.Runs
import Iotic.Strategies.Strategy
import Mathlib.Data.List.Chain
import Mathlib.Algebra.Group.Nat.Defs
import Mathlib.Algebra.Ring.Int.Defs
import Mathlib.Tactic.Common

/-!
# The power manager (PowerManager.cpp)

One handler, run on every site update: publish the readings as symbols, take at
most one step down, take at most one step up, let the rest modulate. The two
step loops differ in the direction they visit the list, the query they ask, the
debounce they wait for and the step they command.
-/

namespace Iotic.Strategies

/-! ### The handler -/

/- ConfigRepository.h:101-102. -/
def stepUpDebounceSeconds : ℤ := 180
def stepDownDebounceSeconds : ℤ := 120

structure SymbolRepository (σ : Type*) where
  setSymbol : Name → ℤ → σ → σ

/- `_lastStepTs` is an `int`. -/
structure PowerManager (σ : Type*) where
  lastStepTs : ℤ
  world : σ

/- `strategy->adjust(step, siteProperties)`. -/
abbrev Call (σ : Type*) := Strategy σ × Step

structure Pass (σ : Type*) where
  strategies : List (Strategy σ)
  manager : PowerManager σ
  calls : List (Call σ)

variable {σ : Type*}

/- `siteProperties.ts >= _lastStepTs + debounce`, an `int` sum converted to the `uint` of
the timestamp. A sum beyond an `int` has no defined result; here it wraps, as the
conversions do. -/
def Due (debounce : ℤ) (p : SiteProperties) (lastStepTs : ℤ) : Prop :=
  p.ts ≥ (lastStepTs + debounce) % 2 ^ 32

instance (debounce : ℤ) (p : SiteProperties) (lastStepTs : ℤ) :
    Decidable (Due debounce p lastStepTs) :=
  inferInstanceAs (Decidable (_ ≤ _))

/- `_lastStepTs = siteProperties.ts`, a `uint` converted to an `int`. -/
def stepTs (p : SiteProperties) : ℤ := p.ts.bmod (2 ^ 32)

/- The body of both step loops, over the strategies in the order visited. The
query runs before the debounce is looked at, so it acts on the state even when
no step may be taken yet. -/
def stepPass (wants : Strategy σ → SiteProperties → σ → Bool × σ) (debounce : ℤ) (step : Step)
    (p : SiteProperties) : List (Strategy σ) → PowerManager σ → Pass σ
  | [], m => ⟨[], m, []⟩
  | s :: rest, m =>
    let answer := wants s p m.world
    if answer.1 = true ∧ Due debounce p m.lastStepTs then
      -- erase the strategy from the list and leave the loop
      ⟨rest, ⟨stepTs p, s.adjust step p answer.2⟩, [(s, step)]⟩
    else
      let r := stepPass wants debounce step p rest ⟨m.lastStepTs, answer.2⟩
      ⟨s :: r.strategies, r.manager, r.calls⟩

/- The loop `for (auto it = strategies.rbegin(); it != strategies.rend(); ++it)`. -/
def stepDownPass (p : SiteProperties) (strategies : List (Strategy σ)) (m : PowerManager σ) :
    Pass σ :=
  let r := stepPass Strategy.wantsToStepDown stepDownDebounceSeconds .Down p strategies.reverse m
  ⟨r.strategies.reverse, r.manager, r.calls⟩

/- The loop `for (auto it = strategies.begin(); it != strategies.end(); ++it)`. -/
def stepUpPass (p : SiteProperties) (strategies : List (Strategy σ)) (m : PowerManager σ) :
    Pass σ :=
  stepPass Strategy.wantsToStepUp stepUpDebounceSeconds .Up p strategies m

def keepPass (p : SiteProperties) (strategies : List (Strategy σ)) (m : PowerManager σ) : Pass σ :=
  ⟨strategies, ⟨m.lastStepTs, strategies.foldl (fun w s => s.adjust .Keep p w) m.world⟩,
    strategies.map fun s => (s, .Keep)⟩

def publishSymbols (symbols : SymbolRepository σ) (p : SiteProperties) (w : σ) : σ :=
  symbols.setSymbol "pv_power".toList p.pvPower <|
  symbols.setSymbol "grid_power".toList p.gridPower <|
  symbols.setSymbol "long_term_grid_power".toList p.longTermGridPower <|
  symbols.setSymbol "short_term_grid_power".toList p.shortTermGridPower w

/-- The lambda `PowerManager` subscribes to `site.properties()`; `strategies` is
the copy it takes of the repository's list. Returned with the calls in order. -/
def onSiteProperties (symbols : SymbolRepository σ) (strategies : List (Strategy σ))
    (p : SiteProperties) (m : PowerManager σ) : PowerManager σ × List (Call σ) :=
  let down := stepDownPass p strategies ⟨m.lastStepTs, publishSymbols symbols p m.world⟩
  let up := stepUpPass p down.strategies down.manager
  let keep := keepPass p up.strategies up.manager
  (keep.manager, down.calls ++ up.calls ++ keep.calls)

/-! ### What one update can do -/

def debounceSeconds : Step → ℤ
  | .Keep => 0
  | .Down => stepDownDebounceSeconds
  | .Up => stepUpDebounceSeconds

/- Every outcome of a step loop: it called nothing and left the list alone, or
it stepped one strategy, once the debounce had passed, and took it out. -/
theorem stepPass_cases (wants : Strategy σ → SiteProperties → σ → Bool × σ) (debounce : ℤ)
    (step : Step) (p : SiteProperties) (l : List (Strategy σ)) (m : PowerManager σ) :
    let r := stepPass wants debounce step p l m
    (r.calls = [] ∧ r.strategies = l ∧ r.manager.lastStepTs = m.lastStepTs) ∨
    (∃ pre s post, l = pre ++ s :: post ∧ r.strategies = pre ++ post ∧ r.calls = [(s, step)] ∧
      Due debounce p m.lastStepTs ∧ r.manager.lastStepTs = stepTs p) := by
  induction l generalizing m with
  | nil => exact Or.inl ⟨rfl, rfl, rfl⟩
  | cons s rest ih =>
    rw [stepPass]
    dsimp only
    split_ifs with h
    · exact Or.inr ⟨[], s, rest, rfl, rfl, rfl, h.2, rfl⟩
    · rcases ih ⟨m.lastStepTs, (wants s p m.world).2⟩ with ⟨hc, hs, ht⟩ | ⟨pre, s', post, hl, hs, hc, hd, ht⟩
      · exact Or.inl ⟨hc, by rw [hs], ht⟩
      · exact Or.inr ⟨s :: pre, s', post, by rw [hl]; rfl, by rw [hs]; rfl, hc, hd, ht⟩

theorem stepDownPass_cases (p : SiteProperties) (l : List (Strategy σ)) (m : PowerManager σ) :
    let r := stepDownPass p l m
    (r.calls = [] ∧ r.strategies = l ∧ r.manager.lastStepTs = m.lastStepTs) ∨
    (∃ pre s post, l = pre ++ s :: post ∧ r.strategies = pre ++ post ∧ r.calls = [(s, .Down)] ∧
      Due stepDownDebounceSeconds p m.lastStepTs ∧ r.manager.lastStepTs = stepTs p) := by
  rcases stepPass_cases Strategy.wantsToStepDown stepDownDebounceSeconds .Down p l.reverse m with
    ⟨hc, hs, ht⟩ | ⟨pre, s, post, hl, hs, hc, hd, ht⟩
  · exact Or.inl ⟨hc, by simp only [stepDownPass, hs, List.reverse_reverse], ht⟩
  · refine Or.inr ⟨post.reverse, s, pre.reverse, ?_, ?_, hc, hd, ht⟩
    · rw [← List.reverse_reverse l, hl]
      simp
    · simp [stepDownPass, hs]

/- Every outcome of an update: all strategies keep, or one of them steps, once its
debounce has passed, or one steps down and another one up. -/
inductive Outcome (l : List (Strategy σ)) (p : SiteProperties) (lastStepTs : ℤ) :
    List (Call σ) → ℤ → Prop
  | keep : Outcome l p lastStepTs (l.map fun s => (s, .Keep)) lastStepTs
  | step (k : Step) (pre : List (Strategy σ)) (s : Strategy σ) (post : List (Strategy σ)) :
      k ≠ .Keep → l = pre ++ s :: post → Due (debounceSeconds k) p lastStepTs →
      Outcome l p lastStepTs ((s, k) :: (pre ++ post).map fun s => (s, .Keep)) (stepTs p)
  | both (pre : List (Strategy σ)) (s : Strategy σ) (post pre' : List (Strategy σ))
      (s' : Strategy σ) (post' : List (Strategy σ)) :
      l = pre ++ s :: post → pre ++ post = pre' ++ s' :: post' →
      Due stepUpDebounceSeconds p (stepTs p) →
      Outcome l p lastStepTs ((s, .Down) :: (s', .Up) :: (pre' ++ post').map fun s => (s, .Keep))
        (stepTs p)

theorem onSiteProperties_cases (symbols : SymbolRepository σ) (l : List (Strategy σ))
    (p : SiteProperties) (m : PowerManager σ) :
    Outcome l p m.lastStepTs (onSiteProperties symbols l p m).2
      (onSiteProperties symbols l p m).1.lastStepTs := by
  dsimp only [onSiteProperties, keepPass]
  generalize hdown : stepDownPass p l ⟨m.lastStepTs, publishSymbols symbols p m.world⟩ = down
  have hup := stepPass_cases Strategy.wantsToStepUp stepUpDebounceSeconds .Up p down.strategies
    down.manager
  rcases stepDownPass_cases p l ⟨m.lastStepTs, publishSymbols symbols p m.world⟩ with
    ⟨hc, hs, ht⟩ | ⟨pre, s, post, hl, hs, hc, hd, ht⟩
  · rw [hdown] at hc hs ht
    rcases hup with ⟨hc', hs', ht'⟩ | ⟨pre, s, post, hl', hs', hc', hd', ht'⟩
    · rw [stepUpPass, hc, hc', ht', ht, hs', hs]
      exact Outcome.keep
    · rw [stepUpPass, hc, hc', hs', ht']
      exact Outcome.step .Up pre s post (by decide) (hs.symm.trans hl') (ht ▸ hd')
  · rw [hdown] at hc hs ht
    rcases hup with ⟨hc', hs', ht'⟩ | ⟨pre', s', post', hl', hs', hc', hd', ht'⟩
    · rw [stepUpPass, hc, hc', ht', ht, hs', hs]
      exact Outcome.step .Down pre s post (by decide) hl hd
    · rw [stepUpPass, hc, hc', hs', ht']
      exact Outcome.both pre s post pre' s' post' hl (hs.symm.trans hl') (ht ▸ hd')

/-! ### Timestamps that the debounce can be waited for -/

/- The longest debounce after `ts` ends within 32 bits. -/
def Fits (ts : ℤ) : Prop := 0 ≤ ts ∧ ts + stepUpDebounceSeconds < 2 ^ 32

instance (ts : ℤ) : Decidable (Fits ts) := inferInstanceAs (Decidable (_ ∧ _))

/- The timestamp `_lastStepTs` was assigned. -/
def PowerManager.lastStep (m : PowerManager σ) : ℤ := m.lastStepTs % 2 ^ 32

theorem stepTs_emod {p : SiteProperties} (h : Fits p.ts) : stepTs p % 2 ^ 32 = p.ts := by
  have hfits := h.2
  unfold stepUpDebounceSeconds at hfits
  have hmod : stepTs p % 2 ^ 32 = p.ts % 2 ^ 32 := Int.bmod_emod
  rw [hmod]
  exact Int.emod_eq_of_lt h.1 (by omega)

theorem due_iff {lastStepTs : ℤ} {p : SiteProperties} (h : Fits (lastStepTs % 2 ^ 32)) (k : Step) :
    Due (debounceSeconds k) p lastStepTs ↔ lastStepTs % 2 ^ 32 + debounceSeconds k ≤ p.ts := by
  have hfits := h.2
  have hk : 0 ≤ debounceSeconds k ∧ debounceSeconds k ≤ 180 := by cases k <;> decide
  unfold stepUpDebounceSeconds at hfits
  unfold Due
  rw [← Int.emod_add_emod, Int.emod_eq_of_lt (by omega) (by omega)]

/- The step has just restarted the debounce. -/
theorem not_due_after_step {p : SiteProperties} (h : Fits p.ts) :
    ¬ Due stepUpDebounceSeconds p (stepTs p) := by
  have hts := stepTs_emod h
  have hdue := due_iff (p := p) (hts.symm ▸ h) .Up
  rw [hts] at hdue
  intro hup
  have hle : p.ts + 180 ≤ p.ts := hdue.mp hup
  omega

theorem stepUpPass_after_step {p : SiteProperties} (h : Fits p.ts) (l : List (Strategy σ))
    (m : PowerManager σ) (hm : m.lastStepTs = stepTs p) :
    (stepUpPass p l m).calls = [] ∧ (stepUpPass p l m).strategies = l ∧
      (stepUpPass p l m).manager.lastStepTs = stepTs p := by
  rcases stepPass_cases Strategy.wantsToStepUp stepUpDebounceSeconds .Up p l m with
    ⟨hc, hs, ht⟩ | ⟨-, -, -, -, -, -, hd, -⟩
  · exact ⟨hc, hs, ht.trans hm⟩
  · exact absurd (hm ▸ hd) (not_due_after_step h)

/-! ### What an update does to the world -/

/- The query before a step; to keep, nothing is asked. -/
def Strategy.wants (s : Strategy σ) (p : SiteProperties) (w : σ) : Step → Bool × σ
  | .Keep => (true, w)
  | .Down => s.wantsToStepDown p w
  | .Up => s.wantsToStepUp p w

/- How the calls of an update carry one world into another: strategies of the list are
asked in between, one that is stepped has just answered yes, and nothing else happens. -/
inductive Carries (l : List (Strategy σ)) (p : SiteProperties) : List (Call σ) → σ → σ → Prop
  | nil (w : σ) : Carries l p [] w w
  | asks {w w' : σ} {calls : List (Call σ)} (s : Strategy σ) (k : Step) : s ∈ l →
      Carries l p calls (s.wants p w k).2 w' → Carries l p calls w w'
  | adjusts {w w' : σ} {calls : List (Call σ)} (s : Strategy σ) (k : Step) : s ∈ l →
      (s.wants p w k).1 = true → Carries l p calls (s.adjust k p (s.wants p w k).2) w' →
      Carries l p ((s, k) :: calls) w w'

theorem Carries.trans {l : List (Strategy σ)} {p : SiteProperties} {calls calls' : List (Call σ)}
    {u v w : σ} (h : Carries l p calls u v) (h' : Carries l p calls' v w) :
    Carries l p (calls ++ calls') u w := by
  induction h with
  | nil => exact h'
  | asks s k hs _ ih => exact Carries.asks s k hs (ih h')
  | adjusts s k hs hyes _ ih => exact Carries.adjusts s k hs hyes (ih h')

theorem stepPass_carries (k : Step) (debounce : ℤ) (p : SiteProperties) {l l' : List (Strategy σ)}
    (hl : ∀ s ∈ l', s ∈ l) (m : PowerManager σ) :
    let r := stepPass (fun s p w => s.wants p w k) debounce k p l' m
    Carries l p r.calls m.world r.manager.world := by
  induction l' generalizing m with
  | nil => exact Carries.nil m.world
  | cons s rest ih =>
    obtain ⟨hs, hrest⟩ := List.forall_mem_cons.mp hl
    rw [stepPass]
    dsimp only
    split_ifs with hw
    · exact Carries.adjusts s k hs hw.1 (Carries.nil _)
    · exact Carries.asks s k hs (ih hrest _)

/- The loops leave no other strategies in the list than were there. -/
theorem stepPass_subset (wants : Strategy σ → SiteProperties → σ → Bool × σ) (debounce : ℤ)
    (step : Step) (p : SiteProperties) (l : List (Strategy σ)) (m : PowerManager σ) :
    ∀ s ∈ (stepPass wants debounce step p l m).strategies, s ∈ l := by
  rcases stepPass_cases wants debounce step p l m with
    ⟨-, hs, -⟩ | ⟨pre, t, post, hl, hs, -, -, -⟩
  · rw [hs]
    exact fun _ h => h
  · rw [hs, hl]
    intro s h
    simp only [List.mem_append, List.mem_cons] at h ⊢
    tauto

theorem keepPass_carries (p : SiteProperties) {l l' : List (Strategy σ)} (hl : ∀ s ∈ l', s ∈ l)
    (m : PowerManager σ) :
    Carries l p (keepPass p l' m).calls m.world (keepPass p l' m).manager.world := by
  obtain ⟨last, w⟩ := m
  show Carries l p (l'.map fun s => (s, Step.Keep)) w
    (l'.foldl (fun w s => s.adjust .Keep p w) w)
  induction l' generalizing w with
  | nil => exact Carries.nil w
  | cons s rest ih =>
    obtain ⟨hs, hrest⟩ := List.forall_mem_cons.mp hl
    exact Carries.adjusts s .Keep hs rfl (ih hrest _)

/-- Once the symbols are published, an update changes the world by the calls it makes
and the queries between them only. -/
theorem onSiteProperties_carries (symbols : SymbolRepository σ) (l : List (Strategy σ))
    (p : SiteProperties) (m : PowerManager σ) :
    Carries l p (onSiteProperties symbols l p m).2 (publishSymbols symbols p m.world)
      (onSiteProperties symbols l p m).1.world := by
  let start : PowerManager σ := ⟨m.lastStepTs, publishSymbols symbols p m.world⟩
  let down := stepDownPass p l start
  let up := stepUpPass p down.strategies down.manager
  have hdown : ∀ s ∈ down.strategies, s ∈ l := fun s hs =>
    List.mem_reverse.mp (stepPass_subset _ _ _ p _ start s (List.mem_reverse.mp hs))
  have hup : ∀ s ∈ up.strategies, s ∈ l := fun s hs =>
    hdown s (stepPass_subset _ _ _ p _ down.manager s hs)
  have hfirst : Carries l p down.calls start.world down.manager.world :=
    stepPass_carries .Down stepDownDebounceSeconds p (fun s hs => List.mem_reverse.mp hs) start
  have hsecond : Carries l p up.calls down.manager.world up.manager.world :=
    stepPass_carries .Up stepUpDebounceSeconds p hdown down.manager
  exact (hfirst.trans hsecond).trans (keepPass_carries p hup up.manager)

/- A strategy keeps `I` whenever it is asked, told to keep, or stepped right after it
has answered yes. -/
structure Preserves (I : σ → Prop) (s : Strategy σ) : Prop where
  asksDown : ∀ p w, I w → I (s.wantsToStepDown p w).2
  asksUp : ∀ p w, I w → I (s.wantsToStepUp p w).2
  stepsDown : ∀ p w, I w → (s.wantsToStepDown p w).1 = true →
    I (s.adjust .Down p (s.wantsToStepDown p w).2)
  stepsUp : ∀ p w, I w → (s.wantsToStepUp p w).1 = true →
    I (s.adjust .Up p (s.wantsToStepUp p w).2)
  keeps : ∀ p w, I w → I (s.adjust .Keep p w)

theorem Carries.preserves {I : σ → Prop} {l : List (Strategy σ)} {p : SiteProperties}
    {calls : List (Call σ)} {w w' : σ} (h : Carries l p calls w w') (hl : ∀ s ∈ l, Preserves I s)
    (hw : I w) : I w' := by
  induction h with
  | nil => exact hw
  | @asks w _ _ s k hs _ ih =>
    refine ih ?_
    cases k with
    | Keep => exact hw
    | Down => exact (hl s hs).asksDown p w hw
    | Up => exact (hl s hs).asksUp p w hw
  | @adjusts w _ _ s k hs hyes _ ih =>
    refine ih ?_
    cases k with
    | Keep => exact (hl s hs).keeps p w hw
    | Down => exact (hl s hs).stepsDown p w hw hyes
    | Up => exact (hl s hs).stepsUp p w hw hyes

/-- What setting a symbol and every strategy of the list preserves, an update
preserves. -/
theorem onSiteProperties_preserves {I : σ → Prop} (symbols : SymbolRepository σ)
    (hsymbols : ∀ name value w, I w → I (symbols.setSymbol name value w))
    {l : List (Strategy σ)} (hl : ∀ s ∈ l, Preserves I s) (p : SiteProperties)
    (m : PowerManager σ) (h : I m.world) : I (onSiteProperties symbols l p m).1.world := by
  have hstart : I (publishSymbols symbols p m.world) :=
    hsymbols _ _ _ (hsymbols _ _ _ (hsymbols _ _ _ (hsymbols _ _ _ h)))
  exact (onSiteProperties_carries symbols l p m).preserves hl hstart

/-! ### Runs -/

/- A site update, with the strategies the repository holds at that moment. -/
structure Update (σ : Type*) where
  strategies : List (Strategy σ)
  siteProperties : SiteProperties

structure Record (σ : Type*) where
  update : Update σ
  calls : List (Call σ)

def Record.steps (r : Record σ) : List (ℤ × Step) :=
  (r.calls.filter fun c => c.2 ≠ .Keep).map fun c => (r.update.siteProperties.ts, c.2)

/- The manager and the records of the updates it has handled, oldest first. -/
structure History (σ : Type*) where
  manager : PowerManager σ
  records : List (Record σ)

def History.steps (h : History σ) : List (ℤ × Step) := h.records.flatMap Record.steps

def History.initial (world : σ) : History σ := ⟨⟨0, world⟩, []⟩

def History.handle (symbols : SymbolRepository σ) (h : History σ) (u : Update σ) : History σ :=
  let r := onSiteProperties symbols u.strategies u.siteProperties h.manager
  ⟨r.1, h.records ++ [⟨u, r.2⟩]⟩

def Record.AdjustsOnce (r : Record σ) : Prop :=
  (r.calls.map Prod.fst).Perm r.update.strategies ∧
    (r.calls.filter fun c => c.2 ≠ .Keep).length ≤ 1

/- The debounce to keep is that of the later step. -/
def Spaced (a b : ℤ × Step) : Prop := b.1 ≥ a.1 + debounceSeconds b.2

/- The records carry one world into another, each once its symbols are published. -/
def Carried (symbols : SymbolRepository σ) : List (Record σ) → σ → σ → Prop
  | [], w, w' => w = w'
  | r :: records, w, w' => ∃ v,
      Carries r.update.strategies r.update.siteProperties r.calls
        (publishSymbols symbols r.update.siteProperties w) v ∧ Carried symbols records v w'

theorem Carried.snoc {symbols : SymbolRepository σ} {records : List (Record σ)} {r : Record σ}
    {u v w : σ} (h : Carried symbols records u v)
    (hr : Carries r.update.strategies r.update.siteProperties r.calls
      (publishSymbols symbols r.update.siteProperties v) w) :
    Carried symbols (records ++ [r]) u w := by
  induction records generalizing u with
  | nil =>
    obtain rfl : u = v := h
    exact ⟨w, hr, rfl⟩
  | cons r' records ih =>
    obtain ⟨v', hv, hrest⟩ := h
    exact ⟨v', hv, ih hrest⟩

theorem filter_keep (l : List (Strategy σ)) :
    (l.map fun s => (s, Step.Keep)).filter (fun c : Call σ => c.2 ≠ .Keep) = [] := by
  induction l with
  | nil => rfl
  | cons s l ih => simp

theorem map_fst_keep (l : List (Strategy σ)) :
    (l.map fun s => (s, Step.Keep)).map Prod.fst = l := by
  rw [List.map_map]
  exact List.map_id l

/- Whatever the timestamp, an update adjusts each strategy once. -/
theorem Outcome.perm {l : List (Strategy σ)} {p : SiteProperties} {last last' : ℤ}
    {calls : List (Call σ)} (h : Outcome l p last calls last') : (calls.map Prod.fst).Perm l := by
  cases h with
  | keep => rw [map_fst_keep]
  | step k pre s post hk hl hd =>
    rw [List.map_cons, map_fst_keep, hl]
    exact List.perm_middle.symm
  | both pre s post pre' s' post' hl hl' hd =>
    rw [List.map_cons, List.map_cons, map_fst_keep, hl]
    refine (List.Perm.cons s ?_).trans List.perm_middle.symm
    rw [hl']
    exact List.perm_middle.symm

/- Where the timestamp fits, there is at most one step, which brings `lastStepTs` up to
date. -/
theorem Outcome.steps {l : List (Strategy σ)} {p : SiteProperties} {last last' : ℤ}
    {calls : List (Call σ)} (h : Outcome l p last calls last') (hp : Fits p.ts) :
    ((calls.filter fun c => c.2 ≠ .Keep) = [] ∧ last' = last) ∨
      ∃ s k, (calls.filter fun c => c.2 ≠ .Keep) = [(s, k)] ∧ Due (debounceSeconds k) p last ∧
        last' = stepTs p := by
  cases h with
  | keep => exact Or.inl ⟨filter_keep l, rfl⟩
  | step k pre s post hk hl hd =>
    refine Or.inr ⟨s, k, ?_, hd, rfl⟩
    rw [List.filter_cons_of_pos (by simpa using hk), filter_keep]
  | both pre s post pre' s' post' hl hl' hd => exact absurd hd (not_due_after_step hp)

/- The invariant of a run whose timestamps fit: all records adjust once and carry the
world along, the steps so far are spaced, and the last of them was taken at
`lastStep`. -/
structure History.Inv (symbols : SymbolRepository σ) (world : σ) (h : History σ) : Prop where
  adjustsOnce : ∀ r ∈ h.records, r.AdjustsOnce
  carried : Carried symbols h.records world h.manager.world
  spaced : h.steps.IsChain Spaced
  lastStep : ∀ a ∈ h.steps.getLast?, a.1 = h.manager.lastStep
  stored : h.manager.lastStepTs = 0 ∨
    ∃ r ∈ h.records, Fits r.update.siteProperties.ts ∧
      h.manager.lastStepTs = stepTs r.update.siteProperties

theorem History.initial_inv (symbols : SymbolRepository σ) (world : σ) :
    (History.initial world).Inv symbols world where
  adjustsOnce := by simp [History.initial]
  carried := rfl
  spaced := List.isChain_nil
  lastStep := by simp [History.initial, History.steps]
  stored := Or.inl rfl

theorem History.Inv.fits {symbols : SymbolRepository σ} {world : σ} {h : History σ}
    (hi : h.Inv symbols world) : Fits h.manager.lastStep := by
  unfold PowerManager.lastStep
  rcases hi.stored with h0 | ⟨r, -, hr, hts⟩
  · rw [h0]
    decide
  · rwa [hts, stepTs_emod hr]

theorem History.handle_inv (symbols : SymbolRepository σ) (world : σ) (h : History σ) (u : Update σ)
    (hu : Fits u.siteProperties.ts) (hi : h.Inv symbols world) :
    (h.handle symbols u).Inv symbols world := by
  have hout := onSiteProperties_cases symbols u.strategies u.siteProperties h.manager
  have hcarries := onSiteProperties_carries symbols u.strategies u.siteProperties h.manager
  let r : Record σ := ⟨u, (onSiteProperties symbols u.strategies u.siteProperties h.manager).2⟩
  have hs : (h.handle symbols u).steps = h.steps ++ r.steps := by
    simp [History.handle, History.steps, r]
  have hrecords : (h.handle symbols u).records = h.records ++ [r] := rfl
  have honce : r.AdjustsOnce := by
    refine ⟨hout.perm, ?_⟩
    rcases hout.steps hu with ⟨he, -⟩ | ⟨s, k, he, -, -⟩
    · exact he ▸ Nat.zero_le 1
    · exact he ▸ le_rfl
  have hadjusts : ∀ r' ∈ (h.handle symbols u).records, r'.AdjustsOnce := by
    intro r' hr'
    rcases List.mem_append.mp hr' with hr' | hr'
    · exact hi.adjustsOnce r' hr'
    · rw [List.mem_singleton.mp hr']
      exact honce
  have hcarried : Carried symbols (h.handle symbols u).records world
      (h.handle symbols u).manager.world := hi.carried.snoc hcarries
  rcases hout.steps hu with ⟨he, ht⟩ | ⟨s, k, he, hd, ht⟩
  · have hnone : r.steps = [] := congrArg (List.map _) he
    rw [hnone, List.append_nil] at hs
    refine ⟨hadjusts, hcarried, hs ▸ hi.spaced, fun a ha => ?_, ?_⟩
    · rw [hs] at ha
      exact (hi.lastStep a ha).trans (congrArg (· % 2 ^ 32) ht.symm)
    · refine hi.stored.imp ht.trans fun ⟨r', hr', hfits, hts⟩ => ?_
      exact ⟨r', hrecords ▸ List.mem_append_left _ hr', hfits, ht.trans hts⟩
  · have hone : r.steps = [(u.siteProperties.ts, k)] := congrArg (List.map _) he
    have hlast : (h.handle symbols u).manager.lastStep = u.siteProperties.ts :=
      (congrArg (· % 2 ^ 32) ht).trans (stepTs_emod hu)
    rw [hone] at hs
    refine ⟨hadjusts, hcarried, ?_, fun a ha => ?_, Or.inr ⟨r, ?_, hu, ht⟩⟩
    · rw [hs]
      refine List.isChain_append.mpr ⟨hi.spaced, List.isChain_singleton _, fun a ha b hb => ?_⟩
      obtain rfl : (u.siteProperties.ts, k) = b := by simpa using hb
      rw [Spaced, hi.lastStep a ha]
      exact (due_iff hi.fits k).mp hd
    · rw [hs, List.getLast?_append] at ha
      obtain rfl : (u.siteProperties.ts, k) = a := by simpa using ha
      exact hlast.symm
    · exact hrecords ▸ List.mem_append_right _ (List.mem_singleton_self r)

theorem records_foldl_handle (symbols : SymbolRepository σ) (updates : List (Update σ))
    (h : History σ) : (updates.foldl (History.handle symbols) h).records.map Record.update =
      h.records.map Record.update ++ updates := by
  induction updates generalizing h with
  | nil => simp
  | cons u us ih =>
    rw [List.foldl_cons, ih]
    simp [History.handle]

/- Only a step in the last 180 s before 2^31 leaves a debounce to overflow an `int`. -/
theorem stepTs_int {p : SiteProperties} (h : Fits p.ts)
    (hint : p.ts + stepUpDebounceSeconds < 2 ^ 31 ∨ 2 ^ 31 ≤ p.ts) :
    stepTs p + stepUpDebounceSeconds < 2 ^ 31 := by
  have hts := stepTs_emod h
  have hlt := Int.bmod_lt (x := p.ts) (m := 2 ^ 32) (by decide)
  unfold stepTs stepUpDebounceSeconds at *
  omega

/-- Whatever the strategies answer, and whatever the clock shows as long as the debounce
after it ends within 32 bits: every update adjusts each strategy once and steps at most
one, the world changes by these calls and the queries between them, and over the whole
run a step down comes at least 120 s, a step up at least 180 s after the step before it.
Outside the last 180 s before 2^31 the sums of the debounce are `int`s all along. -/
theorem power_manager_run (symbols : SymbolRepository σ) (world : σ) (updates : List (Update σ))
    (hfits : ∀ u ∈ updates, Fits u.siteProperties.ts) :
    let h := updates.foldl (History.handle symbols) (History.initial world)
    h.records.map Record.update = updates ∧ (∀ r ∈ h.records, r.AdjustsOnce) ∧
      Carried symbols h.records world h.manager.world ∧ h.steps.IsChain Spaced ∧
      ((∀ u ∈ updates, u.siteProperties.ts + stepUpDebounceSeconds < 2 ^ 31 ∨
          2 ^ 31 ≤ u.siteProperties.ts) →
        h.manager.lastStepTs + stepUpDebounceSeconds < 2 ^ 31) := by
  intro h
  have hi : h.Inv symbols world := Runs.foldl_invariant_of
    (fun h u hu hi => History.handle_inv symbols world h u hu hi) hfits _
    (History.initial_inv symbols world)
  have hupdates : h.records.map Record.update = updates := records_foldl_handle symbols updates _
  refine ⟨hupdates, hi.adjustsOnce, hi.carried, hi.spaced, fun hint => ?_⟩
  rcases hi.stored with h0 | ⟨r, hr, hts, hstored⟩
  · rw [h0]
    decide
  · have hmem : r.update ∈ updates := hupdates ▸ List.mem_map_of_mem hr
    rw [hstored]
    exact stepTs_int hts (hint r.update hmem)

/- Always wants the step up, and the step down where told so. -/
def restless (thingId : Name) (down : Bool) : Strategy Unit where
  thingId := thingId
  priority := 0
  wantsToStepDown _ _ := (down, ())
  wantsToStepUp _ _ := (true, ())
  adjust _ _ _ := ()

def restlessUpdate (down : Bool) (ts : ℤ) : Update Unit :=
  ⟨[restless "heater".toList down, restless "relay".toList down], ⟨ts, 0, 0, 0, 0⟩⟩

theorem power_manager_run_restless :
    let h := [restlessUpdate true 1000, restlessUpdate true 1119, restlessUpdate false 1179,
      restlessUpdate false 1180, restlessUpdate true 1300].foldl
        (History.handle ⟨fun _ _ w => w⟩) (History.initial ())
    h.steps = [(1000, .Down), (1180, .Up), (1300, .Down)] ∧ h.steps.IsChain Spaced := by
  intro h
  have hrun := power_manager_run ⟨fun _ _ w => w⟩ () [restlessUpdate true 1000,
    restlessUpdate true 1119, restlessUpdate false 1179, restlessUpdate false 1180,
    restlessUpdate true 1300] (by decide)
  exact ⟨by decide +kernel, hrun.2.2.2.1⟩

/- At 4294967290 the sum of the debounce wraps: the step down is followed by a step up in
the same update, and both again five seconds later. -/
theorem not_power_manager_run :
    let h := [restlessUpdate true 4294967290, restlessUpdate true 4294967295].foldl
      (History.handle ⟨fun _ _ w => w⟩) (History.initial ())
    h.steps = [(4294967290, .Down), (4294967290, .Up), (4294967295, .Down), (4294967295, .Up)] ∧
      ¬ h.steps.IsChain Spaced ∧ ∀ r ∈ h.records, ¬ r.AdjustsOnce := by
  intro h
  have hsteps : h.steps = [(4294967290, .Down), (4294967290, .Up), (4294967295, .Down),
    (4294967295, .Up)] := by decide +kernel
  refine ⟨hsteps, ?_, ?_⟩
  · rw [hsteps]
    intro hchain
    have hspaced : (4294967290 : ℤ) ≥ 4294967290 + 180 := (List.isChain_cons_cons.mp hchain).1
    omega
  · have htwo : ∀ r ∈ h.records, ¬ (r.calls.filter fun c => c.2 ≠ .Keep).length ≤ 1 := by
      decide +kernel
    exact fun r hr honce => htwo r hr honce.2

end Iotic.Strategies
