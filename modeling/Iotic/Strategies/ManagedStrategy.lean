import Iotic.Strategies.PowerManager

/-!
# One strategy under the power manager

What an update does to a strategy that shares nothing with the others: it may be asked,
is stepped only where it has just answered yes, and is told to keep otherwise.
-/

namespace Iotic.Strategies
variable {α τ : Type*}

/-! ### A world in two parts -/

/- The strategy acts on its own part, another one on the rest. -/
def Strategy.onOwn (s : Strategy α) : Strategy (α × τ) where
  thingId := s.thingId
  priority := s.priority
  wantsToStepDown p w := ((s.wantsToStepDown p w.1).1, (s.wantsToStepDown p w.1).2, w.2)
  wantsToStepUp p w := ((s.wantsToStepUp p w.1).1, (s.wantsToStepUp p w.1).2, w.2)
  adjust step p w := (s.adjust step p w.1, w.2)

def Strategy.onRest (s : Strategy τ) : Strategy (α × τ) where
  thingId := s.thingId
  priority := s.priority
  wantsToStepDown p w := ((s.wantsToStepDown p w.2).1, w.1, (s.wantsToStepDown p w.2).2)
  wantsToStepUp p w := ((s.wantsToStepUp p w.2).1, w.1, (s.wantsToStepUp p w.2).2)
  adjust step p w := (w.1, s.adjust step p w.2)

def SymbolRepository.onRest (symbols : SymbolRepository τ) : SymbolRepository (α × τ) where
  setSymbol name value w := (w.1, symbols.setSymbol name value w.2)

/- What queries may leave of the strategy's part. -/
inductive Asked (s : Strategy α) (p : SiteProperties) (a : α) : α → Prop
  | nil : Asked s p a a
  | query {b : α} (k : Step) : Asked s p a b → Asked s p a (s.wants p b k).2

/- The strategies of the repository, with one of them the strategy. -/
def among (s : Strategy α) (before after : List (Strategy τ)) : List (Strategy (α × τ)) :=
  before.map Strategy.onRest ++ s.onOwn :: after.map Strategy.onRest

/-! ### The passes -/

/- A query on a world in two parts, which `Strategy.wantsToStepDown` and
`Strategy.wantsToStepUp` are. -/
structure Separate (wants : Strategy (α × τ) → SiteProperties → α × τ → Bool × (α × τ))
    (s : Strategy α) (k : Step) : Prop where
  own : ∀ p w, wants s.onOwn p w = ((s.wants p w.1 k).1, (s.wants p w.1 k).2, w.2)
  rest : ∀ (t : Strategy τ) p w, (wants t.onRest p w).2.1 = w.1

theorem separate_down (s : Strategy α) :
    Separate (τ := τ) Strategy.wantsToStepDown s .Down := ⟨fun _ _ => rfl, fun _ _ _ => rfl⟩

theorem separate_up (s : Strategy α) :
    Separate (τ := τ) Strategy.wantsToStepUp s .Up := ⟨fun _ _ => rfl, fun _ _ _ => rfl⟩

variable {wants : Strategy (α × τ) → SiteProperties → α × τ → Bool × (α × τ)} {s : Strategy α}
  {k : Step}

theorem stepPass_rest (hwants : Separate wants s k) (debounce : ℤ) (p : SiteProperties)
    (l : List (Strategy τ)) (m : PowerManager (α × τ)) :
    (stepPass wants debounce k p (l.map Strategy.onRest) m).manager.world.1 = m.world.1 := by
  induction l generalizing m with
  | nil => rfl
  | cons t l ih =>
    rw [List.map_cons, stepPass]
    dsimp only
    split_ifs
    · exact hwants.rest t p m.world
    · exact (ih _).trans (hwants.rest t p m.world)

/- What the others leave of the list is others. -/
theorem stepPass_rest_strategies
    (wants : Strategy (α × τ) → SiteProperties → α × τ → Bool × (α × τ)) (debounce : ℤ) (k : Step)
    (p : SiteProperties) (l : List (Strategy τ)) (m : PowerManager (α × τ)) : ∃ l' : List (Strategy τ),
      (stepPass wants debounce k p (l.map Strategy.onRest) m).strategies = l'.map Strategy.onRest := by
  induction l generalizing m with
  | nil => exact ⟨[], rfl⟩
  | cons t l ih =>
    rw [List.map_cons, stepPass]
    dsimp only
    split_ifs
    · exact ⟨l, rfl⟩
    · obtain ⟨l', hl'⟩ := ih ⟨m.lastStepTs, (wants t.onRest p m.world).2⟩
      exact ⟨t :: l', by rw [hl', List.map_cons]⟩

/- Every outcome for the strategy: it was stepped and is out of the list, or is still
in it, asked or not. -/
theorem stepPass_among (hwants : Separate wants s k) (debounce : ℤ) (p : SiteProperties)
    (before after : List (Strategy τ)) (m : PowerManager (α × τ)) :
    let r := stepPass wants debounce k p (among s before after) m
    (∃ before' after', r.strategies = among s before' after' ∧
      (r.manager.world.1 = m.world.1 ∨ r.manager.world.1 = (s.wants p m.world.1 k).2)) ∨
    (∃ l : List (Strategy τ), r.strategies = l.map Strategy.onRest ∧ (s.wants p m.world.1 k).1 = true ∧
      Due debounce p m.lastStepTs ∧ r.manager.lastStepTs = stepTs p ∧
      r.manager.world.1 = s.adjust k p (s.wants p m.world.1 k).2) := by
  induction before generalizing m with
  | nil =>
    dsimp only
    rw [show among s [] after = s.onOwn :: after.map Strategy.onRest from rfl, stepPass, hwants.own]
    dsimp only
    split_ifs with h
    · exact Or.inr ⟨after, rfl, h.1, h.2, rfl, rfl⟩
    · obtain ⟨after', hafter⟩ := stepPass_rest_strategies wants debounce k p after
        ⟨m.lastStepTs, (s.wants p m.world.1 k).2, m.world.2⟩
      refine Or.inl ⟨[], after', ?_, Or.inr ?_⟩
      · rw [hafter]
        rfl
      · exact stepPass_rest hwants debounce p after _
  | cons t before ih =>
    dsimp only
    rw [show among s (t :: before) after = t.onRest :: among s before after from rfl, stepPass]
    dsimp only
    have hrest := hwants.rest t p m.world
    split_ifs
    · exact Or.inl ⟨before, after, rfl, Or.inl hrest⟩
    · rcases ih ⟨m.lastStepTs, (wants t.onRest p m.world).2⟩ with
        ⟨before', after', hs, hw⟩ | ⟨l, hs, hyes, hd, ht, hw⟩
      · refine Or.inl ⟨t :: before', after', ?_, ?_⟩
        · rw [hs]
          rfl
        · rwa [hrest] at hw
      · rw [hrest] at hyes hw
        exact Or.inr ⟨t :: l, by rw [hs, List.map_cons], hyes, hd, ht, hw⟩

theorem foldl_keep_rest (p : SiteProperties) (l : List (Strategy τ)) (w : α × τ) :
    ((l.map Strategy.onRest).foldl (fun w s => s.adjust .Keep p w) w).1 = w.1 := by
  induction l generalizing w with
  | nil => rfl
  | cons t l ih => exact ih _

theorem foldl_keep_among (p : SiteProperties) (before after : List (Strategy τ)) (w : α × τ) :
    ((among s before after).foldl (fun w s => s.adjust .Keep p w) w).1 = s.adjust .Keep p w.1 := by
  rw [among, List.foldl_append, List.foldl_cons, foldl_keep_rest]
  show s.adjust .Keep p _ = _
  rw [foldl_keep_rest]

theorem reverse_among (before after : List (Strategy τ)) :
    (among s before after).reverse = among s after.reverse before.reverse := by
  simp [among]

theorem stepDownPass_among (p : SiteProperties) (before after : List (Strategy τ))
    (m : PowerManager (α × τ)) :
    let r := stepDownPass p (among s before after) m
    (∃ before' after', r.strategies = among s before' after' ∧
      (r.manager.world.1 = m.world.1 ∨ r.manager.world.1 = (s.wants p m.world.1 .Down).2)) ∨
    (∃ l : List (Strategy τ), r.strategies = l.map Strategy.onRest ∧
      (s.wants p m.world.1 .Down).1 = true ∧ Due stepDownDebounceSeconds p m.lastStepTs ∧
      r.manager.lastStepTs = stepTs p ∧
      r.manager.world.1 = s.adjust .Down p (s.wants p m.world.1 .Down).2) := by
  dsimp only [stepDownPass]
  rw [reverse_among]
  rcases stepPass_among (separate_down s) stepDownDebounceSeconds p after.reverse before.reverse m with
    ⟨before', after', hs, hw⟩ | ⟨l, hs, hyes, hd, ht, hw⟩
  · exact Or.inl ⟨after'.reverse, before'.reverse, by rw [hs, reverse_among], hw⟩
  · exact Or.inr ⟨l.reverse, by rw [hs, List.map_reverse], hyes, hd, ht, hw⟩

/-! ### The turn of one strategy in an update -/

/- What an update does with the strategy, which it finds at `a` and leaves at `a'`, in
terms of the timestamps of the last step. -/
structure Turn (s : Strategy α) (p : SiteProperties) (last last' : ℤ) (a a' : α) (k : Step) :
    Prop where
  adjusted : ∃ b, Asked s p a b ∧ (s.wants p b k).1 = true ∧ a' = s.adjust k p (s.wants p b k).2
  debounced : k ≠ .Keep → last + debounceSeconds k ≤ p.ts ∧ last' = p.ts
  forward : last ≤ last'
  fits : Fits last'

theorem Asked.of_or {p : SiteProperties} {a b c : α} (h : Asked s p a b)
    (hc : c = b ∨ c = (s.wants p b k).2) : Asked s p a c := by
  rcases hc with rfl | rfl
  · exact h
  · exact h.query k

/- What an outcome does to the timestamp of the last step. -/
theorem Outcome.advances {l : List (Strategy α)} {p : SiteProperties} {last last' : ℤ}
    {calls : List (Call α)} (h : Outcome l p last calls last') (hp : Fits p.ts)
    (hlast : Fits (last % 2 ^ 32)) : last % 2 ^ 32 ≤ last' % 2 ^ 32 ∧ Fits (last' % 2 ^ 32) := by
  rcases h.steps hp with ⟨-, rfl⟩ | ⟨s, k, -, hd, rfl⟩
  · exact ⟨Int.le_refl _, hlast⟩
  · have hle := (due_iff hlast k).mp hd
    have hk : 0 ≤ debounceSeconds k := by cases k <;> decide
    rw [stepTs_emod hp]
    exact ⟨by omega, hp⟩

/-- In every update the strategy has one turn, whatever the others want: it keeps, or it
is stepped, its debounce having passed, right after it has answered yes. -/
theorem onSiteProperties_turn (symbols : SymbolRepository τ) (s : Strategy α)
    (before after : List (Strategy τ)) {p : SiteProperties} (hp : Fits p.ts)
    (m : PowerManager (α × τ)) (hm : Fits m.lastStep) :
    let m' := (onSiteProperties symbols.onRest (among s before after) p m).1
    ∃ k, Turn s p m.lastStep m'.lastStep m.world.1 m'.world.1 k := by
  intro m'
  obtain ⟨hforward, hfits⟩ :=
    (onSiteProperties_cases symbols.onRest (among s before after) p m).advances hp hm
  let start : PowerManager (α × τ) := ⟨m.lastStepTs, publishSymbols symbols.onRest p m.world⟩
  let down := stepDownPass p (among s before after) start
  have hupdate : m' = (keepPass p (stepUpPass p down.strategies down.manager).strategies
    (stepUpPass p down.strategies down.manager).manager).manager := rfl
  rcases stepDownPass_among (s := s) p before after start with
    ⟨before', after', hs, hw⟩ | ⟨l, hs, hyes, hd, ht, hw⟩
  · have hasked : Asked s p m.world.1 down.manager.world.1 := Asked.nil.of_or (k := .Down) hw
    rcases stepPass_among (separate_up s) stepUpDebounceSeconds p before' after' down.manager with
      ⟨before'', after'', hs', hw'⟩ | ⟨l, hs', hyes, hd, ht, hw'⟩
    · refine ⟨.Keep, ⟨_, hasked.of_or (k := .Up) hw', rfl, ?_⟩, fun hk => absurd rfl hk, hforward,
        hfits⟩
      rw [hupdate, stepUpPass, hs, hs']
      exact foldl_keep_among p before'' after'' _
    · have hnone : down.manager.lastStepTs = m.lastStepTs := by
        rcases stepDownPass_cases p (among s before after) start with
          ⟨-, -, hsame⟩ | ⟨-, -, -, -, -, -, -, hstepped⟩
        · exact hsame
        · -- the step has just restarted the debounce
          exact absurd (hstepped ▸ hd) (not_due_after_step hp)
      have hlast : m'.lastStep = p.ts := by
        rw [PowerManager.lastStep, hupdate]
        show (stepUpPass p down.strategies down.manager).manager.lastStepTs % 2 ^ 32 = p.ts
        rw [stepUpPass, hs, ht, stepTs_emod hp]
      refine ⟨.Up, ⟨_, hasked, hyes, ?_⟩, fun _ => ⟨(due_iff hm .Up).mp (hnone ▸ hd), hlast⟩, hforward,
        hfits⟩
      rw [hupdate, stepUpPass, hs, hs']
      exact (foldl_keep_rest p l _).trans hw'
  · obtain ⟨-, -, ht'⟩ := stepUpPass_after_step hp down.strategies down.manager ht
    obtain ⟨l', hl'⟩ := stepPass_rest_strategies Strategy.wantsToStepUp stepUpDebounceSeconds .Up p l
      down.manager
    have hlast : m'.lastStep = p.ts := by
      rw [PowerManager.lastStep, hupdate]
      show (stepUpPass p down.strategies down.manager).manager.lastStepTs % 2 ^ 32 = p.ts
      rw [ht', stepTs_emod hp]
    refine ⟨.Down, ⟨_, Asked.nil, hyes, ?_⟩, fun _ => ⟨(due_iff hm .Down).mp hd, hlast⟩, hforward,
      hfits⟩
    rw [hupdate, stepUpPass, hs, hl']
    exact (foldl_keep_rest p l' _).trans ((stepPass_rest (separate_up s) stepUpDebounceSeconds p l
      down.manager).trans hw)

end Iotic.Strategies
