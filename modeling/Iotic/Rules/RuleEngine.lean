import Iotic.Lib.Runs
import Iotic.Rules.StrategyFactory
import Mathlib.Logic.Function.Basic

/-!
# Which things the rule engine listens to (RuleEngine.cpp)

The engine subscribes to the things its rules mention, so that their readings
reach the symbol table. A thing that is not there yet waits in `dependentThings`.
-/

namespace Iotic.Rules
open Iotic.Config Iotic.Things Iotic.Strategies

/- The engine with the repositories it is given. `subscriptions` are the things whose
observable the engine has subscribed to; a thing that is gone takes its observable
with it, so an entry is never taken out. -/
structure RuleEngine where
  things : Name → Option Thing
  symbolTable : SymbolTable
  strategies : List MadeStrategy
  dependentThings : List Name
  subscribedThings : List Name
  subscriptions : List Thing

namespace RuleEngine

def construct : RuleEngine := ⟨fun _ => none, [], [], [], [], []⟩

/-! ### The handlers -/

def subscribe (e : RuleEngine) (thing : Thing) : RuleEngine :=
  if thing.id ∈ e.subscribedThings then e
  else { e with
    subscriptions := thing :: e.subscriptions
    subscribedThings := e.subscribedThings.insert thing.id }

/- One iteration of subscribeDependencies, at `*it`. -/
def subscribeDependency (e : RuleEngine) (id : Name) : RuleEngine :=
  match e.things id with
  | some thing =>
    let e := e.subscribe thing
    { e with dependentThings := e.dependentThings.filter fun x => x ≠ id }
  | none => e

def subscribeDependencies (e : RuleEngine) : RuleEngine :=
  e.dependentThings.foldl subscribeDependency e

def addDependency (e : RuleEngine) (id : Name) : RuleEngine :=
  if id ∈ e.subscribedThings then e
  else { e with dependentThings := e.dependentThings.insert id }

/- `symbol.substr(0, symbol.find("."))`. -/
def thingOf (symbol : Name) : Name := symbol.takeWhile fun c => c ≠ '.'

/- The subscription to thingAdded. Making the strategy may set properties of the thing;
`published` are the symbols that this and nothing else puts into the table. -/
def onThingAdded (parser : Parser) (cfg : ConfigRepository) (e : RuleEngine) (thing : Thing)
    (published : List Name) : RuleEngine :=
  let e := e.subscribeDependencies
  let (strategy, symbolTable) := StrategyFactory.from parser cfg e.symbolTable thing
  let e := { e with symbolTable := resolveSymbols symbolTable published }
  match strategy with
  | none => e
  | some strategy =>
    let e := { e with strategies := addStrategy MadeStrategy.priority e.strategies strategy }
    let e := e.symbolTable.foldl (fun e symbol => e.addDependency (thingOf symbol)) e
    (e.addDependency thing.id).subscribeDependencies

/- The subscription to thingRemoved. -/
def onThingRemoved (e : RuleEngine) (id : Name) : RuleEngine :=
  { e with subscribedThings := e.subscribedThings.filter fun x => x ≠ id }

/-! ### Runs -/

/- A thing is announced when it is in the repository; a property of a subscribed
thing that changes sets a symbol. -/
inductive Event
  | thingAdded (thing : Thing) (published : List Name)
  | thingRemoved (id : Name)
  | symbolSet (symbol : Name)

def handle (parser : Parser) (cfg : ConfigRepository) (e : RuleEngine) : Event → RuleEngine
  | .thingAdded thing published =>
    onThingAdded parser cfg { e with things := Function.update e.things thing.id (some thing) }
      thing published
  | .thingRemoved id =>
    let e := { e with
      things := Function.update e.things id none
      strategies := eraseStrategies MadeStrategy.thingId e.strategies id }
    e.onThingRemoved id
  | .symbolSet symbol => { e with symbolTable := e.symbolTable.insert symbol }

/- A thing some rule of the list mentions. -/
def Used (strategies : List MadeStrategy) (id : Name) : Prop :=
  ∃ s ∈ strategies, ∃ symbol ∈ s.kind.symbols, thingOf symbol = id

/- Every thing in use that is there is subscribed, as the object it now is. -/
def Listens (e : RuleEngine) : Prop :=
  ∀ id thing, Used e.strategies id → e.things id = some thing →
    id ∈ e.subscribedThings ∧ thing ∈ e.subscriptions

/-! ### What a subscription changes -/

/- The repository's keys are the ids, and a subscribed id stands for the thing that is
there now. -/
structure Tracked (e : RuleEngine) : Prop where
  id_eq : ∀ id thing, e.things id = some thing → thing.id = id
  current : ∀ id ∈ e.subscribedThings, ∃ thing, e.things id = some thing ∧ thing ∈ e.subscriptions

/- `e'` is `e` after some dependencies have been looked up: the ones that are there are
subscribed, and nothing else has changed. -/
structure Subscribed (ids : List Name) (e e' : RuleEngine) : Prop where
  things : e'.things = e.things
  symbolTable : e'.symbolTable = e.symbolTable
  strategies : e'.strategies = e.strategies
  tracked : e'.Tracked
  subscribed : ∀ x, x ∈ e'.subscribedThings ↔
    x ∈ e.subscribedThings ∨ (x ∈ ids ∧ (e.things x).isSome)
  dependent : ∀ x, x ∈ e'.dependentThings ↔
    x ∈ e.dependentThings ∧ ¬ (x ∈ ids ∧ (e.things x).isSome)

theorem subscribeDependency_subscribed {e : RuleEngine} (h : e.Tracked) (id : Name) :
    Subscribed [id] e (e.subscribeDependency id) := by
  unfold subscribeDependency
  cases hid : e.things id with
  | none =>
    have hsome : ∀ x, ¬ (x ∈ [id] ∧ (e.things x).isSome) := fun x hx => by
      simp [List.mem_singleton.mp hx.1, hid] at hx
    refine ⟨rfl, rfl, rfl, h, fun x => ?_, fun x => ?_⟩
    · simp only [hsome x, or_false]
    · simp only [hsome x, not_false_eq_true, and_true]
  | some thing =>
    have heq : thing.id = id := h.id_eq id thing hid
    have hsome : ∀ x, (x ∈ [id] ∧ (e.things x).isSome) ↔ x = id := fun x => by
      rw [List.mem_singleton]
      constructor
      · exact fun hx => hx.1
      · intro hx
        simp [hx, hid]
    unfold subscribe
    by_cases hs : thing.id ∈ e.subscribedThings
    · simp only [if_pos hs]
      refine ⟨rfl, rfl, rfl, ⟨h.id_eq, h.current⟩, fun x => ?_, fun x => ?_⟩
      · rw [hsome]
        constructor
        · exact Or.inl
        · intro hx
          rcases hx with hx | rfl
          · exact hx
          · exact heq ▸ hs
      · simp only [hsome, List.mem_filter, decide_eq_true_eq, ne_eq]
    · simp only [if_neg hs]
      refine ⟨rfl, rfl, rfl, ⟨h.id_eq, fun x hx => ?_⟩, fun x => ?_, fun x => ?_⟩
      · rcases List.mem_insert_iff.mp hx with rfl | hx
        · exact ⟨thing, heq ▸ hid, List.mem_cons_self⟩
        · obtain ⟨t, ht, hm⟩ := h.current x hx
          exact ⟨t, ht, List.mem_cons_of_mem thing hm⟩
      · simp only [hsome, heq, List.mem_insert_iff]
        exact or_comm
      · simp only [hsome, List.mem_filter, decide_eq_true_eq, ne_eq]

theorem Subscribed.trans {ids ids' : List Name} {e e' e'' : RuleEngine} (h : Subscribed ids e e')
    (h' : Subscribed ids' e' e'') : Subscribed (ids ++ ids') e e'' := by
  refine ⟨h'.things.trans h.things, h'.symbolTable.trans h.symbolTable,
    h'.strategies.trans h.strategies, h'.tracked, fun x => ?_, fun x => ?_⟩
  · rw [h'.subscribed, h.subscribed, h.things, List.mem_append]
    tauto
  · rw [h'.dependent, h.dependent, h.things, List.mem_append]
    tauto

theorem foldl_subscribed (ids : List Name) {e : RuleEngine} (h : e.Tracked) :
    Subscribed ids e (ids.foldl subscribeDependency e) := by
  induction ids generalizing e with
  | nil => exact ⟨rfl, rfl, rfl, h, by simp, by simp⟩
  | cons id ids ih =>
    have h1 := subscribeDependency_subscribed h id
    exact h1.trans (ih h1.tracked)

/- Afterwards no dependency that is there is still waiting. -/
theorem subscribeDependencies_subscribed {e : RuleEngine} (h : e.Tracked) :
    Subscribed e.dependentThings e e.subscribeDependencies := foldl_subscribed e.dependentThings h

/- `e'` is `e` with more dependencies. -/
structure Depends (ids : List Name) (e e' : RuleEngine) : Prop where
  things : e'.things = e.things
  symbolTable : e'.symbolTable = e.symbolTable
  strategies : e'.strategies = e.strategies
  subscribedThings : e'.subscribedThings = e.subscribedThings
  subscriptions : e'.subscriptions = e.subscriptions
  dependent : ∀ x, x ∈ e'.dependentThings ↔
    x ∈ e.dependentThings ∨ (x ∈ ids ∧ x ∉ e.subscribedThings)

theorem addDependency_depends (e : RuleEngine) (id : Name) : Depends [id] e (e.addDependency id) := by
  unfold addDependency
  split
  next hs =>
    refine ⟨rfl, rfl, rfl, rfl, rfl, fun x => ?_⟩
    have hx : ¬ (x ∈ [id] ∧ x ∉ e.subscribedThings) := fun hx =>
      hx.2 (List.mem_singleton.mp hx.1 ▸ hs)
    simp only [hx, or_false]
  next hs =>
    refine ⟨rfl, rfl, rfl, rfl, rfl, fun x => ?_⟩
    simp only [List.mem_insert_iff, List.mem_singleton]
    constructor
    · intro hx
      rcases hx with rfl | hx
      · exact Or.inr ⟨rfl, hs⟩
      · exact Or.inl hx
    · intro hx
      rcases hx with hx | ⟨rfl, _⟩
      · exact Or.inr hx
      · exact Or.inl rfl

theorem Depends.trans {ids ids' : List Name} {e e' e'' : RuleEngine} (h : Depends ids e e')
    (h' : Depends ids' e' e'') : Depends (ids ++ ids') e e'' := by
  refine ⟨h'.things.trans h.things, h'.symbolTable.trans h.symbolTable,
    h'.strategies.trans h.strategies, h'.subscribedThings.trans h.subscribedThings,
    h'.subscriptions.trans h.subscriptions, fun x => ?_⟩
  rw [h'.dependent, h.dependent, h.subscribedThings, List.mem_append]
  tauto

theorem Depends.tracked {ids : List Name} {e e' : RuleEngine} (h : Depends ids e e')
    (ht : e.Tracked) : e'.Tracked where
  id_eq := fun id thing hid => ht.id_eq id thing (h.things ▸ hid)
  current := fun id hid => by
    rw [h.things, h.subscriptions]
    exact ht.current id (h.subscribedThings ▸ hid)

theorem foldl_depends (symbols : List Name) (e : RuleEngine) :
    Depends (symbols.map thingOf) e
      (symbols.foldl (fun e symbol => e.addDependency (thingOf symbol)) e) := by
  induction symbols generalizing e with
  | nil => exact ⟨rfl, rfl, rfl, rfl, rfl, by simp⟩
  | cons s symbols ih => exact (addDependency_depends e (thingOf s)).trans (ih _)

/- What the handler of a new thing does: it looks up the dependencies, and with a
strategy made it adds the dependencies of the whole table and looks up again. -/
theorem onThingAdded_cases (parser : Parser) (cfg : ConfigRepository) {e : RuleEngine}
    (h : e.Tracked) (thing : Thing) (published : List Name) :
    ∃ e1 table, Subscribed e.dependentThings e e1 ∧ (∀ x ∈ e.symbolTable, x ∈ table) ∧
      ((hasStrategy parser cfg thing = false ∧
          e.onThingAdded parser cfg thing published = { e1 with symbolTable := table }) ∨
        (∃ s e2, hasStrategy parser cfg thing = true ∧ (∀ x ∈ s.kind.symbols, x ∈ table) ∧
          Depends (table.map thingOf ++ [thing.id])
            { e1 with symbolTable := table,
                      strategies := addStrategy MadeStrategy.priority e1.strategies s } e2 ∧
          e.onThingAdded parser cfg thing published = e2.subscribeDependencies)) := by
  have h1 := subscribeDependencies_subscribed h
  obtain ⟨hgrow, hsymbols⟩ := from_resolved parser cfg e.subscribeDependencies.symbolTable thing
  have hhas := hasStrategy_eq parser cfg e.subscribeDependencies.symbolTable thing
  unfold onThingAdded
  generalize e.subscribeDependencies = e1 at h1 hgrow hsymbols hhas ⊢
  dsimp only
  generalize StrategyFactory.from parser cfg e1.symbolTable thing = r at hgrow hsymbols hhas ⊢
  obtain ⟨strategy, table⟩ := r
  dsimp only at hgrow hsymbols hhas ⊢
  have htable : ∀ x ∈ table, x ∈ resolveSymbols table published := fun x hx =>
    mem_resolveSymbols.mpr (Or.inl hx)
  refine ⟨e1, resolveSymbols table published, h1, fun x hx => htable x (hgrow x ?_), ?_⟩
  · rwa [h1.symbolTable]
  cases strategy with
  | none => exact Or.inl ⟨hhas, rfl⟩
  | some s =>
    exact Or.inr ⟨s, _, hhas, fun x hx => htable x (hsymbols s rfl x hx),
      (foldl_depends _ _).trans (addDependency_depends _ _), rfl⟩

/-! ### Runs that keep listening -/

/- What holds after every event of such a run. -/
structure Inv (e : RuleEngine) : Prop where
  tracked : e.Tracked
  resolved : ∀ s ∈ e.strategies, ∀ x ∈ s.kind.symbols, x ∈ e.symbolTable
  listens : ∀ id, Used e.strategies id → (e.things id).isSome → id ∈ e.subscribedThings

theorem Inv.good {e : RuleEngine} (h : e.Inv) : e.Listens := by
  intro id thing hu ht
  have hs := h.listens id hu (by rw [ht]; rfl)
  obtain ⟨t, ht', hm⟩ := h.tracked.current id hs
  obtain rfl := Option.some.inj (ht'.symm.trans ht)
  exact ⟨hs, hm⟩

/- An id that is still subscribed is so for this very object, and a thing that gets no
strategy of its own is subscribed or waits in `dependentThings` if a rule mentions it. -/
def Event.Safe (parser : Parser) (cfg : ConfigRepository) (e : RuleEngine) : Event → Prop
  | .thingAdded thing _ => (thing.id ∈ e.subscribedThings → thing ∈ e.subscriptions) ∧
    (hasStrategy parser cfg thing = false → Used e.strategies thing.id →
      thing.id ∈ e.subscribedThings ∨ thing.id ∈ e.dependentThings)
  | _ => True

theorem construct_inv : construct.Inv where
  tracked := ⟨fun _ _ h => (nomatch h), fun _ h => (nomatch h)⟩
  resolved := fun _ h => (nomatch h)
  listens := fun _ _ h => (nomatch h)

/- The repository has the thing before the engine is told of it. -/
theorem Tracked.announced {e : RuleEngine} (h : e.Tracked) {thing : Thing}
    (hsame : thing.id ∈ e.subscribedThings → thing ∈ e.subscriptions) :
    Tracked { e with things := Function.update e.things thing.id (some thing) } where
  id_eq := fun id t ht => by
    dsimp only at ht
    rw [Function.update_apply] at ht
    split_ifs at ht with hid
    · obtain rfl := Option.some.inj ht
      exact hid.symm
    · exact h.id_eq id t ht
  current := fun id hid => by
    by_cases hne : id = thing.id
    · subst hne
      exact ⟨thing, Function.update_self _ _ _, hsame hid⟩
    · obtain ⟨t, ht, hm⟩ := h.current id hid
      exact ⟨t, by rw [← ht]; exact Function.update_of_ne hne _ _, hm⟩

theorem Used.mono {l l' : List MadeStrategy} {id : Name} (h : Used l id) (hs : ∀ s ∈ l, s ∈ l') :
    Used l' id := by
  obtain ⟨s, hl, hx⟩ := h
  exact ⟨s, hs s hl, hx⟩

/- What is used and there has only to wait for the lookup. -/
theorem subscribeDependencies_inv {e : RuleEngine} (ht : e.Tracked)
    (hresolved : ∀ s ∈ e.strategies, ∀ x ∈ s.kind.symbols, x ∈ e.symbolTable)
    (hwaits : ∀ id, Used e.strategies id → id ∈ e.subscribedThings ∨ id ∈ e.dependentThings) :
    e.subscribeDependencies.Inv := by
  have h := subscribeDependencies_subscribed ht
  refine ⟨h.tracked, fun s hs x hx => ?_, fun id hu hthere => ?_⟩
  · rw [h.strategies] at hs
    rw [h.symbolTable]
    exact hresolved s hs x hx
  · rw [h.strategies] at hu
    rw [h.things] at hthere
    rw [h.subscribed]
    exact (hwaits id hu).imp_right fun hdep => ⟨hdep, hthere⟩

theorem onThingAdded_inv (parser : Parser) (cfg : ConfigRepository) {e : RuleEngine} (h : e.Inv)
    (thing : Thing) (published : List Name)
    (hsafe : (Event.thingAdded thing published).Safe parser cfg e) :
    (e.handle parser cfg (.thingAdded thing published)).Inv := by
  obtain ⟨hsame, hwaits⟩ := hsafe
  obtain ⟨e1, table, h1, hgrow, hcases⟩ :=
    onThingAdded_cases parser cfg (h.tracked.announced hsame) thing published
  have hresolved : ∀ s ∈ e1.strategies, ∀ x ∈ s.kind.symbols, x ∈ table := fun s hs x hx => by
    rw [h1.strategies] at hs
    exact hgrow x (h.resolved s hs x hx)
  rcases hcases with ⟨hnone, heq⟩ | ⟨s, e2, _, hsymbols, h2, heq⟩
  · show (onThingAdded _ _ _ _ _).Inv
    rw [heq]
    refine ⟨⟨h1.tracked.id_eq, h1.tracked.current⟩, hresolved, fun id hu hthere => ?_⟩
    dsimp only at hu hthere ⊢
    rw [h1.strategies] at hu
    rw [h1.things] at hthere
    rw [h1.subscribed]
    by_cases hid : id = thing.id
    · subst hid
      exact (hwaits hnone hu).imp_right fun hdep => ⟨hdep, hthere⟩
    · dsimp only at hthere
      rw [Function.update_of_ne hid] at hthere
      exact Or.inl (h.listens id hu hthere)
  · show (onThingAdded _ _ _ _ _).Inv
    rw [heq]
    have hresolved2 : ∀ s' ∈ e2.strategies, ∀ x ∈ s'.kind.symbols, x ∈ table := fun s' hs' x hx => by
      rw [h2.strategies, mem_addStrategy] at hs'
      rcases hs' with hs' | rfl
      · exact hresolved s' hs' x hx
      · exact hsymbols x hx
    refine subscribeDependencies_inv (h2.tracked ⟨h1.tracked.id_eq, h1.tracked.current⟩)
      (fun s' hs' x hx => ?_) fun id hu => ?_
    · rw [h2.symbolTable]
      exact hresolved2 s' hs' x hx
    · obtain ⟨s', hs', x, hx, rfl⟩ := hu
      rw [h2.subscribedThings, h2.dependent]
      by_cases hsub : thingOf x ∈ e1.subscribedThings
      · exact Or.inl hsub
      · exact Or.inr (Or.inr
          ⟨List.mem_append_left _ (List.mem_map_of_mem (hresolved2 s' hs' x hx)), hsub⟩)

theorem onThingRemoved_inv {parser : Parser} {cfg : ConfigRepository} {e : RuleEngine}
    (h : e.Inv) (id : Name) : (e.handle parser cfg (.thingRemoved id)).Inv := by
  refine ⟨⟨fun x t ht => ?_, fun x hx => ?_⟩, fun s hs x hx => ?_, fun x hu ht => ?_⟩
  · dsimp only [handle, onThingRemoved] at ht
    rw [Function.update_apply] at ht
    split_ifs at ht
    exact h.tracked.id_eq x t ht
  · dsimp only [handle, onThingRemoved] at hx ⊢
    rw [List.mem_filter, decide_eq_true_iff] at hx
    obtain ⟨t, ht, hm⟩ := h.tracked.current x hx.1
    exact ⟨t, by rw [Function.update_of_ne hx.2, ht], hm⟩
  · exact h.resolved s (mem_eraseStrategies.mp hs).1 x hx
  · dsimp only [handle, onThingRemoved] at hu ht ⊢
    rw [Function.update_apply] at ht
    split_ifs at ht with hx
    · cases ht
    · rw [List.mem_filter, decide_eq_true_iff]
      exact ⟨h.listens x (hu.mono fun s hs => (mem_eraseStrategies.mp hs).1) ht, hx⟩

theorem symbolSet_inv {parser : Parser} {cfg : ConfigRepository} {e : RuleEngine} (h : e.Inv)
    (symbol : Name) : (e.handle parser cfg (.symbolSet symbol)).Inv :=
  ⟨⟨h.tracked.id_eq, h.tracked.current⟩,
    fun s hs x hx => List.mem_insert_of_mem (h.resolved s hs x hx), h.listens⟩

theorem handle_inv {parser : Parser} {cfg : ConfigRepository} {e : RuleEngine} (h : e.Inv)
    {event : Event} (hsafe : event.Safe parser cfg e) : (e.handle parser cfg event).Inv := by
  cases event with
  | thingAdded thing published => exact onThingAdded_inv parser cfg h thing published hsafe
  | thingRemoved id => exact onThingRemoved_inv h id
  | symbolSet symbol => exact symbolSet_inv h symbol

/- Through every run whose additions are safe the engine listens to all it uses. -/
theorem listens_run (parser : Parser) (cfg : ConfigRepository) (events : List Event)
    (e : RuleEngine)
    (hrun : Runs.Run (fun e event e' => event.Safe parser cfg e ∧ e' = e.handle parser cfg event)
      construct events e) : e.Listens := by
  have hinv : e.Inv := hrun.invariant (fun s event t h hs => by
    obtain ⟨hsafe, rfl⟩ := hs
    exact handle_inv h hsafe) construct_inv
  exact hinv.good

/- An addition that is not safe, of a thing that is not subscribed, is not listened to. -/
theorem not_listens_of_not_safe {parser : Parser} {cfg : ConfigRepository} {e : RuleEngine}
    (h : e.Inv) {thing : Thing} {published : List Name} (hn : thing.id ∉ e.subscribedThings)
    (hsafe : ¬ (Event.thingAdded thing published).Safe parser cfg e) :
    ¬ (e.handle parser cfg (.thingAdded thing published)).Listens := by
  have hsame : thing.id ∈ e.subscribedThings → thing ∈ e.subscriptions := fun hs => absurd hs hn
  have hwaits : ¬ (hasStrategy parser cfg thing = false → Used e.strategies thing.id →
      thing.id ∈ e.subscribedThings ∨ thing.id ∈ e.dependentThings) :=
    fun hw => hsafe ⟨hsame, hw⟩
  simp only [Classical.not_imp, not_or] at hwaits
  obtain ⟨hnone, hu, _, hdep⟩ := hwaits
  obtain ⟨e1, table, h1, _, hcases⟩ :=
    onThingAdded_cases parser cfg (h.tracked.announced hsame) thing published
  rcases hcases with ⟨_, heq⟩ | ⟨s, e2, hsome, _⟩
  · show ¬ (onThingAdded _ _ _ _ _).Listens
    rw [heq]
    intro hlistens
    have hthere : e1.things thing.id = some thing := by
      rw [h1.things]
      exact Function.update_self _ _ _
    have hs := (hlistens thing.id thing (h1.strategies ▸ hu) hthere).1
    rcases (h1.subscribed _).mp hs with hs | hs
    · exact hn hs
    · exact hdep hs.1
  · rw [hnone] at hsome
    cases hsome

/-! ### A meter that comes back -/

/- Expressions of the form "symbol operator number". -/
def comparisons : Parser := ⟨fun expr => (true, [expr.takeWhile fun c => c ≠ ' '])⟩

def relayConfig : ConfigRepository where
  configTable table key :=
    if table = "relay".toList then
      match key with
      | .on => some (.string "meter.power > 100".toList)
      | .off => some (.string "meter.power < 50".toList)
      | _ => none
    else none

def relay : Thing := ⟨"relay".toList, .Relay, 0⟩

def meter (object : ℕ) : Thing := ⟨"meter".toList, .other 0, object⟩

def after (events : List Event) : RuleEngine :=
  events.foldl (fun e event => e.handle comparisons relayConfig event) construct

/- The meter is announced first: then it is there when the relay's rule mentions it. -/
def relayFollows : List Event := [.thingAdded (meter 1) [], .thingAdded relay []]

def meterReturns : List Event :=
  relayFollows ++ [.thingRemoved "meter".toList, .thingAdded (meter 2) []]

def relayRule : MadeStrategy :=
  ⟨"relay".toList, 0, .ruleActuation ["meter.power".toList] ["meter.power".toList]⟩

theorem relayRule_follows : relayRule ∈ (after relayFollows).strategies :=
  mem_addStrategy.mpr (Or.inr rfl)

/- Nothing that happens to the meter takes the relay's rule away. -/
theorem relayRule_returns : relayRule ∈ (after meterReturns).strategies :=
  mem_eraseStrategies.mpr ⟨relayRule_follows, by decide⟩

theorem listens_run_relayFollows : (after relayFollows).Listens := by
  have hsecond : (Event.thingAdded relay []).Safe comparisons relayConfig
      (after [.thingAdded (meter 1) []]) :=
    ⟨by decide, fun hnone => absurd hnone (by decide)⟩
  refine listens_run comparisons relayConfig relayFollows _
    (Runs.Run.cons ⟨?_, rfl⟩ (Runs.Run.cons ⟨hsecond, rfl⟩ (Runs.Run.nil _)))
  refine ⟨by decide, ?_⟩
  rintro _ ⟨s, hs, _⟩
  cases hs

theorem not_listens_meterReturns : ¬ ∀ (parser : Parser) (cfg : ConfigRepository)
    (events : List Event) (e : RuleEngine),
    Runs.Run (fun e event e' => e' = e.handle parser cfg event) construct events e →
      e.Listens := by
  intro h
  have hlistens := h comparisons relayConfig meterReturns _
    (Runs.run_foldl _ meterReturns construct)
  have hused : Used (after meterReturns).strategies "meter".toList :=
    ⟨relayRule, relayRule_returns, "meter.power".toList, by decide, by decide⟩
  have hsubscribed := (hlistens _ (meter 2) hused (by decide)).1
  exact absurd hsubscribed (by decide)

end RuleEngine
end Iotic.Rules
