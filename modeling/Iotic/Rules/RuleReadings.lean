import Iotic.Rules.OffsetLookup
import Iotic.Rules.RuleActuation

/-!
# What rules are evaluated on (RuleEngine.cpp, SymbolRepository.cpp, PowerManager.cpp)

A rule reads neither things nor the site: it reads the symbol table, which the engine
fills from the things it listens to and the power manager from every site update. Here
the whole path is run, with all that may happen in between.
-/

namespace Iotic.Rules
open Iotic.Config Iotic.Things Iotic.Strategies Iotic.Webserver AppBackend

/-! ### The symbol table -/

/- The settings of symbols, latest first. -/
abbrev Settings := List (Name × ℤ)

/- A symbol that was asked for before it was set is 0. -/
def resolveSymbol (settings : Settings) (symbol : Name) : ℤ := (settings.lookup symbol).getD 0

/- `thing->id() + "." + toString(key)`. -/
def propertySymbol (thing : Thing) (key : Name) : Name := thing.id ++ '.' :: key

/- What `offsetTable[value]` reads; `pastTable` is what lies beyond the table. -/
def offsetValue (pastTable : ℤ → ℤ) (value : ℤ) : ℤ :=
  if InTable value then offsetTable.getD value.toNat 0 else pastTable value

/- The value a published property sets its symbol to, if it sets it. -/
def symbolValue (pastTable : ℤ → ℤ) (key : Name) (value : ThingPropertyValue) : Option ℤ :=
  if key = "offset".toList then
    match value with
    | .int v => some (offsetValue pastTable v)
    | _ => none
  else
    match value with
    | .int v => some v
    | .bool b => some (if b then 1 else 0)
    | _ => none

def propertySettings (pastTable : ℤ → ℤ) (thing : Thing)
    (properties : List (Name × ThingPropertyValue)) : Settings :=
  properties.filterMap fun p =>
    (symbolValue pastTable p.1 p.2).map fun v => (propertySymbol thing p.1, v)

/- What an object publishes at once, by what `util::toString` makes of the keys. -/
structure Publication where
  thing : Thing
  properties : List (Name × ThingPropertyValue)
  nodup : (properties.map Prod.fst).Nodup

def Publication.settings (pastTable : ℤ → ℤ) (published : Publication) : Settings :=
  propertySettings pastTable published.thing published.properties

/-! ### The rules -/

/- A query: the update that asks, the table it finds, and what the expression evaluates to. -/
structure Query where
  strategy : MadeStrategy
  target : Bool
  siteProperties : SiteProperties
  settings : Settings
  evaluated : Bool

/- `siteProperties` are those of the latest update, `queries` those so far, latest first. -/
structure RulesState (τ : Type) where
  engine : RuleEngine
  config : ConfigRepository
  settings : Settings
  siteProperties : SiteProperties
  lastStepTs : ℤ
  queries : List Query
  others : τ

/- The code around the rules. The members of a rule strategy are kept in `τ`, as is all
else; the other strategies are whatever they are, and what an `adjust` sets on things
may be published at once. -/
structure RulesEnvironment (τ : Type) where
  parser : Parser
  pastTable : ℤ → ℤ
  evaluate : MadeStrategy → Bool → (Name → ℤ) → Bool
  members : MadeStrategy → τ → RuleActuationStrategy
  setMembers : MadeStrategy → RuleActuationStrategy → τ → τ
  setThingProperties : Name → Bool → τ → List Publication × τ
  other : MadeStrategy → Strategy τ
  published : MadeStrategy → Step → SiteProperties → τ → List Publication

namespace RulesState
variable {τ : Type} (env : RulesEnvironment τ)

/- Later settings come first. -/
def setSymbols (w : RulesState τ) (settings : Settings) : RulesState τ :=
  { w with
    engine := { w.engine with
      symbolTable := resolveSymbols w.engine.symbolTable (settings.map Prod.fst) }
    settings := settings.reverse ++ w.settings }

/- The callback of the subscription to the thing. -/
def publish (w : RulesState τ) (published : Publication) : RulesState τ :=
  if published.thing ∈ w.engine.subscriptions then w.setSymbols (published.settings env.pastTable)
  else w

def symbols : SymbolRepository (RulesState τ) := ⟨fun name value w => w.setSymbols [(name, value)]⟩

/-! ### Strategies -/

def ask (s : MadeStrategy) (target : Bool) (w : RulesState τ) : Bool × RulesState τ :=
  let evaluated := env.evaluate s target (resolveSymbol w.settings)
  let r := (env.members s w.others).wantsToStep target evaluated
  (r.1, { w with
    queries := ⟨s, target, w.siteProperties, w.settings, evaluated⟩ :: w.queries
    others := env.setMembers s r.2 w.others })

def adjust (s : MadeStrategy) (step : Step) (w : RulesState τ) : RulesState τ :=
  let r := (env.members s w.others).adjust step
  let w := { w with others := env.setMembers s r.2 w.others }
  match r.1 with
  | some power_control =>
    let set := env.setThingProperties s.thingId power_control w.others
    set.1.foldl (publish env) { w with others := set.2 }
  | none => w

def adjustOther (s : MadeStrategy) (step : Step) (p : SiteProperties) (w : RulesState τ) :
    RulesState τ :=
  (env.published s step p w.others).foldl (publish env)
    { w with others := (env.other s).adjust step p w.others }

def strategy (s : MadeStrategy) : Strategy (RulesState τ) :=
  match s.kind with
  | .ruleActuation _ _ =>
    { thingId := s.thingId
      priority := s.priority
      wantsToStepDown := fun _ w => w.ask env s false
      wantsToStepUp := fun _ w => w.ask env s true
      adjust := fun step _ w => w.adjust env s step }
  | _ =>
    { thingId := s.thingId
      priority := s.priority
      wantsToStepDown := fun p w => (((env.other s).wantsToStepDown p w.others).1,
        { w with others := ((env.other s).wantsToStepDown p w.others).2 })
      wantsToStepUp := fun p w => (((env.other s).wantsToStepUp p w.others).1,
        { w with others := ((env.other s).wantsToStepUp p w.others).2 })
      adjust := fun step p w => w.adjustOther env s step p }

/-! ### Events -/

/- Making a strategy may set the offset of the thing, which is published if the engine
listens to this object by then. -/
def madeSettings (w : RulesState τ) (thing : Thing) : Settings :=
  let making := RuleEngine.subscribeDependencies
    { w.engine with things := Function.update w.engine.things thing.id (some thing) }
  let offset :=
    match WallboxStrategy.from thing with
    | some _ => WallboxStrategy.setsOffset w.config thing
    | none => RuleActuationStrategy.setsOffset env.parser w.config making.symbolTable thing
  if thing ∈ making.subscriptions then
    offset.toList.map fun o => (offsetSymbol thing, offsetValue env.pastTable o)
  else []

inductive Event (τ : Type)
  | thingAdded (thing : Thing)
  | thingRemoved (id : Name)
  | published (publication : Publication)
  | update (p : SiteProperties)
  | outside (config : ConfigRepository) (others : τ)

def handle (w : RulesState τ) : Event τ → RulesState τ
  | .thingAdded thing =>
    { w with
      engine := w.engine.handle env.parser w.config
        (.thingAdded thing ((w.madeSettings env thing).map Prod.fst))
      settings := (w.madeSettings env thing).reverse ++ w.settings }
  | .thingRemoved id =>
    { w with engine := w.engine.handle env.parser w.config (.thingRemoved id) }
  | .published publication => w.publish env publication
  | .update p =>
    let m := (onSiteProperties symbols (w.engine.strategies.map (strategy env)) p
      ⟨w.lastStepTs, { w with siteProperties := p }⟩).1
    { m.world with lastStepTs := m.lastStepTs }
  | .outside config others => { w with config := config, others := others }

def start (config : ConfigRepository) (others : τ) : RulesState τ :=
  ⟨.construct, config, [], ⟨0, 0, 0, 0, 0⟩, 0, [], others⟩

/-! ### Names -/

/- The symbols of things have a dot, those of the site have none. -/
def Dotted (settings : Settings) : Prop := ∀ s ∈ settings, '.' ∈ s.1

theorem dot_mem_propertySymbol (thing : Thing) (key : Name) : '.' ∈ propertySymbol thing key :=
  List.mem_append_right _ List.mem_cons_self

theorem settings_dotted (pastTable : ℤ → ℤ) (published : Publication) :
    Dotted (published.settings pastTable) := by
  intro s hs
  obtain ⟨p, -, hv⟩ := List.mem_filterMap.mp hs
  obtain ⟨v, -, rfl⟩ := Option.map_eq_some_iff.mp hv
  exact dot_mem_propertySymbol published.thing p.1

theorem resolveSymbol_append {recent settings : Settings} {symbol : Name}
    (h : symbol ∉ recent.map Prod.fst) :
    resolveSymbol (recent ++ settings) symbol = resolveSymbol settings symbol := by
  have hnone : recent.lookup symbol = none := List.lookup_eq_none_iff.mpr fun s hs => by
    rw [bne_iff_ne]
    rintro rfl
    exact h (List.mem_map_of_mem hs)
  rw [resolveSymbol, resolveSymbol, List.lookup_append, hnone, Option.none_or]

/-! ### What an update keeps -/

/- What holds of a state whatever the strategies do: what they keep for themselves, set on
things, and ask. -/
structure Kept (I : RulesState τ → Prop) : Prop where
  others : ∀ w lastStepTs others, I w → I { w with lastStepTs := lastStepTs, others := others }
  setSymbols : ∀ w settings, Dotted settings → I w → I (w.setSymbols settings)
  asked : ∀ w s target, I w → I { w with queries := ⟨s, target, w.siteProperties, w.settings,
    env.evaluate s target (resolveSymbol w.settings)⟩ :: w.queries }

section Kept
variable {env} {I : RulesState τ → Prop} (h : Kept env I)
include h

theorem Kept.publish {w : RulesState τ} (hw : I w) (published : Publication) :
    I (w.publish env published) := by
  unfold RulesState.publish
  split_ifs
  · exact h.setSymbols w _ (settings_dotted env.pastTable published) hw
  · exact hw

theorem Kept.publishAll {w : RulesState τ} (hw : I w) (published : List Publication) :
    I (published.foldl (RulesState.publish env) w) :=
  Runs.foldl_invariant (I := I) (fun _ p hw => h.publish hw p) published w hw

theorem Kept.ask {w : RulesState τ} (hw : I w) (s : MadeStrategy) (target : Bool) :
    I (w.ask env s target).2 :=
  h.others _ w.lastStepTs _ (h.asked w s target hw)

theorem Kept.adjust {w : RulesState τ} (hw : I w) (s : MadeStrategy) (step : Step) :
    I (w.adjust env s step) := by
  unfold RulesState.adjust
  dsimp only
  split
  · exact h.publishAll (h.others w w.lastStepTs _ hw) _
  · exact h.others w w.lastStepTs _ hw

theorem Kept.strategy (s : MadeStrategy) : Preserves I (strategy env s) := by
  have hother : ∀ w others, I w → I { w with others := others } := fun w others hw =>
    h.others w w.lastStepTs others hw
  have hadjust : ∀ step p w, I w → I (w.adjustOther env s step p) := fun step p w hw =>
    h.publishAll (hother w _ hw) _
  unfold RulesState.strategy
  cases s.kind with
  | ruleActuation on off =>
    refine ⟨fun _ w hw => h.ask hw s false, fun _ w hw => h.ask hw s true, ?_, ?_, ?_⟩
    · exact fun _ w hw _ => h.adjust (h.ask hw s false) s .Down
    · exact fun _ w hw _ => h.adjust (h.ask hw s true) s .Up
    · exact fun _ w hw => h.adjust hw s .Keep
  | wallbox =>
    refine ⟨fun _ w hw => hother w _ hw, fun _ w hw => hother w _ hw, ?_, ?_, hadjust .Keep⟩
    · exact fun p w hw _ => hadjust .Down p _ (hother w _ hw)
    · exact fun p w hw _ => hadjust .Up p _ (hother w _ hw)
  | multiPhase m =>
    refine ⟨fun _ w hw => hother w _ hw, fun _ w hw => hother w _ hw, ?_, ?_, hadjust .Keep⟩
    · exact fun p w hw _ => hadjust .Down p _ (hother w _ hw)
    · exact fun p w hw _ => hadjust .Up p _ (hother w _ hw)

/- The strategies find the symbols of the site published. -/
theorem Kept.update {w : RulesState τ} {p : SiteProperties}
    (hw : I (publishSymbols symbols p { w with siteProperties := p })) :
    I (w.handle env (.update p)) := by
  have hunpublished : ∀ (l : List (Strategy (RulesState τ))),
      onSiteProperties symbols l p ⟨w.lastStepTs, { w with siteProperties := p }⟩ =
        onSiteProperties ⟨fun _ _ w => w⟩ l p
          ⟨w.lastStepTs, publishSymbols symbols p { w with siteProperties := p }⟩ := fun _ => rfl
  unfold RulesState.handle
  dsimp only
  rw [hunpublished]
  refine h.others _ _ _ (onSiteProperties_preserves _ (fun _ _ _ hw => hw) ?_ p _ hw)
  intro s hs
  obtain ⟨s, -, rfl⟩ := List.mem_map.mp hs
  exact h.strategy s

end Kept

/-! ### The powers of the site -/

def sitePowers (p : SiteProperties) : List (Name × ℤ) :=
  [("short_term_grid_power".toList, p.shortTermGridPower),
    ("long_term_grid_power".toList, p.longTermGridPower), ("grid_power".toList, p.gridPower),
    ("pv_power".toList, p.pvPower)]

/- The symbols of the site have the powers of `p`. -/
def ShowsPowers (p : SiteProperties) (settings : Settings) : Prop :=
  ∀ s ∈ sitePowers p, resolveSymbol settings s.1 = s.2

theorem showsPowers_append {p : SiteProperties} {recent settings : Settings} (h : Dotted recent)
    (hshows : ShowsPowers p settings) : ShowsPowers p (recent ++ settings) := by
  have hplain : ∀ s ∈ sitePowers p, '.' ∉ s.1 := by
    simp only [sitePowers, List.forall_mem_cons, List.not_mem_nil, false_implies, implies_true, and_true]
    decide
  intro s hs
  rw [resolveSymbol_append, hshows s hs]
  intro hmem
  obtain ⟨d, hd, heq⟩ := List.mem_map.mp hmem
  exact hplain s hs (heq ▸ h d hd)

theorem showsPowers_published (w : RulesState τ) (p : SiteProperties) :
    ShowsPowers p (publishSymbols symbols p w).settings := by
  have hsettings : (publishSymbols symbols p w).settings =
      [("pv_power".toList, p.pvPower), ("grid_power".toList, p.gridPower),
        ("long_term_grid_power".toList, p.longTermGridPower),
        ("short_term_grid_power".toList, p.shortTermGridPower)] ++ w.settings := rfl
  rw [hsettings]
  unfold ShowsPowers resolveSymbol sitePowers
  simp only [List.forall_mem_cons, List.not_mem_nil, false_implies, implies_true, and_true]
  exact ⟨rfl, rfl, rfl, rfl⟩

/- Each query so far read the powers of the update that asked, and was answered from the
table it found. -/
def ReadsUpdates (w : RulesState τ) : Prop :=
  ∀ q ∈ w.queries, ShowsPowers q.siteProperties q.settings ∧
    q.evaluated = env.evaluate q.strategy q.target (resolveSymbol q.settings)

theorem kept_readsUpdates (p : SiteProperties) : Kept env fun w =>
    ShowsPowers p w.settings ∧ w.siteProperties = p ∧ w.ReadsUpdates env where
  others := fun _ _ _ h => h
  setSymbols := fun w settings hd h =>
    ⟨showsPowers_append (fun s hs => hd s (List.mem_reverse.mp hs)) h.1, h.2⟩
  asked := fun w s target h => by
    refine ⟨h.1, h.2.1, List.forall_mem_cons.mpr ⟨⟨?_, rfl⟩, h.2.2⟩⟩
    rw [h.2.1]
    exact h.1

theorem handle_readsUpdates {w : RulesState τ} (h : w.ReadsUpdates env) (e : Event τ) :
    (w.handle env e).ReadsUpdates env := by
  cases e with
  | update p =>
    exact ((kept_readsUpdates env p).update ⟨showsPowers_published _ p, rfl, h⟩).2.2
  | published publication =>
    show (w.publish env publication).ReadsUpdates env
    unfold publish
    split_ifs
    · exact h
    · exact h
  | thingAdded thing => exact h
  | thingRemoved id => exact h
  | outside config others => exact h

/-- In any run of the daemon, whenever a rule is asked, its expression reads the powers of
the site from the update that asks: nothing a thing is called or publishes, even while
the update is being handled, gets between. -/
theorem rules_read_update (config : ConfigRepository) (others : τ) (events : List (Event τ)) :
    ∀ q ∈ (events.foldl (handle env) (start config others)).queries,
      ShowsPowers q.siteProperties q.settings ∧
        q.evaluated = env.evaluate q.strategy q.target (resolveSymbol q.settings) := by
  have hstart : (start config others : RulesState τ).ReadsUpdates env := by
    rintro q hq
    cases hq
  exact Runs.foldl_invariant (I := fun w => ReadsUpdates env w)
    (fun _ e h => handle_readsUpdates env h e) events _ hstart

/-! ### The readings of things -/

/- What was set and asked since, each query with what was set before it. -/
def Since (w0 w : RulesState τ) : Prop :=
  ∃ recent asked, w.settings = recent ++ w0.settings ∧ w.queries = asked ++ w0.queries ∧
    ∀ q ∈ asked, ∃ before, before <:+ recent ∧ q.settings = before ++ w0.settings

theorem Since.refl (w : RulesState τ) : w.Since w := 
  ⟨[], [], rfl, rfl, fun _ hq => absurd hq List.not_mem_nil⟩

theorem Since.setSymbols {w0 w : RulesState τ} (h : w0.Since w) (settings : Settings) :
    w0.Since (w.setSymbols settings) := by
  obtain ⟨recent, asked, hsettings, hqueries, hasked⟩ := h
  refine ⟨settings.reverse ++ recent, asked, ?_, hqueries, fun q hq => ?_⟩
  · show settings.reverse ++ w.settings = _
    rw [hsettings, List.append_assoc]
  · obtain ⟨before, hsuffix, heq⟩ := hasked q hq
    exact ⟨before, hsuffix.trans (List.suffix_append _ _), heq⟩

theorem kept_since (w0 : RulesState τ) : Kept env w0.Since where
  others := fun _ _ _ h => h
  setSymbols := fun _ settings _ h => h.setSymbols settings
  asked := fun w s target h => by
    obtain ⟨recent, asked, hsettings, hqueries, hasked⟩ := h
    refine ⟨recent, _ :: asked, hsettings, congrArg _ hqueries, ?_⟩
    exact List.forall_mem_cons.mpr ⟨⟨recent, List.suffix_refl _, hsettings⟩, hasked⟩

theorem handle_since {w0 w : RulesState τ} (h : w0.Since w) (e : Event τ) :
    w0.Since (w.handle env e) := by
  cases e with
  | update p =>
    have hpublished : w0.Since (publishSymbols symbols p { w with siteProperties := p }) :=
      ((((show w0.Since { w with siteProperties := p } from h).setSymbols _).setSymbols _).setSymbols
        _).setSymbols _
    exact (kept_since env w0).update hpublished
  | published publication => exact (kept_since env w0).publish h publication
  | thingAdded thing => exact h.setSymbols (w.madeSettings env thing)
  | thingRemoved id => exact h
  | outside config others => exact h

/- The numbers of a publication, each under its own symbol. -/
theorem lookup_settings {pastTable : ℤ → ℤ} {published : Publication} {key : Name}
    {value : ThingPropertyValue} {v : ℤ} (hp : (key, value) ∈ published.properties)
    (hv : symbolValue pastTable key value = some v) :
    (published.settings pastTable).reverse.lookup (propertySymbol published.thing key) = some v := by
  obtain ⟨earlier, later, hsplit⟩ := List.append_of_mem hp
  have hnodup := published.nodup
  rw [hsplit, List.map_append, List.map_cons] at hnodup
  have hlater : key ∉ later.map Prod.fst :=
    (List.nodup_cons.mp (List.nodup_append.mp hnodup).2.1).1
  have hsettings : published.settings pastTable = propertySettings pastTable published.thing earlier ++
      (propertySymbol published.thing key, v) :: propertySettings pastTable published.thing later := by
    unfold Publication.settings propertySettings
    rw [hsplit, List.filterMap_append, List.filterMap_cons]
    dsimp only
    rw [hv]
    rfl
  rw [hsettings, List.reverse_append, List.reverse_cons, List.append_assoc, List.lookup_append,
    List.lookup_eq_none_iff.mpr, Option.none_or, List.singleton_append, List.lookup_cons_self]
  intro s hs
  rw [bne_iff_ne]
  rintro heq
  obtain ⟨p, hp, hs⟩ := List.mem_filterMap.mp (List.mem_reverse.mp hs)
  obtain ⟨_, -, rfl⟩ := Option.map_eq_some_iff.mp hs
  have hkey : key = p.1 := (List.cons.inj (List.append_cancel_left heq)).2
  exact hlater (hkey ▸ List.mem_map_of_mem hp)

/- Additions are safe for the engine. -/
def Safe (w : RulesState τ) : Event τ → Prop
  | .thingAdded thing =>
    (RuleEngine.Event.thingAdded thing ((w.madeSettings env thing).map Prod.fst)).Safe env.parser
      w.config w.engine
  | _ => True

theorem setSymbols_inv {w : RulesState τ} (h : w.engine.Inv) (settings : Settings) :
    (w.setSymbols settings).engine.Inv :=
  ⟨⟨h.tracked.id_eq, h.tracked.current⟩,
    fun s hs x hx => mem_resolveSymbols.mpr (Or.inl (h.resolved s hs x hx)), h.listens⟩

theorem kept_inv : Kept env fun w : RulesState τ => w.engine.Inv where
  others := fun _ _ _ h => h
  setSymbols := fun _ settings _ h => setSymbols_inv h settings
  asked := fun _ _ _ h => h

theorem handle_inv {w : RulesState τ} (h : w.engine.Inv) {e : Event τ} (hsafe : w.Safe env e) :
    (w.handle env e).engine.Inv := by
  cases e with
  | update p =>
    have hpublished : (publishSymbols symbols p { w with siteProperties := p }).engine.Inv :=
      setSymbols_inv (setSymbols_inv (setSymbols_inv (setSymbols_inv h _) _) _) _
    exact (kept_inv env).update hpublished
  | published publication => exact (kept_inv env).publish h publication
  | thingAdded thing =>
    show (w.engine.handle env.parser w.config (.thingAdded thing _)).Inv
    exact RuleEngine.handle_inv h hsafe
  | thingRemoved id =>
    show (w.engine.handle env.parser w.config (.thingRemoved id)).Inv
    exact RuleEngine.onThingRemoved_inv h id
  | outside config others => exact h

/-- In any run of the daemon up to there whose additions are safe, so that the engine listens
to what its rules use: a number that a thing publishes while some rule mentions the thing
is what every rule reads for it, whatever else happens then, up to the next setting of
this very symbol. -/
theorem rules_read_latest (config : ConfigRepository) (others : τ) (before : List (Event τ))
    (w : RulesState τ)
    (hrun : Runs.Run (fun w e w' => w.Safe env e ∧ w' = w.handle env e) (start config others) before w)
    (published : Publication) (hthere : w.engine.things published.thing.id = some published.thing)
    (hused : RuleEngine.Used w.engine.strategies published.thing.id) (key : Name)
    (value : ThingPropertyValue) (hp : (key, value) ∈ published.properties) (v : ℤ)
    (hv : symbolValue env.pastTable key value = some v) (later : List (Event τ)) :
    let w1 := w.handle env (.published published)
    let w2 := later.foldl (handle env) w1
    let symbol := propertySymbol published.thing key
    ∃ recent asked, w2.settings = recent ++ w1.settings ∧ w2.queries = asked ++ w1.queries ∧
      (symbol ∉ recent.map Prod.fst → resolveSymbol w2.settings symbol = v) ∧
      ∀ q ∈ asked, ∃ sinceThen, sinceThen <:+ recent ∧ q.settings = sinceThen ++ w1.settings ∧
        (symbol ∉ sinceThen.map Prod.fst → resolveSymbol q.settings symbol = v) := by
  intro w1 w2 symbol
  have hinv : w.engine.Inv := hrun.invariant (I := fun w => w.engine.Inv)
    (fun s e t h hs => by
      obtain ⟨hsafe, rfl⟩ := hs
      exact handle_inv env h hsafe) RuleEngine.construct_inv
  have hsubscribed := (hinv.good published.thing.id published.thing hused hthere).2
  have hread : resolveSymbol w1.settings symbol = v := by
    have hw1 : w1 = w.setSymbols (published.settings env.pastTable) := if_pos hsubscribed
    rw [hw1]
    show ((List.reverse _ ++ w.settings).lookup symbol).getD 0 = v
    rw [List.lookup_append, lookup_settings hp hv]
    rfl
  have hsince : w1.Since w2 := Runs.foldl_invariant (I := fun w => w1.Since w)
    (fun _ e h => handle_since env h e) later w1 (Since.refl w1)
  obtain ⟨recent, asked, hsettings, hqueries, hasked⟩ := hsince
  refine ⟨recent, asked, hsettings, hqueries, fun hquiet => ?_, fun q hq => ?_⟩
  · rw [hsettings, resolveSymbol_append hquiet, hread]
  · obtain ⟨sinceThen, hsuffix, heq⟩ := hasked q hq
    refine ⟨sinceThen, hsuffix, heq, fun hquiet => ?_⟩
    rw [heq, resolveSymbol_append hquiet, hread]

/-! ### A meter that is read -/

open RuleEngine

/- A relay that is switched on above 100 and off below 50. -/
def relayEnvironment : RulesEnvironment RuleActuationStrategy where
  parser := comparisons
  pastTable _ := 0
  evaluate _ target read :=
    if target then read "meter.power".toList > 100 else read "meter.power".toList < 50
  members _ m := m
  setMembers _ m _ := m
  setThingProperties _ _ m := ([], m)
  other s := ⟨s.thingId, s.priority, fun _ m => (false, m), fun _ m => (false, m), fun _ _ m => m⟩
  published _ _ _ _ := []

def meterFound : RulesState RuleActuationStrategy :=
  (start relayConfig {}).handle relayEnvironment (.thingAdded (meter 1))

def relayFound : RulesState RuleActuationStrategy :=
  meterFound.handle relayEnvironment (.thingAdded relay)

def meterReading : Publication := ⟨meter 1, [("power".toList, .int 150)], by decide⟩

theorem rules_read_latest_meter :
    let w1 := relayFound.handle relayEnvironment (.published meterReading)
    let w2 := [.update ⟨200, 0, 0, 0, 0⟩].foldl (handle relayEnvironment) w1
    let symbol := propertySymbol (meter 1) "power".toList
    ∃ recent asked, w2.settings = recent ++ w1.settings ∧ w2.queries = asked ++ w1.queries ∧
      (symbol ∉ recent.map Prod.fst → resolveSymbol w2.settings symbol = 150) ∧
      ∀ q ∈ asked, ∃ sinceThen, sinceThen <:+ recent ∧ q.settings = sinceThen ++ w1.settings ∧
        (symbol ∉ sinceThen.map Prod.fst → resolveSymbol q.settings symbol = 150) := by
  have hmeter : (start relayConfig {} : RulesState RuleActuationStrategy).Safe relayEnvironment
      (.thingAdded (meter 1)) := by
    refine ⟨fun h => absurd h List.not_mem_nil, fun _ hu => ?_⟩
    obtain ⟨s, hs, -⟩ := hu
    exact absurd hs List.not_mem_nil
  have hrelay : meterFound.Safe relayEnvironment (.thingAdded relay) :=
    ⟨fun h => absurd h (by decide), fun h => absurd h (by decide)⟩
  have hused : Used relayFound.engine.strategies "meter".toList :=
    ⟨relayRule, mem_addStrategy.mpr (Or.inr rfl), "meter.power".toList, by decide, by decide⟩
  exact rules_read_latest relayEnvironment relayConfig {} [.thingAdded (meter 1), .thingAdded relay]
    relayFound (.cons ⟨hmeter, rfl⟩ (.cons ⟨hrelay, rfl⟩ (.nil _))) meterReading (by decide) hused
    "power".toList (.int 150) List.mem_cons_self 150 rfl [.update ⟨200, 0, 0, 0, 0⟩]

def relayEvents : List (Event RuleActuationStrategy) :=
  [.thingAdded (meter 1), .thingAdded relay, .published meterReading, .update ⟨200, 0, 0, 0, 0⟩]

/- The relay is asked in that update, and goes on. -/
example : (relayEvents.foldl (handle relayEnvironment) (start relayConfig {})).queries.map
    (fun q => (q.target, q.evaluated)) = [(true, true), (false, false)] := by decide +kernel

theorem rules_read_update_relay :
    ∃ q ∈ (relayEvents.foldl (handle relayEnvironment) (start relayConfig {})).queries,
      ShowsPowers q.siteProperties q.settings ∧
        q.evaluated = relayEnvironment.evaluate q.strategy q.target (resolveSymbol q.settings) := by
  have hlength : (relayEvents.foldl (handle relayEnvironment) (start relayConfig {})).queries.length = 2 := by
    decide +kernel
  obtain ⟨q, hq⟩ := List.exists_mem_of_length_pos (hlength ▸ Nat.two_pos)
  exact ⟨q, hq, rules_read_update relayEnvironment relayConfig {} relayEvents q hq⟩

end RulesState
end Iotic.Rules
