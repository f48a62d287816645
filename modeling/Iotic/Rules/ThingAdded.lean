import Iotic.Config.Persistence
import Iotic.Rules.RuleEngine

/-!
# What becomes of an offset when a thing is found again

Three parts of the daemon set the offset of a thing that was added, in the order
in which they subscribed: the configuration restores it, making a strategy may set
it, and from then on what is set is persisted.
-/

namespace Iotic.Rules
open Iotic.Config Iotic.Things

/- The daemon as far as the thing is concerned; `subscribed` once the configuration
listens to the thing's properties. -/
structure Daemon (File : Type) where
  config : Impl File
  symbolTable : SymbolTable
  properties : ThingPropertyMap
  subscribed : Bool

/- `thing->id() + ".offset"`. -/
def offsetSymbol (thing : Thing) : Name := thing.id ++ ".offset".toList

/- The offset that making a wallbox strategy sets: the persisted one. -/
def WallboxStrategy.setsOffset (cfg : ConfigRepository) (thing : Thing) : Option ℤ :=
  if thing.type = .EvStation then
    some (cfg.valueOr TomlValue.int? thing.id .offset defaultOffset)
  else none

def containsSymbol (symbolTable : SymbolTable) (symbol : Name) : Bool := symbolTable.contains symbol

/- The offset that making a rule strategy sets: the default, if the symbol is known
once both expressions are parsed. -/
def RuleActuationStrategy.setsOffset (parser : Parser) (cfg : ConfigRepository)
    (symbolTable : SymbolTable) (thing : Thing) : Option ℤ :=
  match RuleActuationStrategy.from parser cfg symbolTable thing with
  | (none, _) => none
  | (some _, symbolTable) =>
    if containsSymbol symbolTable (offsetSymbol thing) then some defaultOffset else none

namespace Daemon
variable {File : Type}

/- What is set is published to the subscribers of the thing. -/
def setProperties (toml : TomlLibrary File) (thing : Thing) (d : Daemon File)
    (props : ThingPropertyMap) : Daemon File :=
  { d with
    properties := ⟨props.name.or d.properties.name, props.pinned.or d.properties.pinned,
      props.offset.or d.properties.offset⟩
    config := if d.subscribed then d.config.persistProperties toml thing props else d.config }

def setOffset (toml : TomlLibrary File) (thing : Thing) (d : Daemon File) (offset : ℤ) : Daemon File :=
  d.setProperties toml thing { ThingPropertyMap.empty with offset := some offset }

/-! ### The subscriptions to thingAdded -/

/- ConfigRepository: restore, then listen. -/
def restoreProperties (toml : TomlLibrary File) (thing : Thing) (d : Daemon File) : Daemon File :=
  { d.setProperties toml thing (d.config.propertiesOf thing) with subscribed := true }

/- RuleEngine: the wallbox strategy comes before the rule. -/
def makeStrategy (toml : TomlLibrary File) (parser : Parser) (thing : Thing) (d : Daemon File) :
    Daemon File :=
  let cfg := d.config.repository
  let offset := match WallboxStrategy.from thing with
    | some _ => WallboxStrategy.setsOffset cfg thing
    | none => RuleActuationStrategy.setsOffset parser cfg d.symbolTable thing
  let d := { d with symbolTable := (StrategyFactory.from parser cfg d.symbolTable thing).2 }
  offset.elim d fun v => d.setOffset toml thing v

/- The database, the web server and the statistics subscribe later and set none of
the persisted properties. -/
def onThingAdded (toml : TomlLibrary File) (parser : Parser) (thing : Thing) (d : Daemon File) :
    Daemon File :=
  makeStrategy toml parser thing (restoreProperties toml thing d)

/- The configuration is parsed again; symbols and thing are whatever they are by the
time the thing is found. -/
def restart (toml : TomlLibrary File) (before : Impl File) (symbolTable : SymbolTable)
    (properties : ThingPropertyMap) : Option (Daemon File) :=
  (Impl.parseConfigFile toml before.configFile).map fun config =>
    ⟨config, symbolTable, properties, false⟩

/- The thing has the offset and the configuration holds it. -/
structure OffsetKept (d : Daemon File) (thing : Thing) (o : ℤ) : Prop where
  property : d.properties.offset = some o
  persisted : d.config.repository.configTable thing.id .offset = some (.integer o)

end Daemon

/- The condition that loses an offset: no wallbox, a rule that compiles, and the
thing's offset among the symbols known so far or used by the rule. -/
structure RuleResetsOffset (parser : Parser) (cfg : ConfigRepository) (symbolTable : SymbolTable)
    (thing : Thing) : Prop where
  noWallbox : thing.type ≠ .EvStation
  onSet : cfg.valueOr TomlValue.string? thing.id .on [] ≠ []
  offSet : cfg.valueOr TomlValue.string? thing.id .off [] ≠ []
  onCompiles : (parser.compile (cfg.valueOr TomlValue.string? thing.id .on [])).1 = true
  offCompiles : (parser.compile (cfg.valueOr TomlValue.string? thing.id .off [])).1 = true
  known : offsetSymbol thing ∈ symbolTable ∨
    offsetSymbol thing ∈ (parser.compile (cfg.valueOr TomlValue.string? thing.id .on [])).2 ∨
    offsetSymbol thing ∈ (parser.compile (cfg.valueOr TomlValue.string? thing.id .off [])).2

/-! ### What a strategy sets -/

theorem ruleActuation_setsOffset (parser : Parser) (cfg : ConfigRepository)
    (symbolTable : SymbolTable) {thing : Thing} (hthing : thing.type ≠ .EvStation) :
    (RuleResetsOffset parser cfg symbolTable thing ∧
        RuleActuationStrategy.setsOffset parser cfg symbolTable thing = some defaultOffset.1) ∨
      (¬ RuleResetsOffset parser cfg symbolTable thing ∧
        RuleActuationStrategy.setsOffset parser cfg symbolTable thing = none) := by
  unfold RuleActuationStrategy.setsOffset
  rcases ruleActuation_cases parser cfg symbolTable thing with ⟨hcompiles, heq⟩ | ⟨hnot, table, heq, -⟩
  · have hsets : containsSymbol (resolveSymbols (resolveSymbols symbolTable
          (parser.compile (cfg.valueOr TomlValue.string? thing.id .on [])).2)
          (parser.compile (cfg.valueOr TomlValue.string? thing.id .off [])).2)
          (offsetSymbol thing) = true ↔
        offsetSymbol thing ∈ symbolTable ∨
          offsetSymbol thing ∈ (parser.compile (cfg.valueOr TomlValue.string? thing.id .on [])).2 ∨
          offsetSymbol thing ∈ (parser.compile (cfg.valueOr TomlValue.string? thing.id .off [])).2 := by
      simp [containsSymbol, mem_resolveSymbols, or_assoc]
    rw [heq]
    dsimp only
    split_ifs with hknown
    · exact Or.inl ⟨⟨hthing, hcompiles.onSet, hcompiles.offSet, hcompiles.onCompiles,
        hcompiles.offCompiles, hsets.mp hknown⟩, rfl⟩
    · exact Or.inr ⟨fun h => hknown (hsets.mpr h.known), rfl⟩
  · rw [heq]
    exact Or.inr ⟨fun h => hnot ⟨h.onSet, h.offSet, h.onCompiles, h.offCompiles⟩, rfl⟩

/- The condition reads two keys of the configuration. -/
theorem RuleResetsOffset.congr {parser : Parser} {cfg cfg' : ConfigRepository}
    {symbolTable : SymbolTable} {thing : Thing}
    (h : ∀ key, key ≠ .thing_interval → cfg'.configTable thing.id key = cfg.configTable thing.id key) :
    RuleResetsOffset parser cfg' symbolTable thing ↔ RuleResetsOffset parser cfg symbolTable thing := by
  have hon : cfg'.valueOr TomlValue.string? thing.id .on [] =
      cfg.valueOr TomlValue.string? thing.id .on [] := by
    unfold ConfigRepository.valueOr
    rw [h .on (by decide)]
  have hoff : cfg'.valueOr TomlValue.string? thing.id .off [] =
      cfg.valueOr TomlValue.string? thing.id .off [] := by
    unfold ConfigRepository.valueOr
    rw [h .off (by decide)]
  constructor
  · intro hr
    exact ⟨hr.noWallbox, hon ▸ hr.onSet, hoff ▸ hr.offSet, hon ▸ hr.onCompiles, hoff ▸ hr.offCompiles,
      hon ▸ hoff ▸ hr.known⟩
  · intro hr
    exact ⟨hr.noWallbox, hon.symm ▸ hr.onSet, hoff.symm ▸ hr.offSet, hon.symm ▸ hr.onCompiles,
      hoff.symm ▸ hr.offCompiles, hon.symm ▸ hoff.symm ▸ hr.known⟩

/-! ### What setting an offset leaves -/

namespace Daemon
variable {File : Type}

/- An offset that is set while the configuration listens is persisted. -/
theorem setOffset_kept (toml : TomlLibrary File) (thing : Thing) {d : Daemon File}
    (h : d.subscribed = true) (o : ℤ) :
    (d.setOffset toml thing o).OffsetKept thing o ∧
      (d.setOffset toml thing o).config.Written toml := by
  have hconfig : (d.setOffset toml thing o).config =
      d.config.persistProperty toml thing.id .offset (.integer o) := by
    unfold setOffset setProperties
    rw [if_pos h]
    rfl
  refine ⟨⟨rfl, ?_⟩, ?_⟩
  · rw [hconfig, Impl.persistProperty_configTable, if_pos ⟨rfl, rfl⟩]
  · rw [hconfig]
    exact Impl.persistProperty_written toml d.config thing.id .offset (.integer o)

/- Restoring sets the offset the configuration has, without writing. -/
theorem restoreProperties_kept (toml : TomlLibrary File) {thing : Thing} {d : Daemon File} {o : ℤ}
    (hint : o.bmod (2 ^ 32) = o) (hsub : d.subscribed = false)
    (h : d.config.repository.configTable thing.id .offset = some (.integer o)) :
    (restoreProperties toml thing d).OffsetKept thing o ∧
      (restoreProperties toml thing d).subscribed = true ∧
      (restoreProperties toml thing d).config = d.config ∧
      (restoreProperties toml thing d).symbolTable = d.symbolTable := by
  have hconfig : (restoreProperties toml thing d).config = d.config := by
    unfold restoreProperties setProperties
    dsimp only
    rw [if_neg (by simp [hsub])]
  refine ⟨⟨?_, by rw [hconfig, h]⟩, rfl, hconfig, rfl⟩
  unfold restoreProperties setProperties Impl.propertiesOf
  rw [h, Option.bind_some, TomlValue.int?, hint]
  rfl

/- Making the strategy of a thing whose offset is kept. -/
theorem makeStrategy_kept_iff (toml : TomlLibrary File) (parser : Parser) {thing : Thing}
    {d : Daemon File} {o : ℤ} (hint : o.bmod (2 ^ 32) = o) (hsub : d.subscribed = true)
    (h : d.OffsetKept thing o) :
    (makeStrategy toml parser thing d).OffsetKept thing o ↔
      ¬ RuleResetsOffset parser d.config.repository d.symbolTable thing ∨ o = defaultOffset := by
  unfold makeStrategy WallboxStrategy.from WallboxStrategy.setsOffset
  dsimp only
  by_cases hev : thing.type = .EvStation
  · have hvalue : d.config.repository.valueOr TomlValue.int? thing.id .offset defaultOffset = o := by
      unfold ConfigRepository.valueOr
      rw [h.persisted, Option.bind_some, TomlValue.int?, hint]
      rfl
    simp only [if_pos hev, hvalue, Option.elim_some]
    refine ⟨fun _ => Or.inl fun hr => hr.noWallbox hev, fun _ => ?_⟩
    exact (setOffset_kept toml thing (by exact hsub) o).1
  · simp only [if_neg hev]
    rcases ruleActuation_setsOffset parser d.config.repository d.symbolTable hev with
      ⟨hresets, hsets⟩ | ⟨hnot, hsets⟩
    · simp only [hsets, Option.elim_some]
      generalize hd' : ({ d with symbolTable := (StrategyFactory.from parser d.config.repository
        d.symbolTable thing).2 } : Daemon File) = d'
      have hsub' : d'.subscribed = true := by
        rw [← hd']
        exact hsub
      have hkept := (setOffset_kept toml thing hsub' defaultOffset.1).1
      constructor
      · intro hk
        exact Or.inr (Option.some.inj (hk.property.symm.trans hkept.property))
      · rintro (hno | heq)
        · exact absurd hresets hno
        · rwa [heq]
    · simp only [hsets, Option.elim_none]
      exact ⟨fun _ => Or.inl hnot, fun _ => ⟨h.property, h.persisted⟩⟩

end Daemon

/-- For every thing and every offset the configuration held when the daemon stopped,
whatever symbols there are when the thing is found again: thing and configuration
have the offset afterwards if and only if no rule resets it, or it is the default. -/
theorem offset_survives_iff {File : Type} (toml : TomlLibrary File) (htoml : toml.Faithful)
    (parser : Parser) (thing : Thing) (o : Offset) (before : Impl File) (hw : before.Written toml)
    (ho : before.repository.configTable thing.id .offset = some (.integer o))
    (symbolTable : SymbolTable) (properties : ThingPropertyMap) :
    ∃ d, Daemon.restart toml before symbolTable properties = some d ∧
      ((d.onThingAdded toml parser thing).OffsetKept thing o ↔
        ¬ RuleResetsOffset parser before.repository symbolTable thing ∨ o = defaultOffset) := by
  obtain ⟨config, hparse, -, hsame⟩ := Impl.parseConfigFile_written htoml hw
  refine ⟨⟨config, symbolTable, properties, false⟩, by rw [Daemon.restart, hparse]; rfl, ?_⟩
  have hoffset : config.repository.configTable thing.id .offset = some (.integer o) := by
    rw [hsame thing.id .offset (by decide), ho]
  obtain ⟨hkept, hsub, hconfig, htable⟩ :=
    Daemon.restoreProperties_kept (d := ⟨config, symbolTable, properties, false⟩) toml (bmod_offset o.2) rfl hoffset
  unfold Daemon.onThingAdded
  rw [Daemon.makeStrategy_kept_iff toml parser (bmod_offset o.2) hsub hkept, hconfig, htable,
    RuleResetsOffset.congr fun key hkey => hsame thing.id key hkey, Subtype.ext_iff]

/-! ### A relay and a wallbox -/

open RuleEngine

/- A relay that is switched by its own offset, running. -/
def relayDaemon : Daemon TomlTable where
  config := ⟨[("relay".toList, [(.on, .string "relay.offset > 0".toList),
    (.off, .string "relay.offset < 0".toList)])], none, 10⟩
  symbolTable := ["relay.offset".toList]
  properties := .empty
  subscribed := true

def wallbox : Thing := ⟨"wallbox".toList, .EvStation, 0⟩

/- The wallbox keeps offset 5 beside the relay. -/
theorem offset_survives_iff_wallbox :
    ∃ d, Daemon.restart inMemory (relayDaemon.setOffset inMemory wallbox 5).config [] .empty = some d ∧
      ((d.onThingAdded inMemory comparisons wallbox).OffsetKept wallbox 5 ↔
        ¬ RuleResetsOffset comparisons (relayDaemon.setOffset inMemory wallbox 5).config.repository []
          wallbox ∨ (⟨5, by decide⟩ : Offset) = defaultOffset) :=
  offset_survives_iff inMemory inMemory_faithful comparisons wallbox ⟨5, by decide⟩
    (relayDaemon.setOffset inMemory wallbox 5).config rfl (by decide) [] .empty

/- Offset 5 is set on the relay and persisted; after a restart it is 3, in the
configuration too. -/
theorem not_offset_survives :
    (relayDaemon.setOffset inMemory relay 5).OffsetKept relay 5 ∧
      (relayDaemon.setOffset inMemory relay 5).config.Written inMemory ∧
      ∃ d, Daemon.restart inMemory (relayDaemon.setOffset inMemory relay 5).config [] .empty = some d ∧
        ¬ (d.onThingAdded inMemory comparisons relay).OffsetKept relay 5 ∧
        (d.onThingAdded inMemory comparisons relay).OffsetKept relay 3 := by
  obtain ⟨hkept, hwritten⟩ := Daemon.setOffset_kept inMemory relay (d := relayDaemon) rfl 5
  have hreset : (Daemon.restart inMemory (relayDaemon.setOffset inMemory relay 5).config [] .empty).map
      (fun d => ((d.onThingAdded inMemory comparisons relay).properties.offset,
        (d.onThingAdded inMemory comparisons relay).config.repository.configTable relay.id .offset)) =
      some (some 3, some (.integer 3)) := by decide
  obtain ⟨d, hd, hvalues⟩ := Option.map_eq_some_iff.mp hreset
  obtain ⟨hproperty, hpersisted⟩ := Prod.mk.inj hvalues
  refine ⟨hkept, hwritten, d, hd, fun h => ?_, ⟨hproperty, hpersisted⟩⟩
  have heq := h.property.symm.trans hproperty
  exact absurd heq (by decide)

end Iotic.Rules
