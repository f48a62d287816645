import Iotic.Lib.Runs
import Iotic.Rules.ThingAdded
import Iotic.Webserver.MessageHandlers

/-!
# Where the offset table is looked up

The offset of a thing is an index that a client sends or the configuration file holds.
The wallbox strategy and the rule engine look it up in the table, for the things they
listen to. Here the daemon runs with all its things, and keeps the indices it used.
-/

namespace Iotic.Rules
open Iotic.Config Iotic.Things

/- The configuration has subscribed to the things in `persisted`, the wallbox strategies
to those in `wallboxes`, the engine to its own. `lookups` are the indices of the table
that were read, since the first start. -/
structure AppBackend (File : Type) where
  config : Impl File
  engine : RuleEngine
  persisted : List Thing
  wallboxes : List Thing
  lookups : List ℤ

namespace AppBackend
variable {File : Type}

def start (config : Impl File) : AppBackend File := ⟨config, .construct, [], [], []⟩

/-! ### Setting properties -/

/- The symbols the engine sets for a thing it listens to; a name is not a number. -/
def publishedSymbols (thing : Thing) (props : ThingPropertyMap) : List Name :=
  (props.pinned.map fun _ => thing.id ++ ".pinned".toList).toList ++
    (props.offset.map fun _ => offsetSymbol thing).toList

/- The subscriptions to a thing whose callback is `_powerOffset = offsetTable[value]` or
`setSymbol(var, offsetTable[value])`. -/
def lookingUp (d : AppBackend File) (thing : Thing) : List Thing :=
  (d.wallboxes ++ d.engine.subscriptions).filter fun t => t = thing

/- `thing->setProperties(props)`, which publishes to the subscribers of the thing. -/
def setProperties (toml : TomlLibrary File) (d : AppBackend File) (thing : Thing)
    (props : ThingPropertyMap) : AppBackend File :=
  { d with
    config := if thing ∈ d.persisted then d.config.persistProperties toml thing props else d.config
    engine := { d.engine with
      symbolTable :=
        if thing ∈ d.engine.subscriptions then
          resolveSymbols d.engine.symbolTable (publishedSymbols thing props)
        else d.engine.symbolTable }
    lookups := d.lookups ++ (d.lookingUp thing).flatMap fun _ => props.offset.toList }

/- `thingRepository().setThingProperties(thingId, props)`. -/
def setThingProperties (toml : TomlLibrary File) (d : AppBackend File) (thingId : Name)
    (props : ThingPropertyMap) : AppBackend File :=
  match d.engine.things thingId with
  | some thing => d.setProperties toml thing props
  | none => d

/-! ### The subscriptions to thingAdded -/

/- ConfigRepository: what is persisted is set, then the thing is listened to. -/
def restore (toml : TomlLibrary File) (d : AppBackend File) (thing : Thing) : AppBackend File :=
  { d.setProperties toml thing (d.config.propertiesOf thing) with persisted := thing :: d.persisted }

/- The engine when it makes a strategy: the thing is in the repository, and the things
that waited for it have been subscribed to. -/
def makingStrategy (d : AppBackend File) (thing : Thing) : RuleEngine :=
  RuleEngine.subscribeDependencies
    { d.engine with things := Function.update d.engine.things thing.id (some thing) }

/- The offset that making the strategy sets. -/
def strategyOffset (parser : Parser) (d : AppBackend File) (thing : Thing) : Option ℤ :=
  match WallboxStrategy.from thing with
  | some _ => WallboxStrategy.setsOffset d.config.repository thing
  | none => RuleActuationStrategy.setsOffset parser d.config.repository
      (d.makingStrategy thing).symbolTable thing

/- The constructor of a wallbox strategy looks up the offset the thing now has. -/
def constructorLookups (thing : Thing) (offset : Option ℤ) : List ℤ :=
  if (WallboxStrategy.from thing).isSome then offset.toList else []

/- RuleEngine: the strategy sets the offset while it is made, and listens from then on. -/
def makeStrategy (toml : TomlLibrary File) (parser : Parser) (d : AppBackend File) (thing : Thing) :
    AppBackend File :=
  let offset := d.strategyOffset parser thing
  let props := { ThingPropertyMap.empty with offset := offset }
  let making := { d with engine := d.makingStrategy thing }
  let made := making.setProperties toml thing props
  let published :=
    if thing ∈ making.engine.subscriptions then publishedSymbols thing props else []
  { made with
    engine := d.engine.handle parser d.config.repository (.thingAdded thing published)
    wallboxes :=
      if (WallboxStrategy.from thing).isSome then thing :: d.wallboxes else d.wallboxes
    lookups := made.lookups ++ constructorLookups thing offset }

/-! ### Runs -/

/- Things come and go; a client sets an offset, which is read as an `int`, or another
property that is persisted; anything else that is published sets a symbol at most. -/
inductive Event
  | thingAdded (thing : Thing)
  | thingRemoved (id : Name)
  | message (thingId : Name) (value : ℤ)
  | userProperties (thingId : Name) (name : Option Name) (pinned : Option Bool)
  | symbolSet (symbol : Name)
  | restart

def step (toml : TomlLibrary File) (parser : Parser) (d : AppBackend File) :
    Event → Option (AppBackend File)
  | .thingAdded thing => some ((d.restore toml thing).makeStrategy toml parser thing)
  | .thingRemoved id =>
    some { d with
      engine := d.engine.handle parser d.config.repository (.thingRemoved id)
      wallboxes := d.wallboxes.filter fun t => t.id ≠ id }
  | .message thingId value =>
    some (d.setThingProperties toml thingId ⟨none, none, some (value.bmod (2 ^ 32))⟩)
  | .userProperties thingId name pinned =>
    some (d.setThingProperties toml thingId ⟨name, pinned, none⟩)
  | .symbolSet symbol =>
    some { d with engine := d.engine.handle parser d.config.repository (.symbolSet symbol) }
  | .restart =>
    (Impl.parseConfigFile toml d.config.configFile).map fun config =>
      { start config with lookups := d.lookups }

def InTable (i : ℤ) : Prop := 0 ≤ i ∧ i < offsetTable.length

instance (i : ℤ) : Decidable (InTable i) :=
  inferInstanceAs (Decidable (0 ≤ i ∧ i < offsetTable.length))

/- No lookup so far was past the table. -/
def LookupsInTable (d : AppBackend File) : Prop := ∀ i ∈ d.lookups, InTable i

/- The offset the configuration has for a thing, as an `int`. -/
def configured (d : AppBackend File) (thing : Thing) : Option ℤ := (d.config.propertiesOf thing).offset

/- The condition on an event: a client sets an offset of the table wherever it is
looked up, and so is what the configuration has for a thing that is added, if it is a
wallbox or this very object is listened to already. -/
def Bounded (d : AppBackend File) : Event → Prop
  | .thingAdded thing => thing.type = .EvStation ∨ d.lookingUp thing ≠ [] →
      ∀ o ∈ d.configured thing, InTable o
  | .message thingId value => ∀ thing ∈ d.engine.things thingId, d.lookingUp thing ≠ [] →
      InTable (value.bmod (2 ^ 32))
  | _ => True

/- The text by which a client sets an offset, and the `int` it is read as. -/
theorem onTextMessage_offset {env : Webserver.Environment} {message thingId : ByteString.Bytes}
    {value : ℤ} (hknown : env.isProperty (Webserver.enumToString "offset") = true)
    (hparse : env.parse message = some (.object [(thingId,
      .object [(Webserver.enumToString "offset", .integer value)])])) :
    Webserver.onTextMessage env message =
        .ok (.property thingId (Webserver.enumToString "offset") (.integer value)) ∧
      (Webserver.JsonValue.integer value).getInt = .ok (value.bmod (2 ^ 32)) := by
  have hrouted : Webserver.routed thingId (Webserver.enumToString "offset") = false := by
    unfold Webserver.routed
    rw [decide_eq_false_iff_not]
    exact fun h => absurd h.2 (by decide)
  refine ⟨?_, rfl⟩
  rw [Webserver.onTextMessage, hparse]
  simp [Webserver.Environment.parseError, Webserver.fromJsonValue, Webserver.JsonValue.getInt,
    Except.map, Bind.bind, Except.bind, hknown, hrouted]

/-! ### Which lookups a step makes -/

section Lookups
variable {d : AppBackend File} {thing : Thing}

theorem inTable_default : InTable defaultOffset := defaultOffset.2

/- One lookup for each subscription, all at the offset that is set. -/
theorem setProperties_lookupsInTable_iff (toml : TomlLibrary File) (props : ThingPropertyMap) :
    (d.setProperties toml thing props).LookupsInTable ↔
      d.LookupsInTable ∧ (d.lookingUp thing ≠ [] → ∀ o ∈ props.offset, InTable o) := by
  have hnew : (∀ i ∈ (d.lookingUp thing).flatMap fun _ => props.offset.toList, InTable i) ↔
      (d.lookingUp thing ≠ [] → ∀ o ∈ props.offset, InTable o) := by
    constructor
    · intro h hne o ho
      obtain ⟨t, ht⟩ := List.exists_mem_of_ne_nil _ hne
      exact h o (List.mem_flatMap.mpr ⟨t, ht, Option.mem_toList.mpr ho⟩)
    · intro h i hi
      obtain ⟨t, ht, hi⟩ := List.mem_flatMap.mp hi
      exact h (List.ne_nil_of_mem ht) i (Option.mem_toList.mp hi)
  unfold LookupsInTable
  rw [← hnew]
  exact List.forall_mem_append

theorem setThingProperties_lookupsInTable_iff (toml : TomlLibrary File) (thingId : Name)
    (props : ThingPropertyMap) : (d.setThingProperties toml thingId props).LookupsInTable ↔
      d.LookupsInTable ∧ ∀ thing ∈ d.engine.things thingId, d.lookingUp thing ≠ [] →
        ∀ o ∈ props.offset, InTable o := by
  unfold setThingProperties
  cases d.engine.things thingId with
  | none => simp
  | some thing =>
    rw [setProperties_lookupsInTable_iff]
    simp

theorem setProperties_config (toml : TomlLibrary File) (props : ThingPropertyMap) :
    (d.setProperties toml thing props).config =
      if thing ∈ d.persisted then d.config.persistProperties toml thing props else d.config := rfl

theorem setProperties_configured (toml : TomlLibrary File) (props : ThingPropertyMap)
    (thing' : Thing) : (d.setProperties toml thing props).configured thing' =
      if thing ∈ d.persisted then
        ((if thing'.id = thing.id then props.offset else none).map (·.bmod (2 ^ 32))).or
          (d.configured thing')
      else d.configured thing' := by
  unfold configured
  rw [setProperties_config]
  by_cases h : thing ∈ d.persisted
  · rw [if_pos h, if_pos h]
    exact Impl.persistProperties_offset toml d.config thing props thing'
  · rw [if_neg h, if_neg h]

theorem configured_int {o : ℤ} (h : o ∈ d.configured thing) : o.bmod (2 ^ 32) = o := by
  obtain ⟨value, -, hvalue⟩ := Option.bind_eq_some_iff.mp h
  cases value with
  | integer v =>
    obtain rfl := Option.some.inj hvalue
    exact Int.bmod_bmod
  | _ => cases hvalue

/- Persisting what the configuration has changes nothing of it. -/
theorem restore_configured (toml : TomlLibrary File) (thing' : Thing) :
    (d.restore toml thing).configured thing' = d.configured thing' := by
  refine (setProperties_configured toml _ thing').trans ?_
  split_ifs with hpersisted hid
  · have hsame : (d.config.propertiesOf thing).offset = d.configured thing' := by
      unfold configured Impl.propertiesOf
      rw [hid]
    rw [hsame]
    cases ho : d.configured thing' with
    | none => rfl
    | some o => rw [Option.map_some, configured_int ho, Option.some_or]
  · rfl
  · rfl

theorem strategyOffset_wallbox (parser : Parser) (h : thing.type = .EvStation) :
    d.strategyOffset parser thing = some ((d.configured thing).getD defaultOffset) := by
  have hfrom : WallboxStrategy.from thing = some .wallbox := if_pos h
  unfold strategyOffset
  rw [hfrom]
  exact if_pos h

theorem strategyOffset_other (parser : Parser) (h : thing.type ≠ .EvStation) :
    ∀ o ∈ d.strategyOffset parser thing, InTable o := by
  have hfrom : WallboxStrategy.from thing = none := if_neg h
  unfold strategyOffset
  rw [hfrom]
  intro o ho
  rcases ruleActuation_setsOffset parser d.config.repository (d.makingStrategy thing).symbolTable h with
    ⟨-, hsets⟩ | ⟨-, hsets⟩
  · rw [hsets] at ho
    obtain rfl := Option.some.inj ho
    exact inTable_default
  · rw [hsets] at ho
    cases ho

/- A wallbox looks up what is configured, by itself and by what listens to it; of any
other thing only an offset of the table is looked up. -/
theorem makeStrategy_lookupsInTable_iff (toml : TomlLibrary File) (parser : Parser) :
    (d.makeStrategy toml parser thing).LookupsInTable ↔
      d.LookupsInTable ∧ (thing.type = .EvStation → ∀ o ∈ d.configured thing, InTable o) := by
  have hmade : (d.makeStrategy toml parser thing).LookupsInTable ↔
      d.LookupsInTable ∧
      (({ d with engine := d.makingStrategy thing } : AppBackend File).lookingUp thing ≠ [] →
        ∀ o ∈ d.strategyOffset parser thing, InTable o) ∧
      (thing.type = .EvStation → ∀ o ∈ d.strategyOffset parser thing, InTable o) := by
    have hconstructor : (∀ i ∈ constructorLookups thing (d.strategyOffset parser thing), InTable i) ↔
        (thing.type = .EvStation → ∀ o ∈ d.strategyOffset parser thing, InTable o) := by
      unfold constructorLookups WallboxStrategy.from
      by_cases h : thing.type = .EvStation <;> simp [h]
    rw [← hconstructor, ← and_assoc]
    exact List.forall_mem_append.trans
      (and_congr_left' (setProperties_lookupsInTable_iff toml _))
  rw [hmade]
  refine and_congr_right fun _ => ?_
  by_cases h : thing.type = .EvStation
  · have hoffset : (∀ o ∈ d.strategyOffset parser thing, InTable o) ↔
        ∀ o ∈ d.configured thing, InTable o := by
      rw [strategyOffset_wallbox parser h]
      cases d.configured thing with
      | none => simpa using inTable_default
      | some o => simp
    rw [hoffset]
    exact ⟨fun hall => hall.2, fun hall => ⟨fun _ => hall h, hall⟩⟩
  · have hother := strategyOffset_other (d := d) parser h
    exact ⟨fun _ hev => absurd hev h, fun _ => ⟨fun _ => hother, fun _ => hother⟩⟩

/- A step reads past the table exactly where it is not bounded. -/
theorem step_lookupsInTable_iff {toml : TomlLibrary File} {parser : Parser} {d' : AppBackend File}
    {e : Event} (h : step toml parser d e = some d') :
    d'.LookupsInTable ↔ d.LookupsInTable ∧ d.Bounded e := by
  cases e with
  | thingAdded thing =>
    obtain rfl := Option.some.inj h
    have hrestore : (d.restore toml thing).LookupsInTable ↔
        d.LookupsInTable ∧ (d.lookingUp thing ≠ [] → ∀ o ∈ d.configured thing, InTable o) :=
      setProperties_lookupsInTable_iff toml _
    rw [makeStrategy_lookupsInTable_iff, hrestore, restore_configured, and_assoc, Bounded]
    tauto
  | message thingId value =>
    obtain rfl := Option.some.inj h
    rw [setThingProperties_lookupsInTable_iff]
    simp [Bounded]
  | userProperties thingId name pinned =>
    obtain rfl := Option.some.inj h
    rw [setThingProperties_lookupsInTable_iff]
    simp [Bounded]
  | thingRemoved id =>
    obtain rfl := Option.some.inj h
    exact (and_iff_left trivial).symm
  | symbolSet symbol =>
    obtain rfl := Option.some.inj h
    exact (and_iff_left trivial).symm
  | restart =>
    obtain ⟨config, -, rfl⟩ := Option.map_eq_some_iff.mp h
    exact (and_iff_left trivial).symm

end Lookups

/-! ### What the configuration holds along a run -/

/- A client sends an offset of the table. -/
def Event.Valid : Event → Prop
  | .message _ value => InTable (value.bmod (2 ^ 32))
  | _ => True

section Configured
variable {toml : TomlLibrary File} {parser : Parser} {d d' : AppBackend File} {thing : Thing}

def OffsetsInTable (d : AppBackend File) : Prop := ∀ thing, ∀ o ∈ d.configured thing, InTable o

theorem setProperties_written (h : d.config.Written toml) (props : ThingPropertyMap) :
    (d.setProperties toml thing props).config.Written toml := by
  rw [setProperties_config]
  split_ifs
  · exact Impl.persistProperties_written h thing props
  · exact h

theorem setProperties_offsetsInTable (h : d.OffsetsInTable) {props : ThingPropertyMap}
    (hprops : ∀ o ∈ props.offset, InTable o) : (d.setProperties toml thing props).OffsetsInTable := by
  intro thing' o ho
  rw [setProperties_configured] at ho
  split_ifs at ho with hpersisted hid
  · cases hoffset : props.offset with
    | none =>
      rw [hoffset] at ho
      exact h thing' o ho
    | some v =>
      have hv : InTable v := hprops v hoffset
      rw [hoffset, Option.map_some, bmod_offset hv, Option.some_or] at ho
      exact Option.some.inj ho ▸ hv
  · exact h thing' o ho
  · exact h thing' o ho

theorem setThingProperties_written (h : d.config.Written toml) (thingId : Name)
    (props : ThingPropertyMap) : (d.setThingProperties toml thingId props).config.Written toml := by
  unfold setThingProperties
  cases d.engine.things thingId with
  | none => exact h
  | some thing => exact setProperties_written h props

theorem setThingProperties_offsetsInTable (h : d.OffsetsInTable) (thingId : Name)
    {props : ThingPropertyMap} (hprops : ∀ o ∈ props.offset, InTable o) :
    (d.setThingProperties toml thingId props).OffsetsInTable := by
  unfold setThingProperties
  cases d.engine.things thingId with
  | none => exact h
  | some thing => exact setProperties_offsetsInTable h hprops

theorem strategyOffset_inTable (h : d.OffsetsInTable) :
    ∀ o ∈ d.strategyOffset parser thing, InTable o := by
  by_cases hev : thing.type = .EvStation
  · rw [strategyOffset_wallbox parser hev]
    intro o ho
    cases hconfigured : d.configured thing with
    | none =>
      rw [hconfigured] at ho
      exact Option.some.inj ho ▸ inTable_default
    | some v =>
      rw [hconfigured] at ho
      exact Option.some.inj ho ▸ h thing v hconfigured
  · exact strategyOffset_other parser hev

/- The daemon goes on after any event, and what it configures is in the file. -/
theorem step_written (htoml : toml.Faithful) (parser : Parser) (h : d.config.Written toml)
    (e : Event) :
    ∃ d', step toml parser d e = some d' ∧ d'.config.Written toml := by
  cases e with
  | thingAdded thing =>
    have hrestored : (d.restore toml thing).config.Written toml := setProperties_written h _
    exact ⟨_, rfl, setProperties_written (d := { d.restore toml thing with
      engine := (d.restore toml thing).makingStrategy thing }) hrestored _⟩
  | thingRemoved id => exact ⟨_, rfl, h⟩
  | message thingId value => exact ⟨_, rfl, setThingProperties_written h thingId _⟩
  | userProperties thingId name pinned => exact ⟨_, rfl, setThingProperties_written h thingId _⟩
  | symbolSet symbol => exact ⟨_, rfl, h⟩
  | restart =>
    obtain ⟨config, hparse, hwritten, -⟩ := Impl.parseConfigFile_written htoml h
    exact ⟨_, by rw [step, hparse]; rfl, hwritten⟩

/- Offsets of the table stay ones, also across a restart. -/
theorem step_offsetsInTable (htoml : toml.Faithful) (hwritten : d.config.Written toml)
    (h : d.OffsetsInTable) {e : Event} (he : e.Valid) (hstep : step toml parser d e = some d') :
    d'.OffsetsInTable := by
  cases e with
  | thingAdded thing =>
    obtain rfl := Option.some.inj hstep
    have hrestored : (d.restore toml thing).OffsetsInTable := fun thing' o ho =>
      h thing' o (restore_configured toml thing' ▸ ho)
    exact setProperties_offsetsInTable (d := { d.restore toml thing with
      engine := (d.restore toml thing).makingStrategy thing }) hrestored
      (strategyOffset_inTable hrestored)
  | thingRemoved id =>
    obtain rfl := Option.some.inj hstep
    exact h
  | message thingId value =>
    obtain rfl := Option.some.inj hstep
    exact setThingProperties_offsetsInTable h thingId fun o ho => Option.some.inj ho ▸ he
  | userProperties thingId name pinned =>
    obtain rfl := Option.some.inj hstep
    exact setThingProperties_offsetsInTable h thingId fun o ho => nomatch ho
  | symbolSet symbol =>
    obtain rfl := Option.some.inj hstep
    exact h
  | restart =>
    obtain ⟨config, hparse, -, hsame⟩ := Impl.parseConfigFile_written htoml hwritten
    rw [step, hparse] at hstep
    obtain rfl := Option.some.inj hstep
    intro thing o ho
    have hoffset : (config.propertiesOf thing).offset = d.configured thing := by
      unfold configured Impl.propertiesOf
      rw [hsame thing.id .offset (by decide)]
    exact h thing o (hoffset ▸ ho)

/- Then every event a client may cause is bounded. -/
theorem bounded_of_offsetsInTable (h : d.OffsetsInTable) {e : Event} (he : e.Valid) :
    d.Bounded e := by
  cases e with
  | thingAdded thing => exact fun _ => h thing
  | message thingId value => exact fun _ _ _ => he
  | _ => trivial

end Configured

/-! ### Whole runs -/

/- Every state that is reached has only looked up indices of the table. -/
def AlwaysInTable (toml : TomlLibrary File) (parser : Parser) (d : AppBackend File)
    (events : List Event) : Prop :=
  ∀ pre post d', events = pre ++ post → Runs.exec (step toml parser) d pre = some d' →
    d'.LookupsInTable

/- Every event of the run is bounded in the state before it. -/
def AlwaysBounded (toml : TomlLibrary File) (parser : Parser) (d : AppBackend File)
    (events : List Event) : Prop :=
  ∀ pre e post d', events = pre ++ e :: post → Runs.exec (step toml parser) d pre = some d' →
    d'.Bounded e

section Runs
variable {toml : TomlLibrary File} {parser : Parser} {d : AppBackend File}

theorem alwaysBounded_of_offsetsInTable (htoml : toml.Faithful) (hwritten : d.config.Written toml)
    (h : d.OffsetsInTable) {events : List Event} (hvalid : ∀ e ∈ events, e.Valid) :
    AlwaysBounded toml parser d events := by
  intro pre e post d' hsplit hexec
  rw [hsplit] at hvalid
  have hstep : ∀ d e d', d.config.Written toml ∧ d.OffsetsInTable → e.Valid →
      step toml parser d e = some d' → d'.config.Written toml ∧ d'.OffsetsInTable := by
    intro d e d₁ hd he hnext
    obtain ⟨d₂, hd₂, hwritten₂⟩ := step_written htoml parser hd.1 e
    obtain rfl := Option.some.inj (hd₂.symm.trans hnext)
    exact ⟨hwritten₂, step_offsetsInTable htoml hd.1 hd.2 he hnext⟩
  have hpre : ∀ e ∈ pre, e.Valid := fun e he => hvalid e (List.mem_append_left _ he)
  have hreached := Runs.exec_invariant hstep hpre hexec ⟨hwritten, h⟩
  exact bounded_of_offsetsInTable hreached.2 (hvalid e (by simp))

/-- From any configuration file on, and across restarts, the offset table is looked up
inside its bounds all along a run exactly when every event is bounded. It is so when the
offsets in the file and those that clients send are all offsets of the table. -/
theorem lookupsInTable_iff (htoml : toml.Faithful) (parser : Parser) {file : Option File}
    {config : Impl File} (h : Impl.parseConfigFile toml file = some config) (events : List Event) :
    (AlwaysInTable toml parser (start config) events ↔
      AlwaysBounded toml parser (start config) events) ∧
    ((start config).OffsetsInTable → (∀ e ∈ events, e.Valid) →
      AlwaysInTable toml parser (start config) events) := by
  have hwritten : (start config).config.Written toml := Impl.written_of_parseConfigFile h
  obtain ⟨d', hexec, -⟩ := Runs.exec_isSome (f := step toml parser)
    (fun _ e hw => step_written htoml parser hw e) events hwritten
  have hiff : AlwaysInTable toml parser (start config) events ↔
      AlwaysBounded toml parser (start config) events := by
    refine Runs.exec_always_iff (J := fun _ => True) (fun _ _ _ _ _ => trivial) ?_ hexec trivial
      (fun _ hi => nomatch hi)
    intro d e d₁ _ hlookups hstep
    rw [step_lookupsInTable_iff hstep]
    exact and_iff_right hlookups
  exact ⟨hiff, fun hoffsets hvalid =>
    hiff.mpr (alwaysBounded_of_offsetsInTable htoml hwritten hoffsets hvalid)⟩

end Runs

open RuleEngine

/-- A wallbox keeps to the table: from a file without offsets, with a message in between,
and after a restart. -/
theorem lookupsInTable_wallbox :
    ∃ config, Impl.parseConfigFile inMemory none = some config ∧
      AlwaysInTable inMemory comparisons (start config)
        [.thingAdded wallbox, .message wallbox.id 7, .restart, .thingAdded wallbox] := by
  have hfile : Impl.parseConfigFile inMemory none =
      some (Impl.setThingInterval inMemory ⟨[], none, 10⟩ 10) := rfl
  refine ⟨_, hfile, (lookupsInTable_iff inMemory_faithful comparisons hfile _).2 ?_ ?_⟩
  · intro thing o ho
    obtain ⟨value, hvalue, -⟩ := Option.bind_eq_some_iff.mp ho
    rw [start, Impl.setThingInterval, Impl.persistProperty_configTable, if_neg (by simp)] at hvalue
    cases hvalue
  · have hseven : InTable (Int.bmod 7 (2 ^ 32)) := by decide
    simp only [List.forall_mem_cons]
    exact ⟨trivial, hseven, trivial, trivial, by simp⟩

/-- Nothing checks an offset: one that a client sends reaches the lookup at once, and so
does one in the file when the wallbox is found. -/
theorem not_lookupsInTable :
    (∃ config, Impl.parseConfigFile inMemory none = some config ∧
      ¬ AlwaysInTable inMemory comparisons (start config)
        [.thingAdded wallbox, .message wallbox.id 42]) ∧
    ∃ config, Impl.parseConfigFile inMemory
        (some [(wallbox.id, [(.offset, .integer 42)])]) = some config ∧
      ¬ AlwaysInTable inMemory comparisons (start config) [.thingAdded wallbox] := by
  refine ⟨⟨_, rfl, ?_⟩, ⟨_, rfl, ?_⟩⟩
  · intro h
    exact absurd (h _ [] _ (List.append_nil _).symm rfl 42 (by decide)) (by decide)
  · intro h
    exact absurd (h _ [] _ (List.append_nil _).symm rfl 42 (by decide)) (by decide)

end AppBackend
end Iotic.Rules
