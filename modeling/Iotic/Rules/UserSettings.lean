import Iotic.Rules.OffsetLookup

/-!
# What users have set (ConfigRepository.cpp over runs of the daemon)

The name of a thing and whether it is pinned go through a subscription to its object into
a table and from there into a file, and back when the daemon is started again and finds
the thing. All of that amounts to a map from things to settings which does not know of
subscriptions, files or restarts.
-/

namespace Iotic.Rules
open Iotic.Config Iotic.Things

/- The map. Of a restart it only matters that no thing has been found by then. -/
structure UserSettings where
  found : Name → Bool
  name : Name → Option Name
  pinned : Name → Option Bool

namespace UserSettings

/- What is set on a thing that has not been found is lost. -/
def set (u : UserSettings) (thingId : Name) (name : Option Name) (pinned : Option Bool) : UserSettings :=
  if u.found thingId then
    { u with
      name := Function.update u.name thingId (name.or (u.name thingId))
      pinned := Function.update u.pinned thingId (pinned.or (u.pinned thingId)) }
  else u

def step (u : UserSettings) : AppBackend.Event → UserSettings
  | .thingAdded thing => { u with found := Function.update u.found thing.id true }
  | .thingRemoved id => { u with found := Function.update u.found id false }
  | .userProperties thingId name pinned => u.set thingId name pinned
  | .restart => { u with found := fun _ => false }
  | _ => u

/- What a configuration holds for a thing. -/
def ofConfig {File : Type} (config : Impl File) : UserSettings where
  found _ := false
  name id := (config.repository.configTable id .name).bind TomlValue.string?
  pinned id := (config.repository.configTable id .pinned).bind TomlValue.boolean?

end UserSettings

/-! ### The things of the repository -/

namespace RuleEngine

theorem subscribe_things (e : RuleEngine) (thing : Thing) : (e.subscribe thing).things = e.things := by
  unfold subscribe
  split_ifs <;> rfl

theorem subscribeDependency_things (e : RuleEngine) (id : Name) :
    (e.subscribeDependency id).things = e.things := by
  unfold subscribeDependency
  split
  · exact subscribe_things e _
  · rfl

theorem subscribeDependencies_things (e : RuleEngine) : e.subscribeDependencies.things = e.things :=
  Runs.foldl_invariant (I := fun e' => e'.things = e.things)
    (fun s id h => (subscribeDependency_things s id).trans h) e.dependentThings e rfl

theorem addDependency_things (e : RuleEngine) (id : Name) : (e.addDependency id).things = e.things := by
  unfold addDependency
  split_ifs <;> rfl

theorem addDependencies_things (symbols : List Name) (e : RuleEngine) :
    (symbols.foldl (fun e symbol => e.addDependency (thingOf symbol)) e).things = e.things :=
  Runs.foldl_invariant (I := fun e' => e'.things = e.things)
    (fun s symbol h => (addDependency_things s (thingOf symbol)).trans h) symbols e rfl

theorem onThingAdded_things (parser : Parser) (cfg : ConfigRepository) (e : RuleEngine) (thing : Thing)
    (published : List Name) : (e.onThingAdded parser cfg thing published).things = e.things := by
  unfold onThingAdded
  dsimp only
  split
  · exact subscribeDependencies_things e
  · rw [subscribeDependencies_things, addDependency_things, addDependencies_things]
    exact subscribeDependencies_things e

end RuleEngine

/-! ### What persisting changes -/

section Persist
variable {File : Type} (toml : TomlLibrary File)

/- A value that is persisted, if there is one, is what its key holds for its table. -/
theorem persistProperty_self {A : Type} (c : Impl File) (table table' : Name) (v : Option A)
    (value : A → TomlValue) (key : Key) :
    (v.elim c fun v => c.persistProperty toml table key (value v)).repository.configTable table' key =
      if table' = table then (v.map value).or (c.repository.configTable table' key)
      else c.repository.configTable table' key := by
  cases v with
  | none => split_ifs <;> rfl
  | some v =>
    rw [Option.elim_some, Impl.persistProperty_configTable]
    split_ifs with h h' h'
    · rfl
    · exact absurd h.1 h'
    · exact absurd ⟨h', rfl⟩ h
    · rfl

theorem ofConfig_persistProperties_name (c : Impl File) (thing : Thing) (props : ThingPropertyMap)
    (id : Name) : (UserSettings.ofConfig (c.persistProperties toml thing props)).name id =
      if id = thing.id then props.name.or ((UserSettings.ofConfig c).name id)
      else (UserSettings.ofConfig c).name id := by
  unfold UserSettings.ofConfig Impl.persistProperties
  dsimp only
  rw [Impl.persistProperty_other toml _ _ _ _ _ (show Key.name ≠ .offset by decide),
    Impl.persistProperty_other toml _ _ _ _ _ (show Key.name ≠ .pinned by decide),
    persistProperty_self]
  split_ifs
  · cases props.name <;> rfl
  · rfl

theorem ofConfig_persistProperties_pinned (c : Impl File) (thing : Thing) (props : ThingPropertyMap)
    (id : Name) : (UserSettings.ofConfig (c.persistProperties toml thing props)).pinned id =
      if id = thing.id then props.pinned.or ((UserSettings.ofConfig c).pinned id)
      else (UserSettings.ofConfig c).pinned id := by
  unfold UserSettings.ofConfig Impl.persistProperties
  dsimp only
  rw [Impl.persistProperty_other toml _ _ _ _ _ (show Key.pinned ≠ .offset by decide),
    persistProperty_self,
    Impl.persistProperty_other toml _ _ _ _ _ (show Key.pinned ≠ .name by decide)]
  split_ifs
  · cases props.pinned <;> rfl
  · rfl

end Persist

/-! ### The daemon and the map -/

namespace AppBackend
variable {File : Type} {toml : TomlLibrary File} {parser : Parser}

/- The daemon holds what the map says, in the table and in the file, and a thing that has
been found is listened to. -/
structure Holds (toml : TomlLibrary File) (u : UserSettings) (d : AppBackend File) : Prop where
  written : d.config.Written toml
  found : ∀ id, (d.engine.things id).isSome = u.found id
  id_eq : ∀ id thing, d.engine.things id = some thing → thing.id = id
  persisted : ∀ id thing, d.engine.things id = some thing → thing ∈ d.persisted
  name : (UserSettings.ofConfig d.config).name = u.name
  pinned : (UserSettings.ofConfig d.config).pinned = u.pinned

variable {u : UserSettings} {d : AppBackend File}

/- Setting properties changes what is held by the name and the pinned that are set, if
the object is listened to. -/
theorem ofConfig_setProperties (toml : TomlLibrary File) (d : AppBackend File) (thing : Thing)
    (props : ThingPropertyMap) :
    (UserSettings.ofConfig (d.setProperties toml thing props).config).name =
        (if thing ∈ d.persisted then Function.update (UserSettings.ofConfig d.config).name thing.id
          (props.name.or ((UserSettings.ofConfig d.config).name thing.id))
        else (UserSettings.ofConfig d.config).name) ∧
      (UserSettings.ofConfig (d.setProperties toml thing props).config).pinned =
        if thing ∈ d.persisted then Function.update (UserSettings.ofConfig d.config).pinned thing.id
          (props.pinned.or ((UserSettings.ofConfig d.config).pinned thing.id))
        else (UserSettings.ofConfig d.config).pinned := by
  rw [setProperties_config]
  split_ifs with h
  · refine ⟨funext fun id => ?_, funext fun id => ?_⟩
    · rw [ofConfig_persistProperties_name, Function.update_apply]
      split_ifs with hid
      · rw [hid]
      · rfl
    · rw [ofConfig_persistProperties_pinned, Function.update_apply]
      split_ifs with hid
      · rw [hid]
      · rfl
  · exact ⟨rfl, rfl⟩

theorem or_self_or_none {A : Type} {v held : Option A} (h : v = none ∨ v = held) : v.or held = held := by
  rcases h with rfl | rfl
  · exact Option.none_or
  · cases v <;> rfl

/- Nothing changes of what is held where no more is set than that. -/
theorem ofConfig_setProperties_same (toml : TomlLibrary File) (d : AppBackend File) {thing : Thing}
    {props : ThingPropertyMap}
    (hname : props.name = none ∨ props.name = (UserSettings.ofConfig d.config).name thing.id)
    (hpinned : props.pinned = none ∨ props.pinned = (UserSettings.ofConfig d.config).pinned thing.id) :
    (UserSettings.ofConfig (d.setProperties toml thing props).config).name =
        (UserSettings.ofConfig d.config).name ∧
      (UserSettings.ofConfig (d.setProperties toml thing props).config).pinned =
        (UserSettings.ofConfig d.config).pinned := by
  obtain ⟨hn, hp⟩ := ofConfig_setProperties toml d thing props
  rw [or_self_or_none hname, Function.update_eq_self, ite_self] at hn
  rw [or_self_or_none hpinned, Function.update_eq_self, ite_self] at hp
  exact ⟨hn, hp⟩

theorem Holds.thingAdded (h : Holds toml u d) (thing : Thing) :
    Holds toml (u.step (.thingAdded thing)) ((d.restore toml thing).makeStrategy toml parser thing) := by
  let making : AppBackend File :=
    { d.restore toml thing with engine := (d.restore toml thing).makingStrategy thing }
  let made : ThingPropertyMap :=
    { ThingPropertyMap.empty with offset := (d.restore toml thing).strategyOffset parser thing }
  have hrestore : (d.config.propertiesOf thing).name = none ∨ (d.config.propertiesOf thing).name =
      (UserSettings.ofConfig d.config).name thing.id := Or.inr rfl
  have hmade : made.name = none ∨ made.name = (UserSettings.ofConfig making.config).name thing.id :=
    Or.inl rfl
  obtain ⟨hname, hpinned⟩ := ofConfig_setProperties_same toml d hrestore (Or.inr rfl)
  obtain ⟨hname', hpinned'⟩ := ofConfig_setProperties_same toml making hmade (Or.inl rfl)
  have hthings : ((d.restore toml thing).makeStrategy toml parser thing).engine.things =
      Function.update d.engine.things thing.id (some thing) :=
    RuleEngine.onThingAdded_things _ _ _ _ _
  have hrestored : (d.restore toml thing).config.Written toml := setProperties_written h.written _
  refine ⟨setProperties_written (d := making) hrestored _, fun id => ?_, fun id t ht => ?_,
    fun id t ht => ?_, hname'.trans (hname.trans h.name),
    hpinned'.trans (hpinned.trans h.pinned)⟩
  · rw [hthings]
    show (Function.update d.engine.things thing.id (some thing) id).isSome =
      Function.update u.found thing.id true id
    rw [Function.update_apply, Function.update_apply]
    split_ifs
    · rfl
    · exact h.found id
  · rw [hthings, Function.update_apply] at ht
    split_ifs at ht with hid
    · obtain rfl := Option.some.inj ht
      exact hid.symm
    · exact h.id_eq id t ht
  · rw [hthings, Function.update_apply] at ht
    show t ∈ thing :: d.persisted
    split_ifs at ht with hid
    · obtain rfl := Option.some.inj ht
      exact List.mem_cons_self
    · exact List.mem_cons_of_mem _ (h.persisted id t ht)

theorem Holds.thingRemoved (h : Holds toml u d) (id : Name) :
    ∃ d', step toml parser d (.thingRemoved id) = some d' ∧
      Holds toml (u.step (.thingRemoved id)) d' := by
  refine ⟨_, rfl, h.written, fun x => ?_, fun x t ht => ?_, fun x t ht => ?_, h.name, h.pinned⟩
  · show (Function.update d.engine.things id none x).isSome = Function.update u.found id false x
    rw [Function.update_apply, Function.update_apply]
    split_ifs
    · rfl
    · exact h.found x
  · change Function.update d.engine.things id none x = some t at ht
    rw [Function.update_apply] at ht
    split_ifs at ht
    exact h.id_eq x t ht
  · change Function.update d.engine.things id none x = some t at ht
    rw [Function.update_apply] at ht
    split_ifs at ht
    exact h.persisted x t ht

theorem Holds.setThingProperties (h : Holds toml u d) (thingId : Name) (props : ThingPropertyMap) :
    Holds toml (u.set thingId props.name props.pinned) (d.setThingProperties toml thingId props) := by
  unfold AppBackend.setThingProperties UserSettings.set
  rw [← h.found]
  cases hthing : d.engine.things thingId with
  | none => exact h
  | some thing =>
    obtain rfl := h.id_eq thingId thing hthing
    obtain ⟨hname, hpinned⟩ := ofConfig_setProperties toml d thing props
    rw [if_pos (h.persisted _ thing hthing), h.name] at hname
    rw [if_pos (h.persisted _ thing hthing), h.pinned] at hpinned
    exact ⟨setProperties_written h.written props, h.found, h.id_eq, h.persisted, hname, hpinned⟩

theorem Holds.restart (htoml : toml.Faithful) (h : Holds toml u d) :
    ∃ d', step toml parser d .restart = some d' ∧ Holds toml (u.step .restart) d' := by
  obtain ⟨config, hparse, hwritten, hsame⟩ := Impl.parseConfigFile_written htoml h.written
  refine ⟨_, by rw [step, hparse]; rfl, hwritten, fun _ => rfl, fun _ _ ht => ?_, fun _ _ ht => ?_,
    ?_, ?_⟩
  · cases ht
  · cases ht
  · refine Eq.trans (funext fun id => ?_) h.name
    show (config.repository.configTable id .name).bind TomlValue.string? = _
    rw [hsame id .name (by decide)]
    rfl
  · refine Eq.trans (funext fun id => ?_) h.pinned
    show (config.repository.configTable id .pinned).bind TomlValue.boolean? = _
    rw [hsame id .pinned (by decide)]
    rfl

theorem Holds.step (htoml : toml.Faithful) (parser : Parser) (h : Holds toml u d) (e : Event) :
    ∃ d', AppBackend.step toml parser d e = some d' ∧ Holds toml (u.step e) d' := by
  cases e with
  | thingAdded thing => exact ⟨_, rfl, h.thingAdded thing⟩
  | thingRemoved id => exact h.thingRemoved id
  | message thingId value =>
    have hsame : u.set thingId none none = u := by
      unfold UserSettings.set
      rw [Option.none_or, Option.none_or, Function.update_eq_self, Function.update_eq_self, ite_self]
    refine ⟨_, rfl, ?_⟩
    exact Eq.subst (motive := fun u' => Holds toml u' _) hsame
      (h.setThingProperties thingId ⟨none, none, some (value.bmod (2 ^ 32))⟩)
  | userProperties thingId name pinned =>
    exact ⟨_, rfl, h.setThingProperties thingId ⟨name, pinned, none⟩⟩
  | symbolSet symbol => exact ⟨_, rfl, h.written, h.found, h.id_eq, h.persisted, h.name, h.pinned⟩
  | restart => exact h.restart htoml

theorem Holds.run (htoml : toml.Faithful) (parser : Parser) (events : List Event) (h : Holds toml u d) :
    ∃ d', Runs.exec (AppBackend.step toml parser) d events = some d' ∧
      Holds toml (events.foldl UserSettings.step u) d' := by
  induction events generalizing u d with
  | nil => exact ⟨d, rfl, h⟩
  | cons e events ih =>
    obtain ⟨d1, hstep, h1⟩ := h.step htoml parser e
    rw [Runs.exec_cons hstep]
    exact ih h1

/-- From any configuration file on, through any run of the daemon with any number of
restarts: every restart parses the file that was written, and what is in the table, what is
in the file and what a thing gets when it is found is what users have set last while the
thing was there, or what the file had at first. -/
theorem userSettings_kept (htoml : toml.Faithful) (parser : Parser) {file : Option File}
    {config : Impl File} (h : Impl.parseConfigFile toml file = some config) (events : List Event) :
    ∃ d, Runs.exec (AppBackend.step toml parser) (start config) events = some d ∧
      d.config.configFile = some (toml.write d.config.configTable) ∧
      ∀ thing,
        (d.config.propertiesOf thing).name =
          (events.foldl UserSettings.step (UserSettings.ofConfig config)).name thing.id ∧
        (d.config.propertiesOf thing).pinned =
          (events.foldl UserSettings.step (UserSettings.ofConfig config)).pinned thing.id := by
  have hnone : ∀ id thing, (start config).engine.things id ≠ some thing := by
    intro id thing ht
    cases ht
  have hstart : Holds toml (UserSettings.ofConfig config) (start config) :=
    ⟨Impl.written_of_parseConfigFile h, fun _ => rfl, fun id thing ht => absurd ht (hnone id thing),
      fun id thing ht => absurd ht (hnone id thing), rfl, rfl⟩
  obtain ⟨d, hexec, hd⟩ := hstart.run htoml parser events
  exact ⟨d, hexec, hd.written, fun thing => ⟨congrFun hd.name thing.id, congrFun hd.pinned thing.id⟩⟩

open RuleEngine

/- A wallbox is named and pinned, and what is set while it is gone is lost. -/
def wallboxEvents : List Event :=
  [.thingAdded wallbox, .userProperties wallbox.id (some "garage".toList) (some true),
    .thingRemoved wallbox.id, .userProperties wallbox.id (some "attic".toList) none, .restart,
    .thingAdded wallbox]

theorem userSettings_kept_wallbox :
    ∃ d, Runs.exec (AppBackend.step inMemory comparisons)
        (start (Impl.setThingInterval inMemory ⟨[], none, 10⟩ 10)) wallboxEvents = some d ∧
      d.config.configFile = some (inMemory.write d.config.configTable) ∧
      ∀ thing,
        (d.config.propertiesOf thing).name = (wallboxEvents.foldl UserSettings.step
          (UserSettings.ofConfig (Impl.setThingInterval inMemory ⟨[], none, 10⟩ 10))).name thing.id ∧
        (d.config.propertiesOf thing).pinned = (wallboxEvents.foldl UserSettings.step
          (UserSettings.ofConfig (Impl.setThingInterval inMemory ⟨[], none, 10⟩ 10))).pinned thing.id :=
  userSettings_kept inMemory_faithful comparisons
    (rfl : Impl.parseConfigFile inMemory none = some _) wallboxEvents

example : ((wallboxEvents.foldl UserSettings.step
    (UserSettings.ofConfig (Impl.setThingInterval inMemory ⟨[], none, 10⟩ 10))).name wallbox.id,
    (wallboxEvents.foldl UserSettings.step
      (UserSettings.ofConfig (Impl.setThingInterval inMemory ⟨[], none, 10⟩ 10))).pinned wallbox.id) =
    (some "garage".toList, some true) := by decide

end AppBackend
end Iotic.Rules
