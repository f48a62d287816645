import Iotic.Config.ConfigRepository
import Iotic.Things.Thing

/-!
# The configuration file (ConfigRepository.cpp)

Name, pinned and offset of a thing are written to the file whenever they are set,
and set again when the thing is found after a restart. The TOML library is
third-party code: a parameter, with what is relied on as `Faithful`.
-/

namespace Iotic.Config
open Iotic.Things

/-! ### Offsets (common/OffsetTable.h) -/

/- The ends are those of `int16_t`. -/
def offsetTable : List ℤ := [-32768, -2000, -1000, 0, 1000, 2000, 5000, 10000, 32767]

/- An offset is an index of the table. -/
abbrev Offset := { o : ℤ // 0 ≤ o ∧ o < offsetTable.length }

def defaultOffset : Offset := ⟨3, by decide⟩

/- An index of the table is read back as the `int` it is. -/
theorem bmod_offset {o : ℤ} (h : 0 ≤ o ∧ o < offsetTable.length) : o.bmod (2 ^ 32) = o := by
  have hlength : (offsetTable.length : ℤ) = 9 := rfl
  exact Int.bmod_eq_of_le (by omega) (by omega)

/-! ### Tables -/

abbrev TomlTable := List (Name × List (Key × TomlValue))

def insertOrAssign {K V : Type} [DecidableEq K] (key : K) (value : V) : List (K × V) → List (K × V)
  | [] => [(key, value)]
  | (k, v) :: rest =>
    if k = key then (k, value) :: rest else (k, v) :: insertOrAssign key value rest

section Lookup
variable {K V : Type} [BEq K] [LawfulBEq K] [DecidableEq K]

theorem lookup_cons_ite (k a : K) (v : V) (table : List (K × V)) :
    ((a, v) :: table).lookup k = if k = a then some v else table.lookup k := by
  rw [List.lookup_cons]
  by_cases h : k = a
  · simp [h]
  · rw [if_neg h, beq_eq_false_iff_ne.mpr h]

theorem lookup_insertOrAssign (key k : K) (value : V) (table : List (K × V)) :
    (insertOrAssign key value table).lookup k = if k = key then some value else table.lookup k := by
  induction table with
  | nil => exact lookup_cons_ite k key value []
  | cons e table ih =>
    obtain ⟨a, v⟩ := e
    rw [insertOrAssign]
    by_cases ha : a = key
    · subst ha
      rw [if_pos rfl, lookup_cons_ite, lookup_cons_ite]
      split_ifs <;> rfl
    · rw [if_neg ha, lookup_cons_ite, lookup_cons_ite, ih]
      by_cases h : k = a
      · rw [if_pos h, if_neg fun hk => ha (h.symm.trans hk), if_pos h]
      · rw [if_neg h, if_neg h]

end Lookup

def TomlValue.boolean? : TomlValue → Option Bool
  | .boolean b => some b
  | _ => none

/- A malformed file makes `parse` throw. -/
structure TomlLibrary (File : Type) where
  write : TomlTable → File
  parse : File → Option TomlTable

/- The value of a key of a table, if both are there. -/
def valueAt (configTable : TomlTable) (table : Name) (key : Key) : Option TomlValue :=
  (configTable.lookup table).bind fun entries => entries.lookup key

/- What was written is read back, in whatever order the tables and keys then stand. -/
def TomlLibrary.Faithful {File : Type} (toml : TomlLibrary File) : Prop :=
  ∀ configTable, ∃ parsed, toml.parse (toml.write configTable) = some parsed ∧
    valueAt parsed = valueAt configTable

/- A library that keeps the table as it is. -/
def inMemory : TomlLibrary TomlTable := ⟨id, some⟩

theorem inMemory_faithful : inMemory.Faithful := fun configTable => ⟨configTable, rfl, rfl⟩

/-! ### Reading and writing the file -/

/- The properties of a thing that are persisted, as far as they are set. -/
structure ThingPropertyMap where
  name : Option Name
  pinned : Option Bool
  offset : Option ℤ
  deriving DecidableEq, Repr

def ThingPropertyMap.empty : ThingPropertyMap := ⟨none, none, none⟩

/- The table, and what the file holds if there is one. -/
structure Impl (File : Type) where
  configTable : TomlTable
  configFile : Option File
  thingInterval : ℤ

namespace Impl
variable {File : Type}

def repository (c : Impl File) : ConfigRepository where
  configTable := valueAt c.configTable

/- A table that is missing is created. -/
def persistProperty (toml : TomlLibrary File) (c : Impl File) (table : Name) (key : Key)
    (value : TomlValue) : Impl File :=
  let entries := (c.configTable.lookup table).getD []
  let configTable := insertOrAssign table (insertOrAssign key value entries) c.configTable
  { c with configTable := configTable, configFile := some (toml.write configTable) }

def setThingInterval (toml : TomlLibrary File) (c : Impl File) (seconds : ℤ) : Impl File :=
  { c with thingInterval := seconds }.persistProperty toml "site".toList .thing_interval
    (.integer seconds)

/- Without a file the table is empty. The thing interval is written back at once. -/
def parseConfigFile (toml : TomlLibrary File) (file : Option File) : Option (Impl File) :=
  let configTable := match file with
    | some file => toml.parse file
    | none => some []
  configTable.map fun configTable =>
    let c : Impl File := ⟨configTable, file, 10⟩
    c.setThingInterval toml (c.repository.siteValueOr TomlValue.int? .thing_interval 10)

/- What `setPropertiesTo` sets: the values that are there with the right type. -/
def propertiesOf (c : Impl File) (thing : Thing) : ThingPropertyMap where
  name := (c.repository.configTable thing.id .name).bind TomlValue.string?
  pinned := (c.repository.configTable thing.id .pinned).bind TomlValue.boolean?
  offset := (c.repository.configTable thing.id .offset).bind TomlValue.int?

/- The subscription to the properties of a thing. -/
def persistProperties (toml : TomlLibrary File) (c : Impl File) (thing : Thing)
    (props : ThingPropertyMap) : Impl File :=
  let c := props.name.elim c fun v => c.persistProperty toml thing.id .name (.string v)
  let c := props.pinned.elim c fun v => c.persistProperty toml thing.id .pinned (.boolean v)
  props.offset.elim c fun v => c.persistProperty toml thing.id .offset (.integer v)

/-! ### What is persisted -/

theorem persistProperty_configTable (toml : TomlLibrary File) (c : Impl File) (table : Name)
    (key : Key) (value : TomlValue) (table' : Name) (key' : Key) :
    (c.persistProperty toml table key value).repository.configTable table' key' =
      if table' = table ∧ key' = key then some value else c.repository.configTable table' key' := by
  unfold persistProperty repository
  simp only [valueAt, lookup_insertOrAssign]
  by_cases ht : table' = table
  · subst ht
    rw [if_pos rfl, Option.bind_some, lookup_insertOrAssign]
    by_cases hk : key' = key
    · simp [hk]
    · rw [if_neg hk, if_neg fun h => hk h.2]
      cases c.configTable.lookup table' <;> rfl
  · rw [if_neg ht, if_neg fun h => ht h.1]

/- A value that is persisted, if there is one, leaves the other keys alone. -/
theorem persistProperty_other {A : Type} (toml : TomlLibrary File) (c : Impl File)
    (table table' : Name) (v : Option A) (value : A → TomlValue) {key key' : Key} (h : key' ≠ key) :
    (v.elim c fun v => c.persistProperty toml table key (value v)).repository.configTable table' key' =
      c.repository.configTable table' key' := by
  cases v with
  | none => rfl
  | some v =>
    rw [Option.elim_some, persistProperty_configTable, if_neg fun hsame => h hsame.2]

/- The offset the configuration has afterwards: the one persisted, or the one before. -/
theorem persistProperties_offset (toml : TomlLibrary File) (c : Impl File) (thing : Thing)
    (props : ThingPropertyMap) (thing' : Thing) :
    ((c.persistProperties toml thing props).propertiesOf thing').offset =
      ((if thing'.id = thing.id then props.offset else none).map (·.bmod (2 ^ 32))).or
        (c.propertiesOf thing').offset := by
  have hname := persistProperty_other toml c thing.id thing'.id props.name .string
    (show Key.offset ≠ .name by decide)
  have hpinned := persistProperty_other toml
    (props.name.elim c fun v => c.persistProperty toml thing.id .name (.string v)) thing.id thing'.id
    props.pinned .boolean (show Key.offset ≠ .pinned by decide)
  have hbefore := hpinned.trans hname
  unfold persistProperties propertiesOf
  dsimp only
  generalize Option.elim props.pinned _ _ = c' at hbefore ⊢
  cases props.offset with
  | none => simp [hbefore]
  | some o =>
    rw [Option.elim_some, persistProperty_configTable]
    by_cases hid : thing'.id = thing.id
    · simp [hid, TomlValue.int?]
    · simp [hid, hbefore]

/- The file holds the table. -/
def Written (toml : TomlLibrary File) (c : Impl File) : Prop :=
  c.configFile = some (toml.write c.configTable)

theorem persistProperty_written (toml : TomlLibrary File) (c : Impl File) (table : Name) (key : Key)
    (value : TomlValue) : (c.persistProperty toml table key value).Written toml := rfl

/- What persisting one property keeps, persisting the properties of a thing keeps. -/
theorem persistProperties_keeps {toml : TomlLibrary File} {thing : Thing} {P : Impl File → Prop}
    (hP : ∀ c key value, key ≠ .thing_interval → P c → P (c.persistProperty toml thing.id key value))
    {c : Impl File} (h : P c) (props : ThingPropertyMap) :
    P (c.persistProperties toml thing props) := by
  have hset : ∀ {A : Type} {c : Impl File} (v : Option A) (key : Key) (value : A → TomlValue),
      key ≠ .thing_interval → P c →
        P (v.elim c fun v => c.persistProperty toml thing.id key (value v)) := by
    intro A c v key value hkey hc
    cases v with
    | none => exact hc
    | some v => exact hP c key (value v) hkey hc
  have hname := hset props.name .name .string (by decide) h
  have hpinned := hset props.pinned .pinned .boolean (by decide) hname
  exact hset props.offset .offset .integer (by decide) hpinned

theorem persistProperties_written {toml : TomlLibrary File} {c : Impl File} (h : c.Written toml)
    (thing : Thing) (props : ThingPropertyMap) : (c.persistProperties toml thing props).Written toml :=
  persistProperties_keeps
    (fun c key value _ _ => persistProperty_written toml c thing.id key value) h props

/- Starting writes the file. -/
theorem written_of_parseConfigFile {toml : TomlLibrary File} {file : Option File} {c : Impl File}
    (h : parseConfigFile toml file = some c) : c.Written toml := by
  obtain ⟨table, -, rfl⟩ := Option.map_eq_some_iff.mp h
  rfl

/- After a restart the configuration is the one before, but for the thing interval,
which a default may have filled in. -/
theorem parseConfigFile_written {toml : TomlLibrary File} (htoml : toml.Faithful) {c : Impl File}
    (h : c.Written toml) : ∃ c', parseConfigFile toml c.configFile = some c' ∧ c'.Written toml ∧
      ∀ table key, key ≠ .thing_interval →
        c'.repository.configTable table key = c.repository.configTable table key := by
  obtain ⟨parsed, hparsed, hsame⟩ := htoml c.configTable
  unfold parseConfigFile
  rw [h]
  simp only [hparsed, Option.map_some, Option.some_inj, exists_eq_left']
  refine ⟨rfl, fun table key hkey => ?_⟩
  unfold setThingInterval
  rw [persistProperty_configTable, if_neg fun h => hkey h.2]
  exact congrFun (congrFun hsame table) key

end Impl
end Iotic.Config
