import Iotic.Database.PowerReadings
import Iotic.Database.WriteFailure
import Iotic.Rules.UserSettings
import Iotic.Stats.StatsDaily
import Iotic.Things.ShellyGen2Thing
import Iotic.Webserver.ThingMessages

/-!
# Who listens to a property (AppBackend.cpp)

A property that is set on a thing is first a command to the thing and then goes to its
subscribers: the configuration, the strategies and the rule engine, the database, the web
server and the statistics, in the order in which they subscribe to a thing that is added.
An engine that comes to listen later is told later, which does not change whether all of
them return. Each may throw, and nothing catches it.
-/

namespace Iotic.AppDaemon
open ByteString JsonText Config Things Rules Webserver Database Stats

/-! ### Texts -/

/- A name has a character for each byte of the string it stands for. -/
def nameOf (text : Bytes) : Name := text.map fun b => Char.ofNat b.toNat

def bytesOf (name : Name) : Bytes := name.map fun c => UInt8.ofNat c.toNat

mutual

/-- All strings and keys of a document are UTF-8. -/
def isUtf8 : JsonValue → Bool
  | .string s => decide (Utf8 s)
  | .array elements => elementsUtf8 elements
  | .object members => membersUtf8 members
  | _ => true

def elementsUtf8 : List JsonValue → Bool
  | [] => true
  | j :: elements => isUtf8 j && elementsUtf8 elements

def membersUtf8 : List (Bytes × JsonValue) → Bool
  | [] => true
  | e :: members => memberUtf8 e && membersUtf8 members

def memberUtf8 : Bytes × JsonValue → Bool
  | (key, j) => decide (Utf8 key) && isUtf8 j

end

/-! ### The daemon -/

/- What is not code of this repository: the libraries, the conversion of a document to the
value of a property, what libmdbx refuses, the clock and when a thing was last heard of,
and arithmetic of floats. `dump` throws where it gives nothing. The other classes of
things and the site, which are not either, are taken to return. -/
structure Outside (File : Type) extends Environment where
  toml : TomlLibrary File
  parser : Parser
  isVariable : Name → Bool
  json : JsonLibrary
  dump : JsonValue → Option Bytes
  set : Bytes → JsonValue → Except Exception ThingPropertyValue
  fails : WriteStep → Bool
  seconds : ℤ
  lastSeen : Name → UInt32
  percent : ℤ → ℤ

/- `scalars` are the entries of the configuration that stand where a table should; the
daemon does not start where the site is one of them. `sent` are the texts for all clients. -/
structure Backend (File : Type) where
  app : AppBackend File
  scalars : List Name
  site_table : "site".toList ∉ scalars
  relays : Name → Option ShellyGen2Thing
  db : DatabasePrivate
  stats : StatsDaily
  siteHistory : List Properties
  sent : List Bytes

/- An entry that is there, but is no table. -/
def isScalar (scalars : List Name) (table : Name) : Bool := scalars.contains table

/- What the configuration keeps. -/
def settings (property : Bytes) : ThingPropertyValue → Config.ThingPropertyMap
  | .string s => if property = enumToString "name" then ⟨some (nameOf s), none, none⟩ else .empty
  | .bool b => if property = enumToString "pinned" then ⟨none, some b, none⟩ else .empty
  | .int v => if property = enumToString "offset" then ⟨none, none, some v⟩ else .empty
  | _ => .empty

/- The symbol of an arithmetic value; those of what the configuration keeps are set with it. -/
def readings (thing : Thing) (property : Bytes) : ThingPropertyValue → List Name
  | .int _ => if property = enumToString "offset" then [] else [thing.id ++ '.' :: nameOf property]
  | .bool _ =>
    if property = enumToString "offset" ∨ property = enumToString "pinned" then []
    else [thing.id ++ '.' :: nameOf property]
  | _ => []

/- What the database stores, in tens of watts. -/
def datapoint (property : Bytes) : ThingPropertyValue → Option (ThingPropertyKey × Datapoint)
  | .int v => if property = enumToString "power" then some (.power, [decaWatts v]) else none
  | .ints vs =>
    if property = enumToString "dcPower" then some (.dcPower, vs.map decaWatts) else none
  | _ => none

/-! ### The listeners -/

section Listeners
variable {File : Type} (o : Outside File)

/- `onSetProperties` of a relay. -/
def command (relay : Option ShellyGen2Thing) (property : Bytes) :
    ThingPropertyValue → Except Exception (Option ShellyGen2Thing)
  | .bools states =>
    if property = enumToString "multistateSelector" then
      match relay with
      | none => .ok none
      | some relay =>
        match relay.onSetProperties states with
        | some (_, relay) => .ok (some relay)
        | none => .error .undefined
    else .ok relay
  | _ => .ok relay

/- The configuration, the strategies and the engine. What is persisted goes into a table,
and an offset is an index for those who look it up. -/
def settle (scalars : List Name) (app : AppBackend File) (thing : Thing)
    (props : Config.ThingPropertyMap) (symbols : List Name) : Except Exception (AppBackend File) :=
  if thing ∈ app.persisted ∧ props ≠ .empty ∧ isScalar scalars thing.id then .error .type_error
  else if app.lookingUp thing ≠ [] ∧ ¬ ∀ i ∈ props.offset, AppBackend.InTable i then
    .error .undefined
  else
    let app := app.setProperties o.toml thing props
    .ok { app with engine := { app.engine with
      symbolTable :=
        if thing ∈ app.engine.subscriptions then resolveSymbols app.engine.symbolTable symbols
        else app.engine.symbolTable } }

/- The database. -/
def record (db : DatabasePrivate) (thing : Thing) (property : Bytes) (value : ThingPropertyValue) :
    Except Exception DatabasePrivate :=
  match datapoint property value with
  | none => .ok db
  | some (key, datapoint) =>
    match db.putDatapointFailing o.fails thing.id key (o.lastSeen thing.id) datapoint with
    | (none, db) => .ok db
    | (some _, _) => .error .other

/- A text for all clients. -/
def broadcast (doc : JsonValue) : Except Exception Bytes :=
  match o.dump doc with
  | some text => .ok text
  | none => .error .type_error

/- The statistics, with the energy they set. -/
def count (stats : StatsDaily) (thing : Thing) (property : Bytes) :
    ThingPropertyValue → Except Exception (StatsDaily × Option (List ℤ))
  | .ints value =>
    if property = enumToString "dcPower" then
      match stats.onReading ⟨thing, o.seconds, value⟩ with
      | some counted => .ok counted
      | none => .error .undefined
    else .ok (stats, none)
  | _ => .ok (stats, none)

end Listeners

namespace Backend
variable {File : Type} (o : Outside File)

/- All but the statistics. -/
def notify (d : Backend File) (thing : Thing) (property : Bytes) (value : ThingPropertyValue) :
    Except Exception (Backend File) := do
  let relay ← command (d.relays thing.id) property value
  let app ← settle o d.scalars d.app thing (settings property value) (readings thing property value)
  let db ← record o d.db thing property value
  let text ← broadcast o (thingDocument (bytesOf thing.id) (jsonProperties [(property, value)]))
  .ok { d with
    relays := Function.update d.relays thing.id relay
    app := app
    db := db
    sent := d.sent ++ [text] }

/- `thing->setProperties` of one property, which is published. The statistics set another,
which they do not listen to themselves. -/
def setProperties (d : Backend File) (thing : Thing) (property : Bytes)
    (value : ThingPropertyValue) : Except Exception (Backend File) := do
  let d ← d.notify o thing property value
  let (stats, energy) ← count o d.stats thing property value
  let d := { d with stats := stats }
  match energy with
  | none => .ok d
  | some energy => d.notify o thing (enumToString "dcEnergy") (.ints energy)

def setThingProperties (d : Backend File) (thingId : Name) (property : Bytes)
    (value : ThingPropertyValue) : Except Exception (Backend File) :=
  match d.app.engine.things thingId with
  | none => .ok d
  | some thing => d.setProperties o thing property value

end Backend

/-! ### When a listener returns -/

section Returns
variable {File : Type} (o : Outside File)

end Returns

/-! ### When a property can be set -/

namespace Backend
variable {File : Type} {o : Outside File} {d : Backend File} {thing : Thing} {property : Bytes}
  {value : ThingPropertyValue}

end Backend
end Iotic.AppDaemon
