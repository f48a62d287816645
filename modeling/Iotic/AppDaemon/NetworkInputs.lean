import Iotic.AppDaemon.Listeners
import Mathlib.Data.List.MinMax

/-!
# What the network may send (WebAppBehavior.cpp, WebAppRouter.cpp, ThingDiscovery.cpp)

A text message sets a property, a binary one asks for a part of the history, and a
datagram tells of a thing with two flaps, which is added when it is new. The handler has
returned once all who listen have been told.
-/

namespace Iotic.AppDaemon
open ByteString Coap JsonText Config Things Rules Webserver Database Stats

inductive Input
  | text (message : Bytes)
  | binary (message : Bytes)
  | datagram (data : Bytes) (senderAddress : String) (senderPort : UInt16)

/-! ### The rules of a new thing -/

section Rules
variable {File : Type} (o : Outside File)

/- `add_variable_or_function` for every symbol of the table, which throws where the name is
not one of a variable. -/
def addVariables (symbolTable : SymbolTable) : Except Exception Unit :=
  if ∀ symbol ∈ symbolTable, o.isVariable symbol = true then .ok () else .error .other

/- `RuleActuationStrategy::from`, as far as it may throw: a parser whose expression
compiles is given the variables. -/
def parseRules (cfg : ConfigRepository) (symbolTable : SymbolTable) (thing : Thing) :
    Except Exception Unit :=
  let onExpressionStr := cfg.valueOr TomlValue.string? thing.id .on []
  if onExpressionStr.isEmpty then .ok ()
  else
    let offExpressionStr := cfg.valueOr TomlValue.string? thing.id .off []
    if offExpressionStr.isEmpty then .ok ()
    else
      match createParser o.parser symbolTable onExpressionStr with
      | (none, _) => .ok ()
      | (some _, symbolTable) => do
        addVariables o symbolTable
        match createParser o.parser symbolTable offExpressionStr with
        | (none, _) => .ok ()
        | (some _, symbolTable) => addVariables o symbolTable

/- The condition on the rules of a thing, if there are two and the first compiles: all
symbols known so far are variables, and so are those of the rules. -/
def RulesParse (cfg : ConfigRepository) (symbolTable : SymbolTable) (thing : Thing) : Prop :=
  let on := cfg.valueOr TomlValue.string? thing.id .on []
  let off := cfg.valueOr TomlValue.string? thing.id .off []
  on ≠ [] → off ≠ [] → (o.parser.compile on).1 = true →
    (∀ symbol ∈ symbolTable, o.isVariable symbol = true) ∧
    (∀ symbol ∈ (o.parser.compile on).2, o.isVariable symbol = true) ∧
    ((o.parser.compile off).1 = true →
      ∀ symbol ∈ (o.parser.compile off).2, o.isVariable symbol = true)

end Rules

/-! ### The handlers -/

namespace Backend
variable {File : Type} (o : Outside File)

/- `CoapThing::from`: a heater, and no object that is already there. -/
def coapThing (d : Backend File) (id : Bytes) : Thing :=
  let objects := (d.app.persisted ++ d.app.wallboxes ++ d.app.engine.subscriptions).map Thing.object
  ⟨nameOf id, .other 0, objects.foldr max 0 + 1⟩

/- What a new thing has been told by the time it is sent to the clients. -/
def addedThing (props : Config.ThingPropertyMap) : RepositoryThing where
  type := some (enumToString "heater")
  properties :=
    (props.name.map fun v => (enumToString "name", .string (bytesOf v))).toList ++
      (props.pinned.map fun v => (enumToString "pinned", .bool v)).toList ++
      (props.offset.map fun v => (enumToString "offset", .int v)).toList

/- `setPropertiesTo` looks into the thing's table. The strategy is made of rules; the
offset that this sets is in the table of offsets, and persisted in the table of the thing. -/
def addCoapThing (d : Backend File) (id : Bytes) : Except Exception (Backend File) := do
  let thing := d.coapThing id
  let props := d.app.config.propertiesOf thing
  if isScalar d.scalars thing.id then .error .type_error
  else do
    let app ← settle o d.scalars d.app thing props []
    let app := { app with persisted := thing :: app.persisted }
    parseRules o app.config.repository (app.makingStrategy thing).symbolTable thing
    let offset := app.strategyOffset o.parser thing
    let app := app.makeStrategy o.toml o.parser thing
    let added := addedThing { props with offset := offset.or props.offset }
    let text ← broadcast o (thingDocument id added.userProperties)
    .ok { d with app := app, sent := d.sent ++ [text] }

/- The clients are told before the interval is persisted. -/
def setThingInterval (d : Backend File) (seconds : ℤ) : Except Exception (Backend File) := do
  let text ← broadcast o (thingDocument (enumToString "site")
    [(enumToString "thing_interval", .integer seconds)])
  if isScalar d.scalars "site".toList then .error .type_error
  else .ok { d with
    app := { d.app with config := d.app.config.setThingInterval o.toml seconds }
    sent := d.sent ++ [text] }

/- A property that is not the interval of the site. -/
def setProperty (d : Backend File) (thingId property : Bytes) (value : JsonValue) :
    Except Exception (Backend File) := do
  let value ← o.set property value
  d.setThingProperties o (nameOf thingId) property value

/- What is sent goes to the client that asked, and nothing changes. -/
def sendSiteHistory (d : Backend File) (fromTs toTs : ℤ) : Except Exception (Backend File) :=
  match serializeSiteHistory o.json d.siteHistory fromTs toTs with
  | some _ => .ok d
  | none => .error .undefined

/- The thing is in the repository from then on. -/
def discover (d : Backend File) (id : Bytes) : Except Exception (Backend File) :=
  match d.app.engine.things (nameOf id) with
  | some _ => .ok d
  | none => d.addCoapThing o id

def setFlaps (d : Backend File) (id : Bytes) (flap1 flap2 : ℤ) :
    Except Exception (Backend File) := do
  let d ← d.discover o id
  d.setThingProperties o (nameOf id) (enumToString "voltage")
    (.ints [o.percent flap1, o.percent flap2, 0])

/- The rest of the handlers. -/
def carryOut (d : Backend File) : Reaction → Except Exception (Backend File)
  | .ignored => .ok d
  | .thingInterval seconds => d.setThingInterval o seconds
  | .property thingId property value => d.setProperty o thingId property value
  | .siteHistory fromTs toTs => d.sendSiteHistory o fromTs toTs
  | .flaps id flap1 flap2 => d.setFlaps o id flap1 flap2

/- What `decode` does not accept reaches no handler. -/
def handle (d : Backend File) : Input → Except Exception (Backend File)
  | .text message => do
    let reaction ← onTextMessage o.toEnvironment message
    d.carryOut o reaction
  | .binary message => do
    let reaction ← onBinaryMessage o.toEnvironment message
    d.carryOut o reaction
  | .datagram data senderAddress senderPort =>
    match CoapMessage.decode data senderAddress senderPort with
    | .ok msg => do
      let reaction ← onCoapMessage o.toEnvironment msg
      d.carryOut o reaction
    | .error _ => .ok d

/-! ### What is harmless -/

/- The condition on a thing that is new: what the configuration has for it is a table, with
a text for a name and rules that parse. -/
structure Joins (d : Backend File) (id : Bytes) : Prop where
  table : nameOf id ∉ d.scalars
  rules : RulesParse o d.app.config.repository d.app.engine.symbolTable (d.coapThing id)
  name : ∀ name ∈ (d.app.config.propertiesOf (d.coapThing id)).name, Utf8 (bytesOf name)

/- The condition on what two flaps tell. -/
def Tells (d : Backend File) (id : Bytes) : Prop :=
  match d.app.engine.things (nameOf id) with
  | some thing => Utf8 (bytesOf thing.id)
  | none => Utf8 id ∧ d.Joins o id

section New
variable {o : Outside File} {d : Backend File} {id : Bytes}

end New

/-! ### When a handler goes on -/

section CarryOut
variable {o : Outside File} (d : Backend File)

end CarryOut

def text (characters : String) : Bytes := bytesOf characters.toList

/- The range [from, to] of the history that a client asks for. -/
def rangeRequest (fromTs toTs : UInt8) : Bytes :=
  [0xa1, 0x64] ++ text "site" ++ [0xa1, 0x69] ++ text "timestamp" ++
    [0x82, 0x18, fromTs, 0x18, toTs]

/- A datagram of a device whose name begins with PicoW, of one more byte at most. -/
def answer (suffix payload : Bytes) : Bytes :=
  [0x45 + UInt8.ofNat suffix.length, 0x45, 0, 0] ++ picoW ++ suffix ++ 0xff :: payload

def flapLevels : Bytes := [0xa1, 0x64] ++ text "flap" ++ [0x82, 0x19, 0x03, 0xe8, 0x00]

def intervalText : Bytes := text "\x7b\"site\":\x7b\"thing_interval\":\"x\"\x7d\x7d"

/- Libraries that read these messages. -/
def samples : Outside TomlTable where
  parse message :=
    if message = intervalText then
      some (.object [(enumToString "site",
        .object [(enumToString "thing_interval", .string (text "x"))])])
    else none
  from_cbor bytes :=
    if bytes = rangeRequest 45 20 then
      some (.object [(enumToString "site",
        .object [(enumToString "timestamp", .array [.integer 45, .integer 20])])])
    else if bytes = flapLevels then
      some (.object [(enumToString "flap", .array [.integer 1000, .integer 0])])
    else none
  isProperty property := property = enumToString "thing_interval"
  toml := inMemory
  parser := RuleEngine.comparisons
  isVariable symbol := symbol.all fun c => c.isAlphanum || c = '_' || c = '.'
  json := .shortest
  dump doc := if isUtf8 doc then some ((documentFormat 4).write doc) else none
  set _ := fromJsonValue
  fails _ := false
  seconds := 1700000000
  lastSeen _ := 1700000000
  percent level := if level = 1000 then 7 else -25

/- A daemon that has found no thing, some readings of the site after its start. -/
def idle : Backend TomlTable where
  app := .start ⟨[], none, 10⟩
  scalars := []
  site_table := by simp
  relays _ := none
  db := .fresh
  stats := .start
  siteHistory := [⟨10, 0, 0⟩, ⟨20, 0, 0⟩, ⟨30, 0, 0⟩, ⟨40, 0, 0⟩, ⟨50, 0, 0⟩]
  sent := []

end Backend
end Iotic.AppDaemon
