import Iotic.Coap.CoapMessage
import Iotic.Lib.Sequences
import Iotic.Webserver.SiteHistory

/-!
# What clients and devices may send (WebAppBehavior.cpp, WebAppRouter.cpp, ThingDiscovery.cpp)

Three handlers walk through a document a message is decoded to, as far as they need to
know what it asks for. An exception that leaves a handler ends the daemon, for nothing
catches it. The JSON library is a parameter.
-/

namespace Iotic.Webserver
open ByteString Coap

/- `undefined` stands for behaviour that is not defined. -/
inductive Exception
  | parse_error
  | type_error
  | bad_variant_access
  | undefined
  | other
  deriving DecidableEq, Repr

/- Of a floating-point number only what a cast to `int` makes of it is kept. The members
of an object are in the order of their keys. -/
inductive JsonValue
  | null
  | boolean (b : Bool)
  | integer (v : ℤ)
  | floating (asInt : ℤ)
  | string (s : Bytes)
  | array (elements : List JsonValue)
  | object (members : List (Bytes × JsonValue))
  | binary

namespace JsonValue

/-- `get<int>()`, which also takes a boolean. -/
def getInt : JsonValue → Except Exception ℤ
  | boolean b => .ok (if b then 1 else 0)
  | integer v => .ok (v.bmod (2 ^ 32))
  | floating v => .ok v
  | _ => .error .type_error

def getBool : JsonValue → Except Exception Bool
  | boolean b => .ok b
  | _ => .error .type_error

def isNumberInteger : JsonValue → Bool
  | integer _ => true
  | _ => false

def size : JsonValue → ℕ
  | null => 0
  | array elements => elements.length
  | object members => members.length
  | _ => 1

/-- `items().begin().key()`: elements of an array are counted, anything else has none. -/
def firstKey : JsonValue → Bytes
  | array (_ :: _) => [48]
  | object ((key, _) :: _) => key
  | _ => []

/-- `get<std::vector<int>>()`. -/
def getInts : JsonValue → Except Exception (List ℤ)
  | array elements => elements.mapM getInt
  | _ => .error .type_error

end JsonValue

/- The alternatives of `ThingPropertyValue` that a message can have. -/
inductive ThingPropertyValue
  | bool (b : Bool)
  | int (v : ℤ)
  | string (s : Bytes)
  | ints (values : List ℤ)
  | bools (values : List Bool)
  deriving DecidableEq, Repr

open JsonValue in
def fromJsonValue : JsonValue → Except Exception ThingPropertyValue
  | boolean b => .ok (.bool b)
  | integer v => (integer v).getInt.map .int
  | string s => .ok (.string s)
  | array elements =>
    if elements.length = 3 ∧ (elements.head?.map isNumberInteger).getD false then
      (elements.mapM getInt).map .ints
    else (elements.mapM getBool).map .bools
  | j => j.getInt.map .int

/- What a message asks for: a property that is set on a thing, which may be the site's
interval, a part of the history, the voltage of a thing with two flaps. -/
inductive Reaction
  | ignored
  | thingInterval (seconds : ℤ)
  | property (thingId property : Bytes) (value : JsonValue)
  | siteHistory (fromTs toTs : ℤ)
  | flaps (thingId : Bytes) (flap1 flap2 : ℤ)

/- A property is named by its enumerator. -/
structure Environment where
  parse : Bytes → Option JsonValue
  from_cbor : Bytes → Option JsonValue
  isProperty : Bytes → Bool

def Environment.parseError (doc : Option JsonValue) : Except Exception JsonValue :=
  match doc with
  | some doc => .ok doc
  | none => .error .parse_error

/- The only route is the one to the thing interval of the site. -/
def routed (thing property : Bytes) : Bool :=
  thing = enumToString "site" ∧ property = enumToString "thing_interval"

def setThingInterval : ThingPropertyValue → Except Exception Reaction
  | .int seconds => .ok (.thingInterval seconds)
  | _ => .error .bad_variant_access

/-- `behavior.message` of a text. -/
def onTextMessage (env : Environment) (message : Bytes) : Except Exception Reaction := do
  let doc ← Environment.parseError (env.parse message)
  match doc with
  | .object ((thingId, .object ((property, value) :: _)) :: _) =>
    if env.isProperty property then do
      let v ← fromJsonValue value
      if routed thingId property then setThingInterval v
      else .ok (.property thingId property value)
    else .ok .ignored
  | _ => .ok .ignored

def onBinaryMessage (env : Environment) (message : Bytes) : Except Exception Reaction := do
  let doc ← Environment.parseError (env.from_cbor message)
  if doc.size ≠ 1 then .ok .ignored
  else if doc.firstKey ≠ enumToString "site" then .ok .ignored
  else
    match doc with
    | .object [(_, .object members)] =>
      match member (enumToString "timestamp") members with
      | none => .ok .ignored
      | some value => do
        let timestamps ← value.getInts
        match timestamps with
        | [fromTs, toTs] => .ok (.siteHistory fromTs toTs)
        | _ => .ok .ignored
    | _ => .ok .ignored

/- Of the things that answer only those called PicoW are known. -/
def picoW : Bytes := "PicoW".toList.map fun c => UInt8.ofNat c.toNat

/-- The handler of a CoAP message. -/
def onCoapMessage (env : Environment) (msg : CoapMessage) : Except Exception Reaction :=
  if ¬ picoW <+: msg.token then .ok .ignored
  else do
    let doc ← Environment.parseError (env.from_cbor msg.payload)
    match doc with
    | .object members =>
      match member (enumToString "flap") members with
      | some (.array [first, second]) => do
        let flap1 ← first.getInt
        let flap2 ← second.getInt
        .ok (.flaps msg.token flap1 flap2)
      | _ => .ok .ignored
    | _ => .ok .ignored

/-! ### Values that can be read -/

section Reading
variable (env : Environment) {P : Reaction → Prop}

end Reading
end Iotic.Webserver
