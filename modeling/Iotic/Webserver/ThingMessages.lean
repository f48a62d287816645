import Iotic.Lib.JsonStrings
import Iotic.Webserver.MessageHandlers

/-!
# Messages about things (WebServer.cpp, WebAppBehavior.cpp, ThingValue.cpp)

A thing is sent with all its properties when it is added and to every client that
connects; what it publishes is passed on. The JSON libraries of both ends are third-party
code: a parameter, with what is relied on as `Faithful`. A property is named by what
`util::toString` makes of its enumerator.
-/

namespace Iotic.Webserver
open ByteString JsonText

/-! ### Documents as text -/

section Text
variable (f : Format JsonValue)

def JsonValue.write : JsonValue → Bytes
  | .null => [110, 117, 108, 108]
  | .boolean true => [116, 114, 117, 101]
  | .boolean false => [102, 97, 108, 115, 101]
  | .integer v => Format.int.write v
  | .string s => Format.string.write s
  | .array elements => f.array.write elements
  | .object members => f.entries.write members
  | _ => []

def readLiteral (text : Bytes) (value : JsonValue) (bs : Bytes) : Option (JsonValue × Bytes) :=
  if text <+: bs then some (value, bs.drop text.length) else none

/- The first byte says what follows. -/
def JsonValue.read (bs : Bytes) : Option (JsonValue × Bytes) :=
  match bs.head? with
  | none => none
  | some b =>
    if b = quote then (Format.string.read bs).map fun r => (.string r.1, r.2)
    else if b = openBracket then (f.array.read bs).map fun r => (.array r.1, r.2)
    else if b = openBrace then (f.entries.read bs).map fun r => (.object r.1, r.2)
    else if b = 110 then readLiteral [110, 117, 108, 108] .null bs
    else if b = 116 then readLiteral [116, 114, 117, 101] (.boolean true) bs
    else if b = 102 then readLiteral [102, 97, 108, 115, 101] (.boolean false) bs
    else (Format.int.read bs).map fun r => (.integer r.1, r.2)

def JsonValue.Writable : JsonValue → Prop
  | .null => True
  | .boolean _ => True
  | .integer _ => True
  | .string s => Utf8 s
  | .array elements => f.array.Writable elements
  | .object members => f.entries.Writable members
  | _ => False

theorem JsonValue.read_write {value : JsonValue} (h : value.Writable f) {rest : Bytes}
    (hrest : Closed rest) : JsonValue.read f (value.write f ++ rest) = some (value, rest) := by
  cases value with
  | null => rfl
  | boolean b => cases b <;> rfl
  | integer v =>
    obtain ⟨b, bs, hcons, hb⟩ := Format.writeInt_cons v
    have hread := Format.int.read_write (a := v) trivial hrest
    have hwrite : JsonValue.write f (.integer v) = Format.int.write v := rfl
    have hne : ∀ c : UInt8, c ≠ minus → ¬ IsDigit c → b ≠ c := by
      rintro c hminus hdigit rfl
      exact hb.elim hminus hdigit
    have hhead : (Format.int.write v ++ rest).head? = some b := by
      rw [show Format.int.write v = b :: bs from hcons]
      rfl
    rw [hwrite, JsonValue.read, hhead]
    simp only [if_neg (hne quote (by decide) (by decide)),
      if_neg (hne openBracket (by decide) (by decide)),
      if_neg (hne openBrace (by decide) (by decide)), if_neg (hne 110 (by decide) (by decide)),
      if_neg (hne 116 (by decide) (by decide)), if_neg (hne 102 (by decide) (by decide)), hread,
      Option.map_some]
  | string s =>
    have hread := Format.string.read_write (a := s) h hrest
    show (Format.string.read (Format.string.write s ++ rest)).map _ = _
    rw [hread]
    rfl
  | array elements =>
    have hread := f.array.read_write (a := elements) h hrest
    show (f.array.read (f.array.write elements ++ rest)).map _ = _
    rw [hread]
    rfl
  | object members =>
    have hread := f.entries.read_write (a := members) h hrest
    show (f.entries.read (f.entries.write members ++ rest)).map _ = _
    rw [hread]
    rfl
  | floating _ => exact absurd h not_false
  | binary => exact absurd h not_false

theorem JsonValue.write_opens {value : JsonValue} (h : value.Writable f) :
    ∃ b bs, value.write f = b :: bs ∧ b ≠ closeBracket ∧ b ≠ closeBrace := by
  cases value with
  | null => exact ⟨110, _, rfl, by decide, by decide⟩
  | boolean b =>
    cases b
    · exact ⟨102, _, rfl, by decide, by decide⟩
    · exact ⟨116, _, rfl, by decide, by decide⟩
  | integer v => exact Format.int.opens (a := v) trivial
  | string s => exact Format.string.opens (a := s) h
  | array elements => exact f.array.opens (a := elements) h
  | object members => exact f.entries.opens (a := members) h
  | floating _ => exact absurd h not_false
  | binary => exact absurd h not_false

/- A value whose elements and members are of format `f`. -/
def documentOf : Format JsonValue where
  write := JsonValue.write f
  read := JsonValue.read f
  Writable := JsonValue.Writable f
  read_write := fun h _ hrest => JsonValue.read_write f h hrest
  opens := JsonValue.write_opens f

end Text

/- Documents of at most so many levels. -/
def documentFormat : ℕ → Format JsonValue
  | 0 => Format.never
  | levels + 1 => documentOf (documentFormat levels)

structure DocumentLibrary where
  dump : JsonValue → Bytes
  jsonDecode : Bytes → Option JsonValue

/- What one end writes the other reads, as deep as messages about things are. -/
def DocumentLibrary.Faithful (lib : DocumentLibrary) : Prop :=
  ∀ doc, (documentFormat 4).Writable doc → lib.jsonDecode (lib.dump doc) = some doc

def DocumentLibrary.compact : DocumentLibrary := ⟨(documentFormat 4).write, (documentFormat 4).parse⟩

theorem DocumentLibrary.compact_faithful : DocumentLibrary.compact.Faithful :=
  fun _ h => (documentFormat 4).parse_write h

/-! ### Things and what is sent of them -/

def toJsonValue : ThingPropertyValue → JsonValue
  | .bool b => .boolean b
  | .int v => .integer v
  | .string s => .string s
  | .ints values => .array (values.map .integer)
  | .bools values => .array (values.map .boolean)

/- The properties in the order in which they were set: of a key the last counts. -/
abbrev ThingPropertyMap := List (Bytes × ThingPropertyValue)

/- A thing as the web server sees it; no name for the type `Unknown`. -/
structure RepositoryThing where
  type : Option Bytes
  properties : ThingPropertyMap
  deriving DecidableEq, Repr

/- `members[key] = value` for each. -/
def setMembers {A : Type} (values members : List (Bytes × A)) : List (Bytes × A) :=
  values.foldl (fun members e => setMember e.1 e.2 members) members

def jsonProperties (properties : ThingPropertyMap) : List (Bytes × JsonValue) :=
  setMembers (properties.map fun e => (e.1, toJsonValue e.2)) []

def RepositoryThing.userProperties (t : RepositoryThing) : List (Bytes × JsonValue) :=
  match t.type with
  | some type => setMember (enumToString "type") (.string type) (jsonProperties t.properties)
  | none => jsonProperties t.properties

/- A `json` is null until a member is set. -/
def objectOrNull (members : List (Bytes × JsonValue)) : JsonValue :=
  if members.isEmpty then .null else .object members

def thingDocument (id : Bytes) (members : List (Bytes × JsonValue)) : JsonValue :=
  .object [(id, objectOrNull members)]

def serializeUserProperties (lib : DocumentLibrary) (id : Bytes) (t : RepositoryThing) : Bytes :=
  lib.dump (thingDocument id t.userProperties)

/- The subscription to what a thing publishes; nothing is sent of nothing. -/
def publishedMessage (lib : DocumentLibrary) (id : Bytes) (prop : ThingPropertyMap) : Option Bytes :=
  let thing_ := jsonProperties prop
  if thing_.isEmpty then none else some (lib.dump (thingDocument id thing_))

/-! ### Members that are set -/

section SetMembers
variable {A : Type}

theorem setMembers_cons (e : Bytes × A) (values members : List (Bytes × A)) :
    setMembers (e :: values) members = setMembers values (setMember e.1 e.2 members) := rfl

theorem setMembers_append (values values' members : List (Bytes × A)) :
    setMembers (values ++ values') members = setMembers values' (setMembers values members) :=
  List.foldl_append

/- What is set hides what was there. -/
theorem member_setMembers (key : Bytes) (values members : List (Bytes × A)) :
    member key (setMembers values members) =
      (member key (setMembers values [])).or (member key members) := by
  induction values generalizing members with
  | nil => rfl
  | cons e values ih =>
    have hone : member key (setMember e.1 e.2 members) =
        (member key (setMember e.1 e.2 [])).or (member key members) := by
      rw [member_setMember, member_setMember]
      split_ifs <;> rfl
    rw [setMembers_cons, setMembers_cons, ih, ih (setMember e.1 e.2 []), hone, Option.or_assoc]

theorem setMembers_sorted (values : List (Bytes × A)) {members : List (Bytes × A)}
    (h : members.Pairwise fun a b => a.1 < b.1) :
    (setMembers values members).Pairwise fun a b => a.1 < b.1 := by
  induction values generalizing members with
  | nil => exact h
  | cons e values ih => exact ih (setMember_sorted e.1 e.2 h)

theorem member_eq_none {key : Bytes} {members : List (Bytes × A)} (h : ∀ e ∈ members, e.1 ≠ key) :
    member key members = none := by
  induction members with
  | nil => rfl
  | cons e members ih =>
    rw [List.forall_mem_cons] at h
    rw [member, if_neg h.1, ih h.2]

theorem mem_of_member {key : Bytes} {value : A} {members : List (Bytes × A)}
    (h : member key members = some value) : (key, value) ∈ members := by
  induction members with
  | nil => cases h
  | cons e members ih =>
    rw [member] at h
    split_ifs at h with hkey
    · obtain rfl := Option.some.inj h
      rw [← hkey]
      exact List.mem_cons_self
    · exact List.mem_cons_of_mem _ (ih h)

/- Of a map, which has one value for a key. -/
theorem member_of_mem {e : Bytes × A} {members : List (Bytes × A)}
    (h : members.Pairwise fun a b => a.1 < b.1) (he : e ∈ members) : member e.1 members = some e.2 := by
  induction members with
  | nil => cases he
  | cons m members ih =>
    obtain ⟨hhd, htl⟩ := List.pairwise_cons.mp h
    rw [member]
    rcases List.mem_cons.mp he with rfl | he
    · rw [if_pos rfl]
    · have hne : m.1 ≠ e.1 := fun hkey => by
        have hlt := hhd e he
        rw [hkey] at hlt
        exact List.lt_irrefl _ hlt
      rw [if_neg hne, ih htl he]

theorem member_isSome {key : Bytes} {members : List (Bytes × A)} :
    (member key members).isSome ↔ ∃ e ∈ members, e.1 = key := by
  constructor
  · intro h
    obtain ⟨value, hvalue⟩ := Option.isSome_iff_exists.mp h
    exact ⟨_, mem_of_member hvalue, rfl⟩
  · rintro ⟨e, he, hkey⟩
    by_contra hnone
    induction members with
    | nil => cases he
    | cons m members ih =>
      rw [member] at hnone
      split_ifs at hnone with hm
      · exact hnone rfl
      · rcases List.mem_cons.mp he with rfl | he
        · exact hm hkey
        · exact ih he hnone

/- A map set member by member is that map. -/
theorem member_setMembers_sorted (key : Bytes) {values : List (Bytes × A)}
    (h : values.Pairwise fun a b => a.1 < b.1) :
    member key (setMembers values []) = member key values := by
  induction values with
  | nil => rfl
  | cons e values ih =>
    obtain ⟨hhd, htl⟩ := List.pairwise_cons.mp h
    rw [setMembers_cons, member_setMembers, ih htl, member, member_setMember]
    by_cases hkey : e.1 = key
    · have hnone : member key values = none := member_eq_none fun m hm hmkey => by
        have hlt := hhd m hm
        rw [hkey, hmkey] at hlt
        exact List.lt_irrefl _ hlt
      rw [hnone, Option.none_or, if_pos hkey.symm, if_pos hkey]
    · rw [if_neg (Ne.symm hkey), if_neg hkey]
      exact Option.or_none

/- The keys of a map are those that were set or were there. -/
theorem mem_setMembers {e : Bytes × A} {values members : List (Bytes × A)}
    (h : e ∈ setMembers values members) : e ∈ values ∨ e ∈ members := by
  induction values generalizing members with
  | nil => exact Or.inr h
  | cons v values ih =>
    rcases ih h with he | he
    · exact Or.inl (List.mem_cons_of_mem _ he)
    · rcases mem_setMember he with rfl | he
      · exact Or.inl List.mem_cons_self
      · exact Or.inr he

theorem member_setMembers_isSome {e : Bytes × A} {values : List (Bytes × A)} (h : e ∈ values)
    (members : List (Bytes × A)) : (member e.1 (setMembers values members)).isSome := by
  induction values generalizing members with
  | nil => cases h
  | cons v values ih =>
    rcases List.mem_cons.mp h with rfl | h
    · rw [setMembers_cons, member_setMembers, member_setMember, if_pos rfl]
      cases member e.1 (setMembers values []) <;> rfl
    · exact ih h _

end SetMembers

/-! ### What is in a message -/

theorem jsonProperties_sorted (properties : ThingPropertyMap) :
    (jsonProperties properties).Pairwise fun a b => a.1 < b.1 :=
  setMembers_sorted _ List.Pairwise.nil

theorem jsonProperties_append (properties prop : ThingPropertyMap) (key : Bytes) :
    member key (jsonProperties (properties ++ prop)) =
      (member key (jsonProperties prop)).or (member key (jsonProperties properties)) := by
  rw [jsonProperties, List.map_append, setMembers_append, member_setMembers]
  rfl

theorem mem_jsonProperties {e : Bytes × JsonValue} {properties : ThingPropertyMap}
    (h : e ∈ jsonProperties properties) : ∃ p ∈ properties, e = (p.1, toJsonValue p.2) := by
  rcases mem_setMembers h with he | he
  · obtain ⟨p, hp, rfl⟩ := List.mem_map.mp he
    exact ⟨p, hp, rfl⟩
  · cases he

theorem exists_mem_jsonProperties {p : Bytes × ThingPropertyValue} {properties : ThingPropertyMap}
    (h : p ∈ properties) : ∃ e ∈ jsonProperties properties, e.1 = p.1 :=
  member_isSome.mp (member_setMembers_isSome
    (List.mem_map_of_mem (f := fun e : Bytes × ThingPropertyValue => (e.1, toJsonValue e.2)) h) [])

theorem jsonProperties_eq_nil {properties : ThingPropertyMap} :
    jsonProperties properties = [] ↔ properties = [] := by
  constructor
  · intro h
    by_contra hne
    obtain ⟨p, hp⟩ := List.exists_mem_of_ne_nil _ hne
    obtain ⟨e, he, -⟩ := exists_mem_jsonProperties hp
    rw [h] at he
    cases he
  · rintro rfl
    rfl

theorem member_userProperties (t : RepositoryThing) (key : Bytes) :
    member key t.userProperties =
      ((if key = enumToString "type" then t.type.map JsonValue.string else none).or
        (member key (jsonProperties t.properties))) := by
  unfold RepositoryThing.userProperties
  cases t.type with
  | none => simp
  | some type =>
    dsimp only
    rw [member_setMember]
    split_ifs <;> rfl

theorem userProperties_sorted (t : RepositoryThing) :
    t.userProperties.Pairwise fun a b => a.1 < b.1 := by
  unfold RepositoryThing.userProperties
  cases t.type with
  | none => exact jsonProperties_sorted _
  | some type => exact setMember_sorted _ _ (jsonProperties_sorted _)

theorem mem_userProperties {e : Bytes × JsonValue} {t : RepositoryThing} (h : e ∈ t.userProperties) :
    (∃ type, t.type = some type ∧ e = (enumToString "type", .string type)) ∨
      ∃ p ∈ t.properties, e = (p.1, toJsonValue p.2) := by
  unfold RepositoryThing.userProperties at h
  cases ht : t.type with
  | none =>
    rw [ht] at h
    exact Or.inr (mem_jsonProperties h)
  | some type =>
    rw [ht] at h
    rcases mem_setMember h with rfl | h
    · exact Or.inl ⟨type, rfl, rfl⟩
    · exact Or.inr (mem_jsonProperties h)

/-! ### What can be written -/

/- Keys and strings are texts. -/
def Texts (properties : ThingPropertyMap) : Prop :=
  ∀ p ∈ properties, Utf8 p.1 ∧ ∀ s, p.2 = .string s → Utf8 s

structure RepositoryThing.IsText (t : RepositoryThing) : Prop where
  type : ∀ type, t.type = some type → Utf8 type
  properties : Texts t.properties

theorem utf8_type : Utf8 (enumToString "type") := ⟨"type".toList, by decide⟩

theorem writable_toJsonValue {v : ThingPropertyValue} (h : ∀ s, v = .string s → Utf8 s) :
    (documentFormat 2).Writable (toJsonValue v) := by
  cases v with
  | bool b => exact trivial
  | int v => exact trivial
  | string s => exact h s rfl
  | ints values =>
    intro j hj
    obtain ⟨v, -, rfl⟩ := List.mem_map.mp hj
    exact trivial
  | bools values =>
    intro j hj
    obtain ⟨b, -, rfl⟩ := List.mem_map.mp hj
    exact trivial

theorem writable_thingDocument {id : Bytes} {members : List (Bytes × JsonValue)} (hid : Utf8 id)
    (hsorted : members.Pairwise fun a b => a.1 < b.1)
    (h : ∀ e ∈ members, Utf8 e.1 ∧ (documentFormat 2).Writable e.2) :
    (documentFormat 4).Writable (thingDocument id members) := by
  have hvalue : (documentFormat 3).Writable (objectOrNull members) := by
    unfold objectOrNull
    split_ifs
    · exact trivial
    · exact ⟨h, hsorted⟩
  refine ⟨fun e he => ?_, List.pairwise_singleton _ _⟩
  obtain rfl := List.mem_singleton.mp he
  exact ⟨hid, hvalue⟩

theorem writable_jsonProperties {properties : ThingPropertyMap} (h : Texts properties) :
    ∀ e ∈ jsonProperties properties, Utf8 e.1 ∧ (documentFormat 2).Writable e.2 := by
  intro e he
  obtain ⟨p, hp, rfl⟩ := mem_jsonProperties he
  exact ⟨(h p hp).1, writable_toJsonValue (h p hp).2⟩

theorem writable_userProperties {t : RepositoryThing} (h : t.IsText) :
    ∀ e ∈ t.userProperties, Utf8 e.1 ∧ (documentFormat 2).Writable e.2 := by
  intro e he
  rcases mem_userProperties he with ⟨type, htype, rfl⟩ | ⟨p, hp, rfl⟩
  · exact ⟨utf8_type, h.type type htype⟩
  · exact ⟨(h.properties p hp).1, writable_toJsonValue (h.properties p hp).2⟩

section Read
variable {lib : DocumentLibrary} (hlib : lib.Faithful) {id : Bytes} (hid : Utf8 id)
include hlib hid

theorem jsonDecode_serializeUserProperties {t : RepositoryThing} (ht : t.IsText) :
    lib.jsonDecode (serializeUserProperties lib id t) = some (thingDocument id t.userProperties) :=
  hlib _ (writable_thingDocument hid (userProperties_sorted t) (writable_userProperties ht))

theorem jsonDecode_publishedMessage {prop : ThingPropertyMap} (hprop : Texts prop) {element : Bytes}
    (h : publishedMessage lib id prop = some element) :
    lib.jsonDecode element = some (thingDocument id (jsonProperties prop)) := by
  unfold publishedMessage at h
  dsimp only at h
  split_ifs at h
  obtain rfl := Option.some.inj h
  exact hlib _ (writable_thingDocument hid (jsonProperties_sorted prop) (writable_jsonProperties hprop))

end Read

end Iotic.Webserver
