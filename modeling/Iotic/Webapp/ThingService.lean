import Iotic.Webapp.SiteRepository
import Iotic.Webserver.ThingMessages

/-!
# Things in the web app (web_socket_service.dart, thing_service.dart, thing_properties.dart)

What a text message makes of the things and settings the web app shows. What is about the
site is left to `Client`. `none` is an exception: it ends the stream of messages.
-/

namespace Iotic.Webapp
open ByteString Iotic.Webserver

abbrev PropertyValues := List (Bytes × JsonValue)

/- The maps of `ThingService` and of the service itself. -/
structure WebSocketService where
  things : List (Bytes × PropertyValues)
  settings : List (Bytes × PropertyValues)

/- The thing that is there from the start. -/
def WebSocketService.construct : WebSocketService where
  things := [(enumToString "site",
    [(enumToString "name", .string ("Site".toList.map fun c => UInt8.ofNat c.toNat)),
      (enumToString "power", .integer 0)])]
  settings := []

/- An enumerator of `ThingPropertyKey`. -/
def Known (key : Bytes) : Prop := key ∈ thingPropertyKeys.map enumToString

instance (key : Bytes) : Decidable (Known key) := inferInstanceAs (Decidable (_ ∈ _))

/- `firstWhere` throws where no enumerator has the name. `RxProperties` does the same. -/
def ThingProperties.fromMap : JsonValue → Option PropertyValues
  | .object json => json.foldlM (fun properties kv =>
      if Known kv.1 then some (setMember kv.1 kv.2 properties) else none) []
  | _ => none

/- Added as it is, or set property by property. -/
def setProperties (key : Bytes) (properties : PropertyValues) (map : List (Bytes × PropertyValues)) :
    List (Bytes × PropertyValues) :=
  match member key map with
  | none => setMember key properties map
  | some old => setMember key (setMembers properties old) map

namespace WebSocketService

/-- `_parseSettings`. -/
def parseSettings (entry : Bytes × JsonValue) (s : WebSocketService) :
    Option (Bool × WebSocketService) :=
  if entry.1 ≠ enumToString "ev_charging_strategy" then some (false, s)
  else (ThingProperties.fromMap entry.2).map fun properties =>
    (true, { s with settings := setProperties entry.1 properties s.settings })

/-- `_parseThing`. -/
def parseThing (entry : Bytes × JsonValue) (s : WebSocketService) : Option WebSocketService :=
  (ThingProperties.fromMap entry.2).map fun properties =>
    { s with things := setProperties entry.1 properties s.things }

/- The loop over the entries, of which only those about the site have a handler: a value
that is neither null nor an object fails the cast. -/
def handleEntry (e : Bytes × JsonValue) : Option Unit :=
  match e.2 with
  | .null => some ()
  | .object _ => some ()
  | _ => if e.1.isEmpty then some () else none

/-- A text message. -/
def onText (lib : DocumentLibrary) (element : Bytes) (s : WebSocketService) :
    Option WebSocketService := do
  match ← lib.jsonDecode element with
  | .object json =>
    let _ ← json.mapM handleEntry
    match json with
    | [entry] =>
      if entry.1 = enumToString "site" then some s
      else do
        let (parsed, s) ← s.parseSettings entry
        if parsed then some s else s.parseThing entry
    | _ => some s
  | _ => none

/-! ### What is shown -/

def shown (s : WebSocketService) (id key : Bytes) : Option JsonValue :=
  (member id s.things).bind fun properties => member key properties

end WebSocketService

theorem foldlM_known (json properties : PropertyValues) :
    json.foldlM (fun properties kv =>
      if Known kv.1 then some (setMember kv.1 kv.2 properties) else none) properties =
      if ∀ e ∈ json, Known e.1 then some (setMembers json properties) else none := by
  induction json generalizing properties with
  | nil => rfl
  | cons e json ih =>
    rw [List.foldlM_cons]
    by_cases he : Known e.1
    · simp only [he, if_true, Option.bind_eq_bind, Option.bind_some, ih, List.forall_mem_cons,
        true_and, setMembers_cons]
    · simp [he]

/- A message about a thing that is no setting and not the site. -/
def IsThing (id : Bytes) : Prop :=
  id ≠ enumToString "site" ∧ id ≠ enumToString "ev_charging_strategy"

instance (id : Bytes) : Decidable (IsThing id) := inferInstanceAs (Decidable (_ ∧ _))

/- Not null, and of known properties only. -/
def Complete (members : PropertyValues) : Prop := members ≠ [] ∧ ∀ e ∈ members, Known e.1

instance (members : PropertyValues) : Decidable (Complete members) := by
  unfold Complete
  have hne : Decidable (members ≠ []) := decidable_of_iff (¬ members.isEmpty) (by simp)
  exact instDecidableAnd

/- Null has no map to be made of. -/
theorem fromMap_objectOrNull (members : PropertyValues) :
    ThingProperties.fromMap (objectOrNull members) =
      if Complete members then some (setMembers members []) else none := by
  cases members with
  | nil => rfl
  | cons e members =>
    refine (foldlM_known (e :: members) []).trans ?_
    exact if_congr (and_iff_right (List.cons_ne_nil e members)).symm rfl rfl

theorem handleEntry_objectOrNull (id : Bytes) (members : PropertyValues) :
    WebSocketService.handleEntry (id, objectOrNull members) = some () := by
  cases members <;> rfl

namespace WebSocketService

def taken (id : Bytes) (members : PropertyValues) (s : WebSocketService) : WebSocketService :=
  { s with things := setProperties id (setMembers members []) s.things }

/- What is sent of a thing is taken as a whole, or the stream ends. -/
theorem onText_thingDocument {lib : DocumentLibrary} {element id : Bytes} {members : PropertyValues}
    (h : lib.jsonDecode element = some (thingDocument id members)) (hid : IsThing id)
    (s : WebSocketService) :
    s.onText lib element = if Complete members then some (s.taken id members) else none := by
  have hloop : [(id, objectOrNull members)].mapM WebSocketService.handleEntry = some [()] := by
    rw [List.mapM_cons, handleEntry_objectOrNull]
    rfl
  have hsettings : s.parseSettings (id, objectOrNull members) = some (false, s) := if_pos hid.2
  have hthing : s.parseThing (id, objectOrNull members) =
      if Complete members then some (s.taken id members) else none := by
    rw [parseThing, fromMap_objectOrNull]
    split_ifs <;> rfl
  unfold onText
  rw [h, thingDocument]
  simp only [Option.bind_eq_bind, Option.bind_some, hloop, if_neg hid.1, hsettings,
    Bool.false_eq_true, if_false, hthing]

/- The members hide what was shown; other things are shown as before. -/
theorem shown_taken (s : WebSocketService) (id : Bytes) {members : PropertyValues}
    (h : members.Pairwise fun a b => a.1 < b.1) (id' key : Bytes) :
    (s.taken id members).shown id' key =
      if id' = id then (member key members).or (s.shown id key) else s.shown id' key := by
  unfold shown taken setProperties
  dsimp only
  by_cases hid : id' = id
  · subst hid
    rw [if_pos rfl]
    cases member id' s.things with
    | none =>
      dsimp only
      rw [member_setMember, if_pos rfl, Option.bind_some, member_setMembers_sorted key h]
      exact Option.or_none.symm
    | some old =>
      dsimp only
      rw [member_setMember, if_pos rfl, Option.bind_some, member_setMembers,
        member_setMembers_sorted key (setMembers_sorted members List.Pairwise.nil),
        member_setMembers_sorted key h]
      rfl
  · rw [if_neg hid]
    cases member id s.things with
    | none =>
      dsimp only
      rw [member_setMember, if_neg hid]
    | some old =>
      dsimp only
      rw [member_setMember, if_neg hid]

end WebSocketService

/- A thing with neither type nor property would be null. -/
theorem complete_userProperties (t : RepositoryThing) :
    Complete t.userProperties ↔
      (t.type.isSome ∨ t.properties ≠ []) ∧ ∀ p ∈ t.properties, Known p.1 := by
  have hkey : ∀ p ∈ t.properties, ∃ e ∈ t.userProperties, e.1 = p.1 := fun p hp => by
    have hsome := member_isSome.mpr (exists_mem_jsonProperties hp)
    obtain ⟨v, hv⟩ := Option.isSome_iff_exists.mp hsome
    refine member_isSome.mp ?_
    rw [member_userProperties, hv]
    split_ifs <;> cases t.type <;> rfl
  have htype : t.type.isSome → t.userProperties ≠ [] := fun h => by
    obtain ⟨type, ht⟩ := Option.isSome_iff_exists.mp h
    have hsome : (member (enumToString "type") t.userProperties).isSome := by
      rw [member_userProperties, ht, if_pos rfl]
      rfl
    obtain ⟨e, he, -⟩ := member_isSome.mp hsome
    exact List.ne_nil_of_mem he
  constructor
  · rintro ⟨hne, hknown⟩
    refine ⟨?_, fun p hp => ?_⟩
    · obtain ⟨e, he⟩ := List.exists_mem_of_ne_nil _ hne
      rcases mem_userProperties he with ⟨type, ht, -⟩ | ⟨p, hp, -⟩
      · exact Or.inl (by rw [ht]; rfl)
      · exact Or.inr (List.ne_nil_of_mem hp)
    · obtain ⟨e, he, heq⟩ := hkey p hp
      exact heq ▸ hknown e he
  · rintro ⟨hne, hknown⟩
    refine ⟨?_, fun e he => ?_⟩
    · rcases hne with ht | hp
      · exact htype ht
      · obtain ⟨p, hp⟩ := List.exists_mem_of_ne_nil _ hp
        obtain ⟨e, he, -⟩ := hkey p hp
        exact List.ne_nil_of_mem he
    · rcases mem_userProperties he with ⟨type, -, rfl⟩ | ⟨p, hp, rfl⟩
      · show Known (enumToString "type")
        decide
      · exact hknown p hp

theorem complete_jsonProperties {prop : ThingPropertyMap} (hne : prop ≠ []) :
    Complete (jsonProperties prop) ↔ ∀ p ∈ prop, Known p.1 := by
  refine ⟨fun h p hp => ?_, fun h => ⟨fun hnil => hne (jsonProperties_eq_nil.mp hnil), fun e he => ?_⟩⟩
  · obtain ⟨e, he, heq⟩ := exists_mem_jsonProperties hp
    exact heq ▸ h.2 e he
  · obtain ⟨p, hp, rfl⟩ := mem_jsonProperties he
    exact h p hp

end Iotic.Webapp
