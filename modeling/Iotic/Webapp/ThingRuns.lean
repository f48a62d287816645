import Iotic.Lib.Runs
import Iotic.Webapp.ThingService

/-!
# Things at both ends (WebServer.cpp, WebAppBehavior.cpp, web_socket_service.dart)

The daemon's things, the messages about them that are under way to one web app, and what
this shows. Things come and go and publish properties; the web app connects again and
again and keeps what it has. A web socket keeps the order of its messages.
-/

namespace Iotic.Webapp
open ByteString JsonText Iotic.Webserver

/- A name that is neither that of the site nor of the settings. -/
structure ThingName where
  id : Bytes
  isText : Utf8 id
  isThing : IsThing id

structure ThingSession where
  things : List (Bytes × RepositoryThing)
  downlink : List Bytes
  service : WebSocketService

/- The thing that is added replaces one of its name. -/
inductive ThingEvent
  | added (name : ThingName) (thing : { t : RepositoryThing // t.IsText })
  | removed (id : Bytes)
  | published (name : ThingName) (prop : { p : ThingPropertyMap // Texts p })
  | connect
  | receive

namespace ThingSession

def start : ThingSession := ⟨[], [], .construct⟩

/- What was under way when the connection was lost is lost. -/
def step (lib : DocumentLibrary) (s : ThingSession) : ThingEvent → Option ThingSession
  | .added name thing => some { s with
      things := setMember name.id thing.1 s.things
      downlink := s.downlink ++ [serializeUserProperties lib name.id thing.1] }
  | .removed id => some { s with things := s.things.filter fun t => t.1 ≠ id }
  | .published name prop =>
    match member name.id s.things with
    | none => none
    | some t => some { s with
        things := setMember name.id { t with properties := t.properties ++ prop.1 } s.things
        downlink := s.downlink ++ (publishedMessage lib name.id prop.1).toList }
  | .connect => some { s with
      downlink := s.things.map fun t => serializeUserProperties lib t.1 t.2 }
  | .receive =>
    match s.downlink with
    | [] => none
    | element :: downlink => (s.service.onText lib element).map fun service =>
        { s with downlink, service }

/- The service once it has taken all that is under way. -/
def caughtUp (lib : DocumentLibrary) (s : ThingSession) : Option WebSocketService :=
  s.downlink.foldlM (fun service element => service.onText lib element) s.service

/- Every property of a thing that is there is shown as it is. -/
def Shows (service : WebSocketService) (things : List (Bytes × RepositoryThing)) : Prop :=
  ∀ id t key value, member id things = some t → member key t.userProperties = some value →
    service.shown id key = some value

/- No message that is under way ends the stream, and behind the last the things are
shown; neither would the messages of a new connection. -/
structure InStep (lib : DocumentLibrary) (s : ThingSession) : Prop where
  shows : ∃ service, s.caughtUp lib = some service ∧ Shows service s.things
  complete : ∀ id t, member id s.things = some t → Complete t.userProperties

/- The condition on an event: a thing that is added has a type or some property, all
properties are known to the web app, and none that is published says another type. -/
def Tells (s : ThingSession) : ThingEvent → Prop
  | .added _ thing => (thing.1.type.isSome ∨ thing.1.properties ≠ []) ∧
      ∀ p ∈ thing.1.properties, Known p.1
  | .published name prop => (∀ p ∈ prop.1, Known p.1) ∧
      ∀ t type value, member name.id s.things = some t → t.type = some type →
        member (enumToString "type") (jsonProperties prop.1) = some value → value = .string type
  | _ => True

/- The repository is a map, of things whose names and properties can be sent. -/
structure Wellformed (s : ThingSession) : Prop where
  sorted : s.things.Pairwise fun a b => a.1 < b.1
  texts : ∀ e ∈ s.things, Utf8 e.1 ∧ IsThing e.1 ∧ e.2.IsText

/-! ### The repository -/

theorem start_wellformed : start.Wellformed := ⟨List.Pairwise.nil, fun e he => by cases he⟩

theorem step_wellformed (lib : DocumentLibrary) (s : ThingSession) (e : ThingEvent) (s' : ThingSession)
    (h : s.Wellformed) (hs : s.step lib e = some s') : s'.Wellformed := by
  cases e with
  | added name thing =>
    obtain rfl := Option.some.inj hs
    refine ⟨setMember_sorted _ _ h.sorted, fun e he => ?_⟩
    rcases mem_setMember he with rfl | he
    · exact ⟨name.isText, name.isThing, thing.2⟩
    · exact h.texts e he
  | removed id =>
    obtain rfl := Option.some.inj hs
    exact ⟨h.sorted.filter _, fun e he => h.texts e (List.mem_filter.mp he).1⟩
  | published name prop =>
    rw [step] at hs
    cases ht : member name.id s.things with
    | none =>
      rw [ht] at hs
      cases hs
    | some t =>
      rw [ht] at hs
      obtain rfl := Option.some.inj hs
      have hold := (h.texts _ (mem_of_member ht)).2.2
      refine ⟨setMember_sorted _ _ h.sorted, fun e he => ?_⟩
      rcases mem_setMember he with rfl | he
      · refine ⟨name.isText, name.isThing, hold.type, fun p hp => ?_⟩
        rcases List.mem_append.mp hp with hp | hp
        · exact hold.properties p hp
        · exact prop.2 p hp
      · exact h.texts e he
  | connect =>
    obtain rfl := Option.some.inj hs
    exact ⟨h.sorted, h.texts⟩
  | receive =>
    rw [step] at hs
    cases hd : s.downlink with
    | nil =>
      rw [hd] at hs
      cases hs
    | cons element downlink =>
      rw [hd] at hs
      obtain ⟨service, -, rfl⟩ := Option.map_eq_some_iff.mp hs
      exact ⟨h.sorted, h.texts⟩

theorem member_filter_ne {A : Type} (id : Bytes) (members : List (Bytes × A)) (key : Bytes) :
    member key (members.filter fun t => t.1 ≠ id) = if key = id then none else member key members := by
  induction members with
  | nil => split_ifs <;> rfl
  | cons m members ih =>
    rw [List.filter_cons]
    by_cases hm : m.1 = id
    · rw [if_neg (by simp [hm]), ih, member]
      by_cases hkey : key = id
      · rw [if_pos hkey, if_pos hkey]
      · rw [if_neg hkey, if_neg hkey, if_neg fun h => hkey (h.symm.trans hm)]
    · rw [if_pos (by simp [hm]), member, member, ih]
      by_cases hkey : m.1 = key
      · rw [if_pos hkey, if_pos hkey, if_neg fun h => hm (hkey.trans h)]
      · rw [if_neg hkey, if_neg hkey]

/-! ### What a message adds -/

section Messages
variable {lib : DocumentLibrary} (hlib : lib.Faithful)
include hlib

theorem onText_serializeUserProperties {id : Bytes} (hid : Utf8 id) (hthing : IsThing id)
    {t : RepositoryThing} (ht : t.IsText) (service : WebSocketService) :
    service.onText lib (serializeUserProperties lib id t) =
      if Complete t.userProperties then some (service.taken id t.userProperties) else none :=
  WebSocketService.onText_thingDocument (jsonDecode_serializeUserProperties hlib hid ht) hthing service

/- All that is there, one message each: what was shown before stays where a thing that
is there does not say otherwise. -/
theorem foldlM_connect {things : List (Bytes × RepositoryThing)}
    (hsorted : things.Pairwise fun a b => a.1 < b.1)
    (htexts : ∀ e ∈ things, Utf8 e.1 ∧ IsThing e.1 ∧ e.2.IsText)
    (hcomplete : ∀ e ∈ things, Complete e.2.userProperties) (service : WebSocketService) :
    ∃ service', (things.map fun t => serializeUserProperties lib t.1 t.2).foldlM
        (fun service element => service.onText lib element) service = some service' ∧
      ∀ id key, service'.shown id key =
        ((member id things).bind fun t => member key t.userProperties).or (service.shown id key) := by
  induction things generalizing service with
  | nil => exact ⟨service, rfl, fun _ _ => rfl⟩
  | cons e things ih =>
    obtain ⟨hhd, htl⟩ := List.pairwise_cons.mp hsorted
    rw [List.forall_mem_cons] at htexts hcomplete
    obtain ⟨⟨hid, hthing, ht⟩, htexts⟩ := htexts
    have hfirst := onText_serializeUserProperties hlib hid hthing ht service
    rw [if_pos hcomplete.1] at hfirst
    obtain ⟨service', hrest, hshown⟩ :=
      ih htl htexts hcomplete.2 (service.taken e.1 e.2.userProperties)
    refine ⟨service', ?_, fun id key => ?_⟩
    · rw [List.map_cons, List.foldlM_cons, hfirst]
      exact hrest
    · rw [hshown, WebSocketService.shown_taken service e.1 (userProperties_sorted e.2), member]
      by_cases hkey : e.1 = id
      · have hnone : member id things = none := member_eq_none fun m hm hmid => by
          have hlt := hhd m hm
          rw [hkey, hmid] at hlt
          exact List.lt_irrefl _ hlt
        rw [hnone, if_pos hkey, if_pos hkey.symm, hkey]
        rfl
      · rw [if_neg hkey, if_neg (Ne.symm hkey)]

end Messages

/-! ### What a step keeps -/

theorem shows_added {service : WebSocketService} {things : List (Bytes × RepositoryThing)}
    (h : Shows service things) (id : Bytes) (t : RepositoryThing) :
    Shows (service.taken id t.userProperties) (setMember id t things) := by
  intro id' t' key value ht' hvalue
  rw [member_setMember] at ht'
  rw [WebSocketService.shown_taken service id (userProperties_sorted t)]
  split_ifs at ht' ⊢ with hid
  · obtain rfl := Option.some.inj ht'
    rw [hvalue, Option.some_or]
  · exact h id' t' key value ht' hvalue

/- What is published hides what was shown, so that the type must not be published as
another one. -/
theorem shows_published_iff {service : WebSocketService} {things : List (Bytes × RepositoryThing)}
    (h : Shows service things) {id : Bytes} {t : RepositoryThing} (ht : member id things = some t)
    (prop : ThingPropertyMap) :
    Shows (service.taken id (jsonProperties prop))
        (setMember id { t with properties := t.properties ++ prop } things) ↔
      ∀ type value, t.type = some type → member (enumToString "type") (jsonProperties prop) = some value →
        value = .string type := by
  have hshown := WebSocketService.shown_taken service id (jsonProperties_sorted prop)
  have hmember : ∀ key, member key { t with properties := t.properties ++ prop }.userProperties =
      ((if key = enumToString "type" then t.type.map JsonValue.string else none).or
        ((member key (jsonProperties prop)).or (member key (jsonProperties t.properties)))) :=
    fun key => by rw [member_userProperties, jsonProperties_append]
  constructor
  · intro hshows type value htype hvalue
    have htold := hshows id _ (enumToString "type") (.string type)
      (by rw [member_setMember, if_pos rfl]) (by rw [hmember, if_pos rfl, htype]; rfl)
    rw [hshown, if_pos rfl, hvalue, Option.some_or] at htold
    exact Option.some.inj htold
  · intro htype id' t' key value ht' hvalue
    rw [member_setMember] at ht'
    rw [hshown]
    split_ifs at ht' ⊢ with hid
    · obtain rfl := Option.some.inj ht'
      rw [hmember] at hvalue
      have hold := h id t key
      rw [member_userProperties] at hold
      -- by what is published under the key, and by whether the key is that of the type
      cases hp : member key (jsonProperties prop) with
      | none =>
        rw [hp, Option.none_or] at hvalue
        exact hold value ht hvalue
      | some v =>
        rw [hp, Option.some_or] at hvalue
        rw [Option.some_or]
        split_ifs at hvalue with hkey
        · subst hkey
          cases hty : t.type with
          | none =>
            rw [hty] at hvalue
            exact hvalue
          | some type =>
            rw [hty] at hvalue
            rw [htype type v hty hp]
            exact hvalue
        · exact hvalue
    · exact h id' t' key value ht' hvalue

/- Only the type and the keys decide whether a thing is complete. -/
theorem complete_published {t : RepositoryThing} (h : Complete t.userProperties)
    {prop : ThingPropertyMap} (hknown : ∀ p ∈ prop, Known p.1) :
    Complete { t with properties := t.properties ++ prop }.userProperties := by
  obtain ⟨hne, hold⟩ := (complete_userProperties t).mp h
  refine (complete_userProperties _).mpr ⟨hne.imp_right fun hp hnil => ?_, fun p hp => ?_⟩
  · exact hp (List.append_eq_nil_iff.mp hnil).1
  · exact (List.mem_append.mp hp).elim (hold p) (hknown p)

theorem complete_setMember {things : List (Bytes × RepositoryThing)}
    (h : ∀ id t, member id things = some t → Complete t.userProperties) (id : Bytes)
    {t : RepositoryThing} (ht : Complete t.userProperties) :
    ∀ id' t', member id' (setMember id t things) = some t' → Complete t'.userProperties := by
  intro id' t' ht'
  rw [member_setMember] at ht'
  split_ifs at ht'
  · exact Option.some.inj ht' ▸ ht
  · exact h id' t' ht'

/- One more message under way. -/
theorem caughtUp_snoc {lib : DocumentLibrary} {s : ThingSession} {service : WebSocketService}
    (h : s.caughtUp lib = some service) (things : List (Bytes × RepositoryThing)) (element : Bytes) :
    caughtUp lib { s with things, downlink := s.downlink ++ [element] } =
      service.onText lib element := by
  unfold caughtUp at h ⊢
  dsimp only
  rw [List.foldlM_append, h]
  exact bind_pure (service.onText lib element)

theorem publishedMessage_nil (lib : DocumentLibrary) (id : Bytes) : publishedMessage lib id [] = none := rfl

theorem exists_publishedMessage (lib : DocumentLibrary) (id : Bytes) {prop : ThingPropertyMap}
    (h : prop ≠ []) : ∃ element, publishedMessage lib id prop = some element := by
  have hne : (jsonProperties prop).isEmpty = false := by
    rw [List.isEmpty_eq_false_iff]
    exact fun hnil => h (jsonProperties_eq_nil.mp hnil)
  simp only [publishedMessage, hne, Bool.false_eq_true, if_false, Option.some.injEq, exists_eq']

/- The type of the thing that publishes. -/
theorem tells_published_iff {s : ThingSession} {name : ThingName} {t : RepositoryThing}
    (ht : member name.id s.things = some t) (prop : { p : ThingPropertyMap // Texts p }) :
    s.Tells (.published name prop) ↔ (∀ p ∈ prop.1, Known p.1) ∧ ∀ type value, t.type = some type →
      member (enumToString "type") (jsonProperties prop.1) = some value → value = .string type := by
  show _ ∧ _ ↔ _
  rw [ht]
  refine and_congr_right fun _ => ⟨fun h type value => h t type value rfl, ?_⟩
  intro h t' type value ht'
  obtain rfl := Option.some.inj ht'
  exact h type value

section Steps
variable {lib : DocumentLibrary} (hlib : lib.Faithful)
include hlib

theorem added_inStep_iff {s : ThingSession} (hi : s.InStep lib) (name : ThingName)
    (thing : { t : RepositoryThing // t.IsText }) {s' : ThingSession}
    (hs : s.step lib (.added name thing) = some s') :
    s'.InStep lib ↔ s.Tells (.added name thing) := by
  obtain ⟨⟨service, hservice, hshows⟩, hcomplete⟩ := hi
  obtain rfl := Option.some.inj hs
  have hcaught := (caughtUp_snoc hservice (setMember name.id thing.1 s.things) _).trans
    (onText_serializeUserProperties hlib name.isText name.isThing thing.2 service)
  show _ ↔ (thing.1.type.isSome ∨ thing.1.properties ≠ []) ∧ ∀ p ∈ thing.1.properties, Known p.1
  rw [← complete_userProperties]
  constructor
  · rintro ⟨⟨service', hservice', -⟩, -⟩
    by_contra hnot
    rw [if_neg hnot] at hcaught
    cases hservice'.symm.trans hcaught
  · intro hthing
    rw [if_pos hthing] at hcaught
    exact ⟨⟨_, hcaught, shows_added hshows name.id thing.1⟩, complete_setMember hcomplete name.id hthing⟩

theorem published_inStep_iff {s : ThingSession} (hi : s.InStep lib) (name : ThingName)
    (prop : { p : ThingPropertyMap // Texts p }) {s' : ThingSession}
    (hs : s.step lib (.published name prop) = some s') :
    s'.InStep lib ↔ s.Tells (.published name prop) := by
  obtain ⟨⟨service, hservice, hshows⟩, hcomplete⟩ := hi
  cases ht : member name.id s.things with
  | none =>
    rw [step, ht] at hs
    cases hs
  | some t =>
    rw [step, ht] at hs
    obtain rfl := Option.some.inj hs
    have hkept := shows_published_iff hshows ht prop.1
    rw [tells_published_iff ht prop, ← hkept]
    by_cases hnil : prop.1 = []
    · -- nothing is sent of nothing
      rw [hnil] at hkept ⊢
      simp only [publishedMessage_nil, Option.toList_none, List.append_nil] at hkept ⊢
      have hthings : Shows service (setMember name.id t s.things) := by
        intro id t' key value ht' hvalue
        rw [member_setMember] at ht'
        split_ifs at ht' with hid
        · obtain rfl := Option.some.inj ht'
          exact hid ▸ hshows _ t key value ht hvalue
        · exact hshows id t' key value ht' hvalue
      refine iff_of_true ⟨⟨service, hservice, hthings⟩, ?_⟩ ⟨by simp, hkept.mpr ?_⟩
      · exact complete_setMember hcomplete name.id (hcomplete _ t ht)
      · intro type value _ hvalue
        cases hvalue
    · obtain ⟨element, helement⟩ := exists_publishedMessage lib name.id hnil
      rw [helement, Option.toList_some]
      have hcaught := (caughtUp_snoc hservice
        (setMember name.id { t with properties := t.properties ++ prop.1 } s.things) element).trans
        (WebSocketService.onText_thingDocument
          (jsonDecode_publishedMessage hlib name.isText prop.2 helement) name.isThing service)
      rw [← complete_jsonProperties hnil]
      constructor
      · rintro ⟨⟨service', hservice', hshows'⟩, -⟩
        rw [hcaught] at hservice'
        split_ifs at hservice' with hthing
        obtain rfl := Option.some.inj hservice'
        exact ⟨hthing, hshows'⟩
      · rintro ⟨hthing, hshows'⟩
        rw [if_pos hthing] at hcaught
        exact ⟨⟨_, hcaught, hshows'⟩, complete_setMember hcomplete name.id
          (complete_published (hcomplete _ t ht) ((complete_jsonProperties hnil).mp hthing))⟩

theorem step_inStep_iff (s : ThingSession) (e : ThingEvent) (s' : ThingSession) (hw : s.Wellformed)
    (hi : s.InStep lib) (hs : s.step lib e = some s') : s'.InStep lib ↔ s.Tells e := by
  cases e with
  | added name thing => exact added_inStep_iff hlib hi name thing hs
  | published name prop => exact published_inStep_iff hlib hi name prop hs
  | removed id =>
    obtain ⟨⟨service, hservice, hshows⟩, hcomplete⟩ := hi
    obtain rfl := Option.some.inj hs
    have hthere : ∀ id' t, member id' (s.things.filter fun t => t.1 ≠ id) = some t →
        member id' s.things = some t := by
      intro id' t ht
      rw [member_filter_ne] at ht
      split_ifs at ht
      exact ht
    refine iff_of_true ⟨⟨service, hservice, fun id' t key value ht => ?_⟩, fun id' t ht => ?_⟩ trivial
    · exact hshows id' t key value (hthere id' t ht)
    · exact hcomplete id' t (hthere id' t ht)
  | connect =>
    obtain rfl := Option.some.inj hs
    have hcomplete : ∀ e ∈ s.things, Complete e.2.userProperties := fun e he =>
      hi.complete e.1 e.2 (member_of_mem hw.sorted he)
    obtain ⟨service', hservice', hshown⟩ := foldlM_connect hlib hw.sorted hw.texts hcomplete s.service
    refine iff_of_true ⟨⟨service', hservice', fun id t key value ht hvalue => ?_⟩, hi.complete⟩ trivial
    have ht' : member id s.things = some t := ht
    rw [hshown, ht', Option.bind_some, hvalue, Option.some_or]
  | receive =>
    obtain ⟨⟨service, hservice, hshows⟩, hcomplete⟩ := hi
    rw [step] at hs
    cases hd : s.downlink with
    | nil =>
      rw [hd] at hs
      cases hs
    | cons element downlink =>
      rw [hd] at hs
      obtain ⟨service1, hservice1, rfl⟩ := Option.map_eq_some_iff.mp hs
      unfold caughtUp at hservice
      rw [hd, List.foldlM_cons, hservice1] at hservice
      exact iff_of_true ⟨⟨service, hservice, hshows⟩, hcomplete⟩ trivial

end Steps

theorem start_inStep (lib : DocumentLibrary) : start.InStep lib where
  shows := ⟨.construct, rfl, fun _ _ _ _ ht => by cases ht⟩
  complete := fun _ _ ht => by cases ht

/-- Whatever things come, go and publish, with ids and texts in UTF-8, and however often
the web app connects: in every state of the run all that is under way can be taken, and
then every property of a thing that is there is shown, if and only if every event tells
the web app what it knows. -/
theorem inStep_iff (lib : DocumentLibrary) (hlib : lib.Faithful) (events : List ThingEvent)
    (s : ThingSession) (h : Runs.exec (step lib) start events = some s) :
    (∀ pre post q, events = pre ++ post → Runs.exec (step lib) start pre = some q → q.InStep lib) ↔
      ∀ pre e post q, events = pre ++ e :: post → Runs.exec (step lib) start pre = some q → q.Tells e :=
  Runs.exec_always_iff (step_wellformed lib) (step_inStep_iff hlib) h start_wellformed
    (start_inStep lib)

/- A relay that is switched on, told to a web app that connects in between. -/
def relay : ThingName := ⟨enumToString "relay", ⟨"relay".toList, by decide⟩, by decide⟩

def relayAdded : { t : RepositoryThing // t.IsText } :=
  ⟨⟨some (enumToString "relay"), []⟩, fun type h => ⟨"relay".toList, by
    obtain rfl := Option.some.inj h
    decide⟩, fun p hp => by cases hp⟩

def switchedOn : { p : ThingPropertyMap // Texts p } :=
  ⟨[(enumToString "power_control", .bool true)], fun p hp => by
    obtain rfl := List.mem_singleton.mp hp
    refine ⟨⟨"power_control".toList, by decide⟩, fun s hs => ?_⟩
    cases hs⟩

def relayEvents : List ThingEvent :=
  [.added relay relayAdded, .connect, .published relay switchedOn, .receive, .receive]

theorem relayEvents_run : (Runs.exec (step .compact) start relayEvents).isSome = true := by
  decide +kernel

theorem inStep_iff_relay :
    (∀ pre post q, relayEvents = pre ++ post →
      Runs.exec (step .compact) start pre = some q → q.InStep .compact) ↔
    ∀ pre e post q, relayEvents = pre ++ e :: post →
      Runs.exec (step .compact) start pre = some q → q.Tells e := by
  obtain ⟨s, hs⟩ := Option.isSome_iff_exists.mp relayEvents_run
  exact inStep_iff .compact DocumentLibrary.compact_faithful relayEvents s hs

/-! ### Where what is shown comes from -/

/- What an event says of a thing. -/
def Says : ThingEvent → Bytes → Bytes → JsonValue → Prop
  | .added name thing, id, key, value =>
    id = name.id ∧ member key thing.1.userProperties = some value
  | .published name prop, id, key, value =>
    id = name.id ∧ member key (jsonProperties prop.1) = some value
  | _, _, _, _ => False

/- All that is there, under way or shown has been said. -/
structure Said (lib : DocumentLibrary) (said : Bytes → Bytes → JsonValue → Prop) (s : ThingSession) :
    Prop where
  things : ∀ id t key value, member id s.things = some t → member key t.userProperties = some value →
    said id key value
  downlink : ∀ element ∈ s.downlink, ∃ id members,
    lib.jsonDecode element = some (thingDocument id members) ∧ IsThing id ∧
      members.Pairwise (fun a b => a.1 < b.1) ∧
        ∀ key value, member key members = some value → said id key value
  service : ∀ id key value, s.service.shown id key = some value → said id key value

section Said
variable {lib : DocumentLibrary} (hlib : lib.Faithful) {said : Bytes → Bytes → JsonValue → Prop}
include hlib

theorem added_said {s s' : ThingSession} (h : s.Said lib said) (name : ThingName)
    (thing : { t : RepositoryThing // t.IsText })
    (hsaid : ∀ id key value, Says (.added name thing) id key value → said id key value)
    (hs : s.step lib (.added name thing) = some s') : s'.Said lib said := by
  obtain rfl := Option.some.inj hs
  refine ⟨fun id t key value ht hvalue => ?_, fun element he => ?_, h.service⟩
  · rw [member_setMember] at ht
    split_ifs at ht with hid
    · obtain rfl := Option.some.inj ht
      exact hsaid id key value ⟨hid, hvalue⟩
    · exact h.things id t key value ht hvalue
  · rcases List.mem_append.mp he with he | he
    · exact h.downlink element he
    · obtain rfl := List.mem_singleton.mp he
      exact ⟨name.id, thing.1.userProperties,
        jsonDecode_serializeUserProperties hlib name.isText thing.2, name.isThing,
        userProperties_sorted thing.1, fun key value hvalue => hsaid _ key value ⟨rfl, hvalue⟩⟩

theorem published_said {s s' : ThingSession} (h : s.Said lib said) (name : ThingName)
    (prop : { p : ThingPropertyMap // Texts p })
    (hsaid : ∀ id key value, Says (.published name prop) id key value → said id key value)
    (hs : s.step lib (.published name prop) = some s') : s'.Said lib said := by
  cases ht : member name.id s.things with
  | none =>
    rw [step, ht] at hs
    cases hs
  | some t =>
    rw [step, ht] at hs
    obtain rfl := Option.some.inj hs
    refine ⟨fun id t' key value ht' hvalue => ?_, fun element he => ?_, h.service⟩
    · rw [member_setMember] at ht'
      split_ifs at ht' with hid
      · obtain rfl := Option.some.inj ht'
        have hold := h.things name.id t key value ht
        rw [member_userProperties] at hold hvalue
        rw [jsonProperties_append] at hvalue
        subst hid
        -- the type, what is published, or what was there
        cases htype : (if key = enumToString "type" then t.type.map JsonValue.string else none) with
        | some type =>
          rw [htype] at hold hvalue
          exact hold hvalue
        | none =>
          rw [htype, Option.none_or] at hold hvalue
          cases hp : member key (jsonProperties prop.1) with
          | some v =>
            rw [hp] at hvalue
            obtain rfl := Option.some.inj hvalue
            exact hsaid _ key v ⟨rfl, hp⟩
          | none =>
            rw [hp, Option.none_or] at hvalue
            exact hold hvalue
      · exact h.things id t' key value ht' hvalue
    · rcases List.mem_append.mp he with he | he
      · exact h.downlink element he
      · exact ⟨name.id, jsonProperties prop.1,
          jsonDecode_publishedMessage hlib name.isText prop.2 (Option.mem_toList.mp he), name.isThing,
          jsonProperties_sorted prop.1, fun key value hvalue => hsaid _ key value ⟨rfl, hvalue⟩⟩

theorem step_said {s s' : ThingSession} {e : ThingEvent} (hw : s.Wellformed) (h : s.Said lib said)
    (hsaid : ∀ id key value, Says e id key value → said id key value)
    (hs : s.step lib e = some s') : s'.Said lib said := by
  cases e with
  | added name thing => exact added_said hlib h name thing hsaid hs
  | published name prop => exact published_said hlib h name prop hsaid hs
  | removed id =>
    obtain rfl := Option.some.inj hs
    refine ⟨fun id' t key value ht hvalue => ?_, h.downlink, h.service⟩
    rw [member_filter_ne] at ht
    split_ifs at ht
    exact h.things id' t key value ht hvalue
  | connect =>
    obtain rfl := Option.some.inj hs
    refine ⟨h.things, fun element he => ?_, h.service⟩
    obtain ⟨e, hmem, rfl⟩ := List.mem_map.mp he
    obtain ⟨hid, hthing, ht⟩ := hw.texts e hmem
    exact ⟨e.1, e.2.userProperties, jsonDecode_serializeUserProperties hlib hid ht, hthing,
      userProperties_sorted e.2, fun key value => h.things e.1 e.2 key value (member_of_mem hw.sorted hmem)⟩
  | receive =>
    rw [step] at hs
    cases hd : s.downlink with
    | nil =>
      rw [hd] at hs
      cases hs
    | cons element downlink =>
      rw [hd] at hs
      obtain ⟨service, hservice, rfl⟩ := Option.map_eq_some_iff.mp hs
      have hdownlink := h.downlink
      rw [hd, List.forall_mem_cons] at hdownlink
      obtain ⟨⟨id, members, hdecode, hthing, hsorted, hmembers⟩, hrest⟩ := hdownlink
      rw [WebSocketService.onText_thingDocument hdecode hthing] at hservice
      split_ifs at hservice
      obtain rfl := Option.some.inj hservice
      refine ⟨h.things, hrest, fun id' key value hshown => ?_⟩
      rw [WebSocketService.shown_taken _ _ hsorted] at hshown
      split_ifs at hshown with hid
      · subst hid
        cases hm : member key members with
        | some v =>
          rw [hm] at hshown
          obtain rfl := Option.some.inj hshown
          exact hmembers key v hm
        | none =>
          rw [hm, Option.none_or] at hshown
          exact h.service id' key value hshown
      · exact h.service id' key value hshown

end Said

/-- Whatever is shown of a thing was there from the start or was said of this very thing
by some event of the run; the ids and texts of things are UTF-8. -/
theorem shown_said (lib : DocumentLibrary) (hlib : lib.Faithful) (events : List ThingEvent)
    (s : ThingSession) (h : Runs.exec (step lib) start events = some s) (id key : Bytes)
    (value : JsonValue) (hshown : s.service.shown id key = some value) :
    WebSocketService.construct.shown id key = some value ∨ ∃ e ∈ events, Says e id key value := by
  have hstart : start.Said lib fun id key value =>
      WebSocketService.construct.shown id key = some value ∨ ∃ e ∈ events, Says e id key value := by
    refine ⟨fun id t key value ht => ?_, fun element he => ?_, fun id key value => Or.inl⟩
    · cases ht
    · cases he
  have hrun := Runs.exec_invariant (I := fun s : ThingSession => s.Wellformed ∧ s.Said lib _)
    (G := fun e => e ∈ events)
    (fun s e s' hs he hstep => ⟨step_wellformed lib s e s' hs.1 hstep,
      step_said hlib hs.1 hs.2 (fun _ _ _ hsaid => Or.inr ⟨e, he, hsaid⟩) hstep⟩)
    (fun _ he => he) h ⟨start_wellformed, hstart⟩
  exact hrun.2.service id key value hshown

/- The relay is shown switched on. -/
theorem shown_said_relay : ∃ s, Runs.exec (step .compact) start relayEvents = some s ∧
    s.service.shown relay.id (enumToString "power_control") = some (.boolean true) ∧
    (WebSocketService.construct.shown relay.id (enumToString "power_control") = some (.boolean true) ∨
      ∃ e ∈ relayEvents, Says e relay.id (enumToString "power_control") (.boolean true)) := by
  obtain ⟨s, hs⟩ := Option.isSome_iff_exists.mp relayEvents_run
  have hbool : (Runs.exec (step .compact) start relayEvents).bind (fun s =>
      (s.service.shown relay.id (enumToString "power_control")).bind fun v => v.getBool.toOption) =
        some true := by decide +kernel
  rw [hs, Option.bind_some] at hbool
  obtain ⟨v, hv, htrue⟩ := Option.bind_eq_some_iff.mp hbool
  have hshown : s.service.shown relay.id (enumToString "power_control") = some (.boolean true) := by
    cases v with
    | boolean b =>
      obtain rfl : b = true := Option.some.inj htrue
      exact hv
    | _ => cases htrue
  exact ⟨s, hs, hshown, shown_said .compact DocumentLibrary.compact_faithful relayEvents s hs
    relay.id (enumToString "power_control") (.boolean true) hshown⟩

end ThingSession
end Iotic.Webapp
