import Iotic.Lib.Runs
import Iotic.Webapp.ThingService

/-!
# What the chart is asked for (chart_selection_controller.dart)

Thing, property and date are selected one by one; each change tells the listeners of the
variable that has changed, at once and in the order in which they listen, and a timer
loads the chart when there has been no change for a while.
-/

namespace Iotic.Webapp
open ByteString Iotic.Webserver

/-! ### The controller -/

/- The items for one thing are new objects, told apart by the list they are in. -/
structure DropdownItem where
  id : Bytes
  list : ℕ
  deriving DecidableEq, Repr

/- What `loadData` is called with. -/
structure ChartRequest where
  thingId : Bytes
  propertyId : Bytes
  date : ℤ
  deriving DecidableEq, Repr

/- `combined` is what the timer was last started with, while it runs; `requests` are the
calls of `loadData`, latest first. -/
structure ChartSelectionController where
  service : WebSocketService
  things : List Bytes
  selectedThing : Option Bytes
  properties : List DropdownItem
  lists : ℕ
  selectedProperty : Option DropdownItem
  selectedDate : ℤ
  combined : Option (Bytes × Bytes)
  requests : List ChartRequest

/- The entries of the map of things, and of a thing's map of properties, in the order of
their insertion, which the maps here do not keep. -/
structure MapOrder where
  things : List Bytes → List Bytes
  properties : Bytes → List Bytes → List Bytes
  things_perm : ∀ keys, (things keys).Perm keys
  properties_perm : ∀ thing keys, (properties thing keys).Perm keys

/- The properties of a thing that can be drawn. -/
def chartProperties (service : WebSocketService) (thing : Bytes) : List Bytes :=
  [enumToString "power", enumToString "dcPower"].filter fun key => (service.shown thing key).isSome

/- `id.split('.').last`. -/
def lastSegment (id : Bytes) : Bytes := ((id.splitOn 46).getLast?).getD []

namespace ChartSelectionController
variable (order : MapOrder)

/- The listener of all three variables. -/
def everAll (s : ChartSelectionController) : ChartSelectionController :=
  match s.selectedThing, s.selectedProperty with
  | some thing, some property => { s with combined := some (thing, lastSegment property.id) }
  | _, _ => s

/- A variable that is set to what it is tells nobody. -/
def setProperty (item : DropdownItem) (s : ChartSelectionController) : ChartSelectionController :=
  if s.selectedProperty = some item then s else everAll { s with selectedProperty := some item }

/- The other listener of the thing. -/
def everThing (thing : Bytes) (s : ChartSelectionController) : ChartSelectionController :=
  match member thing s.service.things with
  | none => s
  | some _ =>
    let newProperties := (order.properties thing (chartProperties s.service thing)).map fun id =>
      (⟨id, s.lists⟩ : DropdownItem)
    let s := { s with properties := newProperties, lists := s.lists + 1 }
    match newProperties with
    | [] => s
    | first :: _ =>
      let s := if s.selectedProperty.isNone then s.setProperty first else s
      if newProperties.any fun p => some p.id = s.selectedProperty.map DropdownItem.id then s
      else s.setProperty first

def setThing (thing : Bytes) (s : ChartSelectionController) : ChartSelectionController :=
  if s.selectedThing = some thing then s
  else everThing order thing (everAll { s with selectedThing := some thing })

/- `onReady`: the things are listed once. -/
def start (service : WebSocketService) (date : ℤ) : ChartSelectionController :=
  let things := (order.things (service.things.map Prod.fst)).filter fun thing =>
    chartProperties service thing ≠ []
  let s : ChartSelectionController := ⟨service, things, none, [], 0, none, date, none, []⟩
  match things with
  | [] => s
  | first :: _ => s.setThing order first

/- By at least a day, so that the listener is told. -/
def stepDate (days : ℤ) (s : ChartSelectionController) : ChartSelectionController :=
  everAll { s with selectedDate := s.selectedDate + days * 86400 }

/- Only what is listed can be selected, and there is a button for each direction. The
service goes on taking messages. One that throws leaves it as it is; it ends the stream,
and what comes later comes over the connection made when the app is resumed. -/
inductive Event
  | selectThing (id : Bytes)
  | selectProperty (id : Bytes)
  | chevronLeft
  | chevronRight
  | elapsed
  | message (lib : DocumentLibrary) (element : Bytes)

def step (s : ChartSelectionController) : Event → Option ChartSelectionController
  | .selectThing id => (s.things.find? (· = id)).map fun thing => s.setThing order thing
  | .selectProperty id => (s.properties.find? (·.id = id)).map fun item => s.setProperty item
  | .chevronLeft => some (s.stepDate (-1))
  | .chevronRight => some (s.stepDate 1)
  | .elapsed => s.combined.map fun value =>
    { s with combined := none, requests := ⟨value.1, value.2, s.selectedDate⟩ :: s.requests }
  | .message lib element =>
    some { s with service := (s.service.onText lib element).getD s.service }

end ChartSelectionController

/-! ### What can be drawn -/

theorem mem_chartProperties {service : WebSocketService} {thing key : Bytes} :
    key ∈ chartProperties service thing ↔
      (key = enumToString "power" ∨ key = enumToString "dcPower") ∧ (service.shown thing key).isSome := by
  rw [chartProperties, List.mem_filter, List.mem_cons, List.mem_singleton]

theorem lastSegment_chartProperty {service : WebSocketService} {thing key : Bytes}
    (h : key ∈ chartProperties service thing) : lastSegment key = key := by
  rcases (mem_chartProperties.mp h).1 with rfl | rfl
  · decide
  · decide

/- Whatever is received, what was shown of a thing goes on being shown. -/
theorem shown_setProperties (service : WebSocketService) (id : Bytes) (properties : PropertyValues)
    (thing key : Bytes) (h : (service.shown thing key).isSome) :
    (WebSocketService.shown { service with things := setProperties id properties service.things }
      thing key).isSome := by
  unfold WebSocketService.shown setProperties at *
  dsimp only at *
  cases hold : member id service.things with
  | none =>
    dsimp only
    rw [member_setMember]
    split_ifs with hid
    · rw [hid, hold] at h
      cases h
    · exact h
  | some old =>
    dsimp only
    rw [member_setMember]
    split_ifs with hid
    · rw [hid, hold, Option.bind_some] at h
      rw [Option.bind_some, member_setMembers, Option.isSome_or, h, Bool.or_true]
    · exact h

theorem shown_onText {lib : DocumentLibrary} {element : Bytes} {service service' : WebSocketService}
    (h : service.onText lib element = some service') {thing key : Bytes}
    (hshown : (service.shown thing key).isSome) : (service'.shown thing key).isSome := by
  obtain ⟨doc, -, h⟩ := Option.bind_eq_some_iff.mp h
  cases doc with
  | object json =>
    obtain ⟨-, -, h⟩ := Option.bind_eq_some_iff.mp h
    cases json with
    | nil =>
      obtain rfl := Option.some.inj h
      exact hshown
    | cons entry rest =>
      cases rest with
      | nil =>
        dsimp only at h
        split_ifs at h with hsite
        · obtain rfl := Option.some.inj h
          exact hshown
        · obtain ⟨⟨parsed, s⟩, hsettings, h⟩ := Option.bind_eq_some_iff.mp h
          have hs : (s.shown thing key).isSome := by
            unfold WebSocketService.parseSettings at hsettings
            split_ifs at hsettings
            · obtain ⟨-, rfl⟩ := Prod.mk.inj (Option.some.inj hsettings)
              exact hshown
            · obtain ⟨properties, -, heq⟩ := Option.map_eq_some_iff.mp hsettings
              obtain ⟨-, rfl⟩ := Prod.mk.inj heq
              exact hshown
          dsimp only at h
          split_ifs at h
          · obtain rfl := Option.some.inj h
            exact hs
          · obtain ⟨properties, -, rfl⟩ := Option.map_eq_some_iff.mp h
            exact shown_setProperties s entry.1 properties thing key hs
      | cons entry' rest =>
        obtain rfl := Option.some.inj h
        exact hshown
  | _ => cases h

/-! ### What holds whenever the controller is left alone -/

namespace ChartSelectionController
variable (order : MapOrder)

/- The service shows what is asked of the thing. -/
def Drawn (s : ChartSelectionController) (thing property : Bytes) : Prop :=
  property ∈ chartProperties s.service thing

/- Either the timer runs for what is selected, or it has run and the newest request is for
what is selected. -/
def UpToDate (s : ChartSelectionController) (thing property : Bytes) : Prop :=
  s.combined = some (thing, property) ∨
    (s.combined = none ∧ s.requests.head? = some ⟨thing, property, s.selectedDate⟩)

/- With a thing selected, one of its properties is, and those listed are its own. -/
structure Inv (s : ChartSelectionController) : Prop where
  things : ∀ thing ∈ s.things, chartProperties s.service thing ≠ []
  asked : ∀ r ∈ s.requests, s.Drawn r.thingId r.propertyId
  unselected : s.selectedThing = none → s.selectedProperty = none ∧ s.properties = [] ∧ s.combined = none
  selected : ∀ thing, s.selectedThing = some thing → (∀ p ∈ s.properties, s.Drawn thing p.id) ∧
    ∃ property, s.selectedProperty = some property ∧ s.Drawn thing property.id ∧
      s.UpToDate thing property.id

theorem everAll_eq {s : ChartSelectionController} {thing : Bytes} {property : DropdownItem}
    (ht : s.selectedThing = some thing) (hp : s.selectedProperty = some property) :
    s.everAll = { s with combined := some (thing, lastSegment property.id) } := by
  rw [everAll, ht, hp]

/- A complete selection is up to date once the listener has been told. -/
theorem everAll_inv {s : ChartSelectionController} {thing : Bytes} {property : DropdownItem}
    (ht : s.selectedThing = some thing) (hp : s.selectedProperty = some property)
    (hthings : ∀ thing ∈ s.things, chartProperties s.service thing ≠ [])
    (hasked : ∀ r ∈ s.requests, s.Drawn r.thingId r.propertyId)
    (hproperties : ∀ p ∈ s.properties, s.Drawn thing p.id) (hdrawn : s.Drawn thing property.id) :
    s.everAll.Inv := by
  rw [everAll_eq ht hp]
  refine ⟨hthings, hasked, fun hnone => ?_, fun thing' ht' => ?_⟩
  · cases ht.symm.trans hnone
  · obtain rfl := Option.some.inj (ht.symm.trans ht')
    refine ⟨hproperties, property, hp, hdrawn, Or.inl ?_⟩
    rw [lastSegment_chartProperty hdrawn]

theorem Inv.setProperty {s : ChartSelectionController} (h : s.Inv) {item : DropdownItem}
    (hitem : item ∈ s.properties) : (s.setProperty item).Inv := by
  unfold ChartSelectionController.setProperty
  split_ifs with hsame
  · exact h
  · rcases Option.eq_none_or_eq_some s.selectedThing with ht | ⟨thing, ht⟩
    · rw [(h.unselected ht).2.1] at hitem
      exact absurd hitem List.not_mem_nil
    · obtain ⟨hproperties, -⟩ := h.selected thing ht
      exact everAll_inv (s := { s with selectedProperty := some item }) ht rfl h.things h.asked
        hproperties (hproperties item hitem)

theorem Inv.stepDate {s : ChartSelectionController} (h : s.Inv) (days : ℤ) : (s.stepDate days).Inv := by
  unfold ChartSelectionController.stepDate
  rcases Option.eq_none_or_eq_some s.selectedThing with ht | ⟨thing, ht⟩
  · have hnone : everAll { s with selectedDate := s.selectedDate + days * 86400 } =
        { s with selectedDate := s.selectedDate + days * 86400 } := by
      rw [everAll, ht]
    rw [hnone]
    refine ⟨h.things, h.asked, h.unselected, fun thing ht' => ?_⟩
    cases ht.symm.trans ht'
  · obtain ⟨hproperties, property, hp, hdrawn, -⟩ := h.selected thing ht
    exact everAll_inv (s := { s with selectedDate := s.selectedDate + days * 86400 }) ht hp h.things
      h.asked hproperties hdrawn

theorem Inv.elapsed {s : ChartSelectionController} (h : s.Inv) {thing property : Bytes}
    (hcombined : s.combined = some (thing, property)) :
    Inv { s with combined := none, requests := ⟨thing, property, s.selectedDate⟩ :: s.requests } := by
  rcases Option.eq_none_or_eq_some s.selectedThing with ht | ⟨thing', ht⟩
  · cases (h.unselected ht).2.2.symm.trans hcombined
  · obtain ⟨hproperties, item, hp, hdrawn, hupToDate⟩ := h.selected thing' ht
    have heq : (thing', item.id) = (thing, property) := by
      rcases hupToDate with hc | ⟨hc, -⟩
      · exact Option.some.inj (hc.symm.trans hcombined)
      · cases hc.symm.trans hcombined
    obtain ⟨rfl, rfl⟩ := Prod.mk.inj heq
    refine ⟨h.things, List.forall_mem_cons.mpr ⟨hdrawn, h.asked⟩, fun hnone => ?_, fun thing ht' => ?_⟩
    · cases ht.symm.trans hnone
    · obtain rfl := Option.some.inj (ht.symm.trans ht')
      exact ⟨hproperties, item, hp, hdrawn, Or.inr ⟨rfl, rfl⟩⟩

theorem Inv.message {s : ChartSelectionController} (h : s.Inv) {service : WebSocketService}
    (hgrows : ∀ thing key, (s.service.shown thing key).isSome → (service.shown thing key).isSome) :
    Inv { s with service := service } := by
  have hdrawn : ∀ {thing key}, key ∈ chartProperties s.service thing →
      key ∈ chartProperties service thing := fun hk =>
    mem_chartProperties.mpr ((mem_chartProperties.mp hk).imp_right (hgrows _ _))
  refine ⟨fun thing ht => ?_, fun r hr => hdrawn (h.asked r hr), h.unselected, fun thing ht => ?_⟩
  · obtain ⟨key, hk⟩ := List.exists_mem_of_ne_nil _ (h.things thing ht)
    exact List.ne_nil_of_mem (hdrawn hk)
  · obtain ⟨hproperties, item, hp, hd, hupToDate⟩ := h.selected thing ht
    exact ⟨fun p hp => hdrawn (hproperties p hp), item, hp, hdrawn hd, hupToDate⟩

theorem setProperty_ne {s : ChartSelectionController} {item : DropdownItem}
    (h : s.selectedProperty ≠ some item) :
    s.setProperty item = everAll { s with selectedProperty := some item } := if_neg h

theorem everAll_selectedProperty (s : ChartSelectionController) :
    s.everAll.selectedProperty = s.selectedProperty := by
  unfold everAll
  split <;> rfl

theorem setProperty_selectedProperty (s : ChartSelectionController) (item : DropdownItem) :
    (s.setProperty item).selectedProperty = some item := by
  unfold setProperty
  split_ifs with h
  · exact h
  · exact everAll_selectedProperty _

/- The items of a thing that can be drawn. -/
def items (thing : Bytes) (s : ChartSelectionController) : List DropdownItem :=
  (order.properties thing (chartProperties s.service thing)).map fun id => ⟨id, s.lists⟩

theorem mem_items {s : ChartSelectionController} {thing : Bytes} {item : DropdownItem}
    (h : item ∈ s.items order thing) : s.Drawn thing item.id := by
  obtain ⟨id, hid, rfl⟩ := List.mem_map.mp h
  exact (order.properties_perm _ _).mem_iff.mp hid

theorem items_ne_nil {s : ChartSelectionController} {thing : Bytes}
    (h : chartProperties s.service thing ≠ []) : s.items order thing ≠ [] := fun hnil =>
  h ((List.map_eq_nil_iff.mp hnil ▸ order.properties_perm _ _).nil_eq.symm)

/- Of another thing the property selected is kept if it has it, else it is the first one. -/
theorem everThing_eq {s : ChartSelectionController} {thing : Bytes} {first : DropdownItem}
    {rest : List DropdownItem} (h : s.items order thing = first :: rest)
    (hthere : (member thing s.service.things).isSome) :
    everThing order thing s =
      let s' := { s with properties := first :: rest, lists := s.lists + 1 }
      if (first :: rest).any fun p => some p.id = s.selectedProperty.map DropdownItem.id then s'
      else s'.setProperty first := by
  obtain ⟨data, hdata⟩ := Option.isSome_iff_exists.mp hthere
  have hitems : (order.properties thing (chartProperties s.service thing)).map (fun id =>
      (⟨id, s.lists⟩ : DropdownItem)) = first :: rest := h
  unfold everThing
  rw [hdata]
  dsimp only
  rw [hitems]
  dsimp only
  rcases Option.eq_none_or_eq_some s.selectedProperty with hp | ⟨property, hp⟩
  · have hfirst : (first :: rest).any (fun p => some p.id = (some first).map DropdownItem.id) = true :=
      List.any_eq_true.mpr ⟨first, List.mem_cons_self, decide_eq_true rfl⟩
    have hnone : ¬ (first :: rest).any (fun p => some p.id = (none : Option DropdownItem).map
        DropdownItem.id) = true := by
      simp
    rw [hp, if_neg hnone, Option.isNone_none, if_pos rfl, setProperty_selectedProperty, if_pos hfirst]
  · rw [hp]
    rfl

/- A thing that can be drawn, and what is selected of it afterwards. -/
theorem setThing_inv {s : ChartSelectionController} {thing : Bytes}
    (hthings : ∀ thing ∈ s.things, chartProperties s.service thing ≠ [])
    (hasked : ∀ r ∈ s.requests, s.Drawn r.thingId r.propertyId) (hmem : thing ∈ s.things)
    (hinv : s.selectedThing = some thing → s.Inv) : (s.setThing order thing).Inv := by
  unfold setThing
  split_ifs with hsame
  · exact hinv hsame
  · have hne := hthings thing hmem
    have hthere : (member thing s.service.things).isSome := by
      obtain ⟨key, hkey⟩ := List.exists_mem_of_ne_nil _ hne
      obtain ⟨value, hvalue⟩ := Option.isSome_iff_exists.mp (mem_chartProperties.mp hkey).2
      obtain ⟨data, hdata, -⟩ := Option.bind_eq_some_iff.mp hvalue
      exact Option.isSome_iff_exists.mpr ⟨data, hdata⟩
    -- what the listener of all three leaves of the selection
    have htold : ∃ combined, everAll { s with selectedThing := some thing } =
        { s with selectedThing := some thing, combined := combined } ∧
        ∀ p, s.selectedProperty = some p → combined = some (thing, lastSegment p.id) := by
      rcases Option.eq_none_or_eq_some s.selectedProperty with hp | ⟨property, hp⟩
      · refine ⟨s.combined, ?_, fun p hp' => ?_⟩
        · rw [everAll]
          dsimp only
          rw [hp]
        · cases hp.symm.trans hp'
      · refine ⟨_, everAll_eq (s := { s with selectedThing := some thing }) rfl hp, fun p hp' => ?_⟩
        obtain rfl := Option.some.inj (hp.symm.trans hp')
        rfl
    obtain ⟨combined, htold, hcombined⟩ := htold
    obtain ⟨first, rest, hitems⟩ := List.exists_cons_of_ne_nil (items_ne_nil order hne)
    have hdrawn : ∀ p ∈ first :: rest, s.Drawn thing p.id := fun p hp =>
      mem_items order (hitems ▸ hp)
    rw [htold, everThing_eq (s := { s with selectedThing := some thing, combined := combined }) order
      hitems hthere]
    dsimp only
    split_ifs with hkept
    · obtain ⟨p, hp, heq⟩ := List.any_eq_true.mp hkept
      obtain ⟨property, hproperty, hid⟩ := Option.map_eq_some_iff.mp (of_decide_eq_true heq).symm
      have hlisted : s.Drawn thing property.id := hid ▸ hdrawn p hp
      refine ⟨hthings, hasked, fun hnone => ?_, fun thing' ht => ?_⟩
      · cases hnone
      · obtain rfl := Option.some.inj ht
        refine ⟨hdrawn, property, hproperty, hlisted, Or.inl ?_⟩
        rw [show combined = _ from hcombined property hproperty, lastSegment_chartProperty hlisted]
    · have hother : s.selectedProperty ≠ some first := by
        intro hfirst
        rw [hfirst] at hkept
        exact hkept (List.any_eq_true.mpr ⟨first, List.mem_cons_self, decide_eq_true rfl⟩)
      rw [setProperty_ne (s := { s with
        selectedThing := some thing, properties := first :: rest, lists := s.lists + 1,
        combined := combined }) hother]
      exact @everAll_inv _ thing first rfl rfl hthings hasked hdrawn
        (hdrawn first List.mem_cons_self)

theorem start_inv (service : WebSocketService) (date : ℤ) : (start order service date).Inv := by
  unfold start
  dsimp only
  generalize hthings : (order.things (service.things.map Prod.fst)).filter (fun thing =>
    chartProperties service thing ≠ []) = things
  have hdrawn : ∀ thing ∈ things, chartProperties service thing ≠ [] := by
    intro thing ht
    rw [← hthings, List.mem_filter] at ht
    exact of_decide_eq_true ht.2
  cases things with
  | nil =>
    exact ⟨hdrawn, fun r hr => absurd hr List.not_mem_nil, fun _ => ⟨rfl, rfl, rfl⟩,
      fun thing ht => by cases ht⟩
  | cons first rest =>
    exact setThing_inv order hdrawn (fun r hr => absurd hr List.not_mem_nil) List.mem_cons_self
      fun ht => by cases ht

theorem Inv.step {s s' : ChartSelectionController} (h : s.Inv) {e : Event}
    (hstep : s.step order e = some s') : s'.Inv := by
  cases e with
  | selectThing id =>
    obtain ⟨thing, hfind, rfl⟩ := Option.map_eq_some_iff.mp hstep
    exact setThing_inv order h.things h.asked (List.mem_of_find?_eq_some hfind) fun _ => h
  | selectProperty id =>
    obtain ⟨item, hfind, rfl⟩ := Option.map_eq_some_iff.mp hstep
    exact h.setProperty (List.mem_of_find?_eq_some hfind)
  | chevronLeft =>
    obtain rfl := Option.some.inj hstep
    exact h.stepDate (-1)
  | chevronRight =>
    obtain rfl := Option.some.inj hstep
    exact h.stepDate 1
  | elapsed =>
    obtain ⟨⟨thing, property⟩, hcombined, rfl⟩ := Option.map_eq_some_iff.mp hstep
    exact h.elapsed hcombined
  | message lib element =>
    obtain rfl := Option.some.inj hstep
    cases hservice : s.service.onText lib element with
    | none => exact h
    | some service => exact h.message fun thing key => shown_onText hservice

/-- However things, properties and dates are selected, whatever the service receives and
whenever the timer runs out: the chart is never asked for a property that its thing does
not have, and with a thing selected one of its properties is; the timer then runs for just
this selection, or the newest request is for just this selection, with its date. -/
theorem requests_upToDate (service : WebSocketService) (date : ℤ) (events : List Event)
    (s : ChartSelectionController)
    (h : Runs.exec (step order) (start order service date) events = some s) :
    (∀ r ∈ s.requests, r.propertyId ∈ chartProperties s.service r.thingId) ∧
    ∀ thing, s.selectedThing = some thing → ∃ property, s.selectedProperty = some property ∧
      property.id ∈ chartProperties s.service thing ∧
      (s.combined = some (thing, property.id) ∨
        (s.combined = none ∧ s.requests.head? = some ⟨thing, property.id, s.selectedDate⟩)) := by
  have hinv : s.Inv := Runs.exec_invariant (G := fun _ => True) (fun _ _ _ hs _ hstep => hs.step order hstep)
    (fun _ _ => trivial) h (start_inv order service date)
  exact ⟨hinv.asked, fun thing ht => (hinv.selected thing ht).2⟩

/- A second thing, whose properties came the other way round. -/
def pv : Bytes := [112, 118]

def solarService : WebSocketService where
  things := WebSocketService.construct.things ++
    [(pv, [(enumToString "dcPower", .integer 1), (enumToString "power", .integer 2)])]
  settings := []

def solarOrder : MapOrder where
  things := id
  properties thing keys := if thing = pv then keys.reverse else keys
  things_perm := fun keys => .refl keys
  properties_perm := by
    intro thing keys
    split_ifs
    · exact keys.reverse_perm
    · exact .refl keys

/- The first thing is drawn, then the second one's power, once a text that is no document
has come; the timer still runs for the day before. -/
def solarSelections : List Event :=
  [.elapsed, .selectThing pv, .message ⟨fun _ => [], fun _ => none⟩ [120],
    .selectProperty (enumToString "power"), .elapsed, .chevronLeft]

theorem solarSelections_run :
    (Runs.exec (step solarOrder) (start solarOrder solarService 0) solarSelections).map
      (fun s => (s.selectedThing, s.requests)) =
      some (some pv, [⟨pv, enumToString "power", 0⟩, ⟨enumToString "site", enumToString "power", 0⟩]) := by
  decide +kernel

theorem requests_upToDate_solar : ∃ s,
    Runs.exec (step solarOrder) (start solarOrder solarService 0) solarSelections = some s ∧
    (s.selectedThing = some pv ∧ s.requests.length = 2) ∧
    (∀ r ∈ s.requests, r.propertyId ∈ chartProperties s.service r.thingId) ∧
    ∃ property, s.selectedProperty = some property ∧
      property.id ∈ chartProperties s.service pv ∧
      (s.combined = some (pv, property.id) ∨
        (s.combined = none ∧ s.requests.head? = some ⟨pv, property.id, s.selectedDate⟩)) := by
  obtain ⟨s, hs, heq⟩ := Option.map_eq_some_iff.mp solarSelections_run
  obtain ⟨hthing, hrequests⟩ := Prod.mk.inj heq
  obtain ⟨hasked, hselected⟩ := requests_upToDate solarOrder solarService 0 solarSelections s hs
  exact ⟨s, hs, ⟨hthing, congrArg List.length hrequests⟩, hasked, hselected pv hthing⟩

end ChartSelectionController
end Iotic.Webapp
