import Iotic.Webapp.WebSocketService
import Iotic.Webserver.WebAppBehavior

/-!
# Site messages in the web app (site_repository.dart, web_socket_service.dart)

A text message about the site goes to the handler first and is then parsed again by the
service itself; either takes it for a history when its first value is a list. `none` is
a thrown exception: a failed cast, or the last element of an empty list.
-/

namespace Iotic.Webapp
open ByteString Iotic.Webserver

structure SiteDataLive where
  ts : ℤ
  pvPower : ℤ
  gridPower : ℤ
  sitePower : ℤ
  deriving DecidableEq, Repr

structure SiteData where
  siteDataLive : SiteDataLive := ⟨0, 0, 0, 0⟩
  siteDataHistoric : SiteDataHistoric := ⟨[], [], []⟩
  deriving DecidableEq, Repr

abbrev PropertyMap := List (Bytes × PropertyValue)

/- What is kept of site messages: by the repository, for the log, and by the service. -/
structure Client where
  repository : SiteData := {}
  siteProperties : PropertyMap := []
  service : SiteData := {}
  settings : Option PropertyMap := none

/- The cast of a value of the map, which may be missing. -/
def asList (value : Option PropertyValue) : Option (List ℤ) :=
  match value with
  | some (.inr values) => some values
  | _ => none

def asInt (value : Option PropertyValue) : Option ℤ :=
  match value with
  | some (.inl v) => some v
  | _ => none

def SiteDataHistoric.fromMap (json : PropertyMap) : Option SiteDataHistoric := do
  let ts ← asList (member (enumToString "timestamp") json)
  let pvPower ← asList (member (enumToString "pv_power") json)
  let gridPower ← asList (member (enumToString "grid_power") json)
  some ⟨ts, pvPower, gridPower⟩

/- `null` where a key is missing. -/
def SiteDataLive.fromMap (json : PropertyMap) : Option (Option SiteDataLive) :=
  if (member (enumToString "timestamp") json).isSome ∧
      (member (enumToString "pv_power") json).isSome ∧
      (member (enumToString "grid_power") json).isSome then do
    let ts ← asInt (member (enumToString "timestamp") json)
    let pvPower ← asInt (member (enumToString "pv_power") json)
    let gridPower ← asInt (member (enumToString "grid_power") json)
    some (some ⟨ts, pvPower, gridPower, -pvPower - gridPower⟩)
  else some none

/- Both handlers build the live data from the last elements of the history. -/
def SiteData.ofHistory (props : PropertyMap) : Option SiteData := do
  let historic ← SiteDataHistoric.fromMap props
  let ts ← historic.ts.getLast?
  let pvPower ← historic.pvPower.getLast?
  let gridPower ← historic.gridPower.getLast?
  some ⟨⟨ts, pvPower, gridPower, -pvPower - gridPower⟩, historic⟩

/- `map.values.first is List`. -/
def firstIsList (props : PropertyMap) : Option Bool := props.head?.map fun e => e.2.isRight

/-- `SiteRepository.onMessage`, returned with whether the message is done with. -/
def onMessage (id : Bytes) (props : PropertyMap) (c : Client) : Option (Bool × Client) :=
  if id ≠ enumToString "site" then some (false, c)
  else do
    if ← firstIsList props then
      let repository ← SiteData.ofHistory props
      some (false, { c with repository })
    else some (false, { c with siteProperties := props })

/- The enumerators of `ThingPropertyKey`, one of which a setting has to be. -/
def thingPropertyKeys : List String :=
  ["timestamp", "pv_power", "grid_power", "site_power", "short_term_grid_power",
    "long_term_grid_power", "type", "name", "icon", "pinned", "digitalInput", "digitalOutput",
    "analogInput", "analogOutput", "temperature", "power", "actuation", "power_control", "phases",
    "next_phases", "voltage", "current", "percentage", "energy", "multistateSelector", "dcPower",
    "dcEnergy", "offset", "thing_interval", "time_constant", "countdown", "status", "events",
    "on_condition", "off_condition"]

/- `properties[key] = value` for every setting. -/
def mergeSettings (settings json : PropertyMap) : Option PropertyMap :=
  json.foldlM (fun settings e =>
    if e.1 ∈ thingPropertyKeys.map enumToString then some (setMember e.1 e.2 settings) else none)
    settings

/-- `_parseSite`. -/
def parseSite (entry : Bytes × PropertyMap) (c : Client) : Option (Bool × Client) :=
  if entry.1 ≠ enumToString "site" then some (false, c)
  else do
    if ← firstIsList entry.2 then
      let service ← SiteData.ofHistory entry.2
      some (true, { c with service })
    else
      match ← SiteDataLive.fromMap entry.2 with
      | some siteDataLive => some (true, { c with service := { c.service with siteDataLive } })
      | none =>
        let settings ← mergeSettings (c.settings.getD []) entry.2
        some (true, { c with settings := some settings })

/-- A text message. What is not about the site changes nothing that is kept here. -/
def receive (lib : JsonTextLibrary) (element : Bytes) (c : Client) : Option Client := do
  let json ← lib.jsonDecode element
  let c ← json.foldlM (fun c e =>
    if e.1.isEmpty ∨ e.2.isEmpty then some c else (onMessage e.1 e.2 c).map Prod.snd) c
  match json with
  | [entry] => (parseSite entry c).map Prod.snd
  | _ => some c

/-! ### The history at the start -/

open WebAppBehavior

/- The client has taken the message, with the entries in both places. -/
def Receives (lib : JsonTextLibrary) (siteHistory : List Properties) (c : Client)
    (entries : List Properties) : Prop :=
  ∃ c', receive lib (serializeSiteHistory lib siteHistory) c = some c' ∧
    c'.repository.siteDataHistoric = ⟨timestamps entries, pvPowers entries, gridPowers entries⟩ ∧
    c'.service.siteDataHistoric = ⟨timestamps entries, pvPowers entries, gridPowers entries⟩

section History
variable {props : PropertyMap} (h : firstIsList props = some true) (c : Client)
include h

theorem onMessage_history : onMessage (enumToString "site") props c =
    (SiteData.ofHistory props).map fun data => (false, { c with repository := data }) := by
  rw [onMessage, if_neg (by simp), h]
  cases SiteData.ofHistory props <;> rfl

theorem parseSite_history : parseSite (enumToString "site", props) c =
    (SiteData.ofHistory props).map fun data => (true, { c with service := data }) := by
  rw [parseSite, if_neg (by simp), h]
  cases SiteData.ofHistory props <;> rfl

/- Both take the same data from it, or neither takes any. -/
theorem receive_history {lib : JsonTextLibrary} {element : Bytes}
    (hdecode : lib.jsonDecode element = some [(enumToString "site", props)]) :
    receive lib element c = (SiteData.ofHistory props).map fun data =>
      { c with repository := data, service := data } := by
  have hne : ¬ ((enumToString "site").isEmpty ∨ props.isEmpty) := by
    intro hempty
    cases hempty with
    | inl hsite => exact absurd hsite (by decide)
    | inr hprops =>
      rw [List.isEmpty_iff.mp hprops] at h
      cases h
  rw [receive, hdecode]
  simp only [Option.bind_eq_bind, Option.bind_some, List.foldlM_cons, List.foldlM_nil, if_neg hne,
    onMessage_history h]
  cases hdata : SiteData.ofHistory props with
  | none => rfl
  | some data =>
    simp only [Option.map_some, Option.bind_some, Option.pure_def, parseSite_history h, hdata]

end History

theorem ofHistory_site (entries : List Properties) :
    SiteData.ofHistory [(enumToString "grid_power", .inr (gridPowers entries)),
      (enumToString "pv_power", .inr (pvPowers entries)),
      (enumToString "timestamp", .inr (timestamps entries))] =
    entries.getLast?.map fun e => ⟨⟨e.ts.toNat, e.pvPower.toInt, e.gridPower.toInt,
      -e.pvPower.toInt - e.gridPower.toInt⟩,
      ⟨timestamps entries, pvPowers entries, gridPowers entries⟩⟩ := by
  have hread : SiteData.ofHistory [(enumToString "grid_power", .inr (gridPowers entries)),
      (enumToString "pv_power", .inr (pvPowers entries)),
      (enumToString "timestamp", .inr (timestamps entries))] = (do
        let ts ← (timestamps entries).getLast?
        let pvPower ← (pvPowers entries).getLast?
        let gridPower ← (gridPowers entries).getLast?
        some ⟨⟨ts, pvPower, gridPower, -pvPower - gridPower⟩,
          ⟨timestamps entries, pvPowers entries, gridPowers entries⟩⟩) := rfl
  rw [hread, timestamps, pvPowers, gridPowers]
  simp only [List.getLast?_map]
  cases entries.getLast? <;> rfl

theorem receive_siteHistory {lib : JsonTextLibrary} (hlib : lib.Faithful)
    (siteHistory : List Properties) (c : Client) :
    receive lib (serializeSiteHistory lib siteHistory) c =
      (recent siteHistory).getLast?.map fun e =>
        let data : SiteData := ⟨⟨e.ts.toNat, e.pvPower.toInt, e.gridPower.toInt,
          -e.pvPower.toInt - e.gridPower.toInt⟩, ⟨timestamps (recent siteHistory),
            pvPowers (recent siteHistory), gridPowers (recent siteHistory)⟩⟩
        { c with repository := data, service := data } := by
  have hdecode := hlib _ (writable_siteMessage (timestamps (recent siteHistory))
    (pvPowers (recent siteHistory)) (gridPowers (recent siteHistory)))
  rw [siteMessage_eq] at hdecode
  rw [serializeSiteHistory_eq, siteMessage_eq, receive_history rfl c hdecode, ofHistory_site,
    Option.map_map]
  rfl

theorem recent_eq_nil_iff {siteHistory : List Properties} :
    recent siteHistory = [] ↔ siteHistory = [] := by
  rw [← List.length_eq_zero_iff, length_recent, ← List.length_eq_zero_iff]
  omega

/-- The client takes the message and has the last 121 entries at most, in their order,
exactly where there is an entry at all. -/
theorem receives_recent_iff (lib : JsonTextLibrary) (hlib : lib.Faithful)
    (siteHistory : List Properties) (c : Client) :
    Receives lib siteHistory c (recent siteHistory) ↔ siteHistory ≠ [] := by
  rw [Receives, receive_siteHistory hlib, ne_eq, ← recent_eq_nil_iff]
  cases hlast : (recent siteHistory).getLast? with
  | none => simp [List.getLast?_eq_none_iff.mp hlast]
  | some e =>
    have hne : recent siteHistory ≠ [] := by
      intro hnil
      rw [hnil] at hlast
      cases hlast
    exact ⟨fun _ => hne, fun _ => ⟨_, rfl, rfl, rfl⟩⟩

theorem receives_recent_three : Receives .compact threeEntries {} (recent threeEntries) :=
  (receives_recent_iff .compact JsonTextLibrary.compact_faithful threeEntries {}).mpr (by decide)

/- Before the first entry of the daemon there is no last element. -/
theorem not_receives_recent : ¬ Receives .compact [] {} (recent []) ∧
    receive .compact (serializeSiteHistory .compact []) {} = none := by
  have hthrows : receive .compact (serializeSiteHistory .compact []) {} = none :=
    receive_siteHistory JsonTextLibrary.compact_faithful [] {}
  refine ⟨?_, hthrows⟩
  intro h
  obtain ⟨c', hc', -⟩ := h
  rw [hthrows] at hc'
  cases hc'

end Iotic.Webapp
