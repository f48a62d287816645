import Iotic.Webapp.HistoryView
import Iotic.Webserver.MessageHandlers

/-!
# The site over one web socket

Both ends with the messages between them, as bytes: the daemon's history, which only
grows (WebServer.cpp, WebAppBehavior.cpp, WebAppRouter.cpp), and the web app with its
card (web_socket_service.dart). A web socket keeps the order of its messages. `none` is
an exception, or an event that cannot happen.
-/

namespace Iotic.Webapp
open ByteString Cbor Iotic.Webserver SiteService

/-! ### The daemon -/

/- What is published with each reading of the site. -/
def siteReading (p : Properties) (shortTermGridPower longTermGridPower : ℤ) : Message :=
  let siteProperties := setMember (enumToString "timestamp") (.inl (p.ts.toNat : ℤ)) []
  let siteProperties := setMember (enumToString "grid_power") (.inl p.gridPower.toInt) siteProperties
  let siteProperties := setMember (enumToString "pv_power") (.inl p.pvPower.toInt) siteProperties
  let siteProperties := setMember (enumToString "short_term_grid_power") (.inl shortTermGridPower)
    siteProperties
  let siteProperties := setMember (enumToString "long_term_grid_power") (.inl longTermGridPower)
    siteProperties
  setMember (enumToString "site") siteProperties []

/- The libraries at both ends. The web app's search is `lowerBound`. -/
structure Link where
  text : JsonTextLibrary
  daemonCbor : JsonLibrary
  webCbor : JsonLibrary
  package : CborPackage
  env : Environment
  lowerBound : LowerBound FlSpot

/- The document a request is read as. -/
def ReadsRequests (env : Environment) : Prop :=
  ∀ thing property values bytes, jsonFormat.Encodes [(thing, [(property, values)])] bytes →
    env.from_cbor bytes = some (.object [(thing, .object [(property,
      .array (values.map JsonValue.integer))])])

structure Link.Faithful (link : Link) : Prop where
  text : link.text.Faithful
  daemonCbor : link.daemonCbor.Faithful
  webCbor : link.webCbor.Faithful
  package : link.package.Reads
  env : ReadsRequests link.env
  lowerBound : link.lowerBound.Faithful

/- Shortest forms at both ends, and bisection. -/
def Link.shortest : Link where
  text := .compact
  daemonCbor := .shortest
  webCbor := .shortest
  package := .ofFormat
  env := {
    parse := fun _ => none
    from_cbor := fun bytes => (jsonFormat.read bytes).map fun r => .object (r.1.map fun e =>
      (e.1, .object (e.2.map fun m => (m.1, .array (m.2.map JsonValue.integer)))))
    isProperty := fun _ => false }
  lowerBound := bisection

theorem Link.shortest_faithful : Link.shortest.Faithful where
  text := JsonTextLibrary.compact_faithful
  daemonCbor := JsonLibrary.shortest_faithful
  webCbor := JsonLibrary.shortest_faithful
  package := CborPackage.ofFormat_reads
  env := by
    intro thing property values bytes h
    show (jsonFormat.read bytes).map _ = _
    rw [jsonFormat.read_eq h]
    rfl
  lowerBound := bisection_faithful

inductive Frame
  | text (message : Bytes)
  | binary (message : Bytes)
  deriving DecidableEq, Repr

structure Session where
  siteHistory : List Properties
  downlink : List Frame
  uplink : List Bytes
  client : Client
  card : SiteCardController

/- What the daemon sends when it is opened. -/
def Session.opened (link : Link) (thingInterval : ℤ) (siteHistory : List Properties)
    (client : Client) : Session where
  siteHistory := siteHistory
  downlink := [.text (WebAppBehavior.serializeSiteProperties link.text thingInterval),
    .text (WebAppBehavior.serializeSiteHistory link.text siteHistory)]
  uplink := []
  client := client
  card := {}

/- Nothing is sent back where there is no entry in the range. -/
def Session.serve (link : Link) (message : Bytes) (s : Session) : Option Session :=
  match onBinaryMessage link.env message with
  | .ok (.siteHistory fromTs toTs) =>
    (Webserver.serializeSiteHistory link.daemonCbor s.siteHistory fromTs toTs).map fun buffer =>
      if buffer.isEmpty then s else { s with downlink := s.downlink ++ [.binary buffer] }
  | .ok _ => some s
  | .error _ => none

/-! ### The web app -/

def request (fromTs toTs : ℤ) : Json :=
  [(enumToString "site", [(enumToString "timestamp", [fromTs, toTs])])]

/- What is assigned to the two observables of the service. -/
inductive Assignment
  | siteDataHistoric (value : SiteDataHistoric)
  | siteDataLive (value : SiteDataLive)

/- The assignments of `_parseSite`. -/
def assignments (props : PropertyMap) : Option (List Assignment) := do
  if ← firstIsList props then
    let data ← SiteData.ofHistory props
    some [.siteDataHistoric data.siteDataHistoric, .siteDataLive data.siteDataLive]
  else
    match ← SiteDataLive.fromMap props with
    | some siteDataLive => some [.siteDataLive siteDataLive]
    | none => some []

def SiteData.assign (data : SiteData) : Assignment → SiteData
  | .siteDataHistoric siteDataHistoric => { data with siteDataHistoric }
  | .siteDataLive siteDataLive => { data with siteDataLive }

/- The listeners of `SiteService`. Its counter is raised and set back each time, so that
the card is updated twice. -/
def listen (lowerBound : LowerBound FlSpot) (card : SiteCardController) :
    Assignment → Option SiteCardController
  | .siteDataHistoric p0 => (card.service.onSiteDataHistoric lowerBound p0).map fun service =>
      { card with service }.update.update
  | .siteDataLive p0 =>
    some { card with service := card.service.onSiteDataLive p0 }.update.update

def Session.takeText (link : Link) (element : Bytes) (s : Session) : Option Session := do
  let client ← receive link.text element s.client
  let assigned ← match link.text.jsonDecode element with
    | some [(id, props)] => if id = enumToString "site" then assignments props else some []
    | _ => some []
  let card ← assigned.foldlM (listen link.lowerBound) s.card
  some { s with client, card }

def Session.takeBinary (link : Link) (message : Bytes) (s : Session) : Option Session := do
  let siteDataHistoric ← parseBinary link.package s.client.service.siteDataHistoric message
  let map ← link.package.decode message
  if (member (enumToString "site") map).isNone then some s
  else
    let card ← listen link.lowerBound s.card (.siteDataHistoric siteDataHistoric)
    let service := s.client.service.assign (.siteDataHistoric siteDataHistoric)
    some { s with client := { s.client with service }, card }

/-! ### Both -/

inductive SessionEvent
  | site (p : Properties) (shortTermGridPower longTermGridPower : ℤ)
  | thingInterval (value : ℤ)
  | serve
  | receive
  | drag (dx : ℚ)

namespace Session

/- The chart, which is dragged, is there for more than one point. -/
def step (link : Link) (s : Session) : SessionEvent → Option Session
  | .site p shortTerm longTerm => some { s with
      siteHistory := s.siteHistory ++ [p]
      downlink := s.downlink ++ [.text (link.text.dump (siteReading p shortTerm longTerm))] }
  | .thingInterval value => some { s with
      downlink := s.downlink ++ [.text (WebAppBehavior.serializeSiteProperties link.text value)] }
  | .serve =>
    match s.uplink with
    | [] => none
    | message :: uplink => serve link message { s with uplink }
  | .receive =>
    match s.downlink with
    | [] => none
    | .text element :: downlink => takeText link element { s with downlink }
    | .binary message :: downlink => takeBinary link message { s with downlink }
  | .drag dx =>
    if s.card.service.pvPoints.length ≤ 1 then none
    else (s.card.drag dx).map fun r => { s with
      card := r.2
      uplink := s.uplink ++ r.1.toList.map fun r => link.webCbor.toCbor (request r.1 r.2) }

/- Timestamps ascend, and no one drags to before 1970. -/
def Regular (s : Session) : SessionEvent → Prop
  | .site p _ _ => ∀ e ∈ s.siteHistory, e.ts < p.ts
  | .drag dx => 120 ≤ s.card.minX + dx
  | _ => True

instance (s : Session) (e : SessionEvent) : Decidable (s.Regular e) := by
  cases e <;> unfold Regular <;> infer_instance

def Enabled (s : Session) : SessionEvent → Prop
  | .serve => s.uplink ≠ []
  | .receive => s.downlink ≠ []
  | .drag _ => 1 < s.card.service.pvPoints.length
  | _ => True

/- A run in which every event is regular. -/
def Reaches (link : Link) (s : Session) (events : List SessionEvent) (t : Session) : Prop :=
  Runs.Run (fun s e t => step link s e = some t ∧ s.Regular e) s events t

end Session

/-! ### Requests that are served -/

/- Bounds come as `int`, and are compared as `uint`. -/
theorem toNat_ofInt_bmod {bound : ℤ} (h : 0 ≤ bound) (h' : bound < 2 ^ 32) :
    ((UInt32.ofInt (bound.bmod (2 ^ 32))).toNat : ℤ) = bound := by
  have hn : (UInt32.ofInt (bound.bmod (2 ^ 32))).toNat =
      (bound.bmod (2 ^ 32) % 2 ^ 32).toNat % 2 ^ 32 := UInt32.toNat_ofNat'
  have hmod : bound.bmod (2 ^ 32) % 2 ^ 32 = bound := by
    rw [Int.bmod_def]
    split_ifs <;> omega
  rw [hn, hmod]
  omega

section Served
variable {history : List Properties} {fromTs toTs : ℤ}
  (hsorted : history.Pairwise fun a b => a.ts < b.ts) (hfrom : 0 ≤ fromTs) (hft : fromTs < toTs)
  (hto : toTs < 2 ^ 32)
include hsorted hfrom hft hto

theorem lt_notAfter_bmod_iff {i : ℕ} (hi : i < history.length) :
    i < notAfter history (fromTs.bmod (2 ^ 32)) ↔ (history[i].ts.toNat : ℤ) ≤ fromTs := by
  have hdown : history.Pairwise fun a b =>
      decide (b.ts ≤ UInt32.ofInt (fromTs.bmod (2 ^ 32))) = true →
        decide (a.ts ≤ UInt32.ofInt (fromTs.bmod (2 ^ 32))) = true := by
    refine hsorted.imp fun hab hb => ?_
    exact decide_eq_true (UInt32.le_trans (UInt32.le_of_lt hab) (of_decide_eq_true hb))
  have hbound := toNat_ofInt_bmod hfrom (hft.trans hto)
  rw [notAfter, Sequences.lt_length_takeWhile_iff hdown hi, decide_eq_true_iff,
    UInt32.le_iff_toNat_le]
  omega

theorem lt_itu_bmod_iff {i : ℕ} (hi : i < history.length) :
    i < itu history (toTs.bmod (2 ^ 32)) ↔ (history[i].ts.toNat : ℤ) < toTs := by
  have hdown : history.Pairwise fun a b =>
      decide (¬ UInt32.ofInt (toTs.bmod (2 ^ 32)) ≤ b.ts) = true →
        decide (¬ UInt32.ofInt (toTs.bmod (2 ^ 32)) ≤ a.ts) = true := by
    refine hsorted.imp fun hab hb => ?_
    rw [decide_eq_true_iff] at hb ⊢
    exact fun hle => hb (UInt32.le_trans hle (UInt32.le_of_lt hab))
  have hbound := toNat_ofInt_bmod (hfrom.trans hft.le) hto
  rw [itu, Sequences.lt_length_takeWhile_iff hdown hi, decide_eq_true_iff, UInt32.le_iff_toNat_le]
  omega

/- The bounds are in order, so that the range is one of the history. -/
theorem itl_le_itu_bmod :
    itl history (fromTs.bmod (2 ^ 32)) ≤ itu history (toTs.bmod (2 ^ 32)) := by
  rw [itl_eq]
  by_contra hgt
  have hle := notAfter_le history (fromTs.bmod (2 ^ 32))
  have hi : itu history (toTs.bmod (2 ^ 32)) < history.length := by omega
  have hearly := (lt_notAfter_bmod_iff hsorted hfrom hft hto hi).mp (by omega)
  have hlate := mt (lt_itu_bmod_iff hsorted hfrom hft hto hi).mpr (lt_irrefl _)
  omega

theorem slice_bmod_eq_requested :
    slice history (fromTs.bmod (2 ^ 32)) (toTs.bmod (2 ^ 32)) = requested history fromTs toTs := by
  symm
  apply Sequences.filter_eq_slice
  intro i hi
  have hearly := fun {j} (hj : j < history.length) =>
    lt_notAfter_bmod_iff hsorted hfrom hft hto hj
  rw [lt_itu_bmod_iff hsorted hfrom hft hto hi, decide_eq_true_iff, itl_eq]
  refine and_congr_left fun _ => ⟨?_, ?_⟩
  · intro h
    by_contra hnot
    have hlast : notAfter history (fromTs.bmod (2 ^ 32)) - 1 < history.length := by
      have hle := notAfter_le history (fromTs.bmod (2 ^ 32))
      omega
    have hle := h _ (List.getElem_mem hlast) ((hearly hlast).mp (by omega))
    have hindex := (ts_le_iff hsorted hlast hi).mp hle
    omega
  · intro h y hy hyf
    obtain ⟨j, hj, rfl⟩ := List.getElem_of_mem hy
    have hjn := (hearly hj).mpr hyf
    exact (ts_le_iff hsorted hj hi).mpr (by omega)

/- The daemon answers with the readings asked for, or with nothing. -/
theorem serializeSiteHistory_bmod (lib : JsonLibrary) (hne : history ≠ []) :
    Webserver.serializeSiteHistory lib history (fromTs.bmod (2 ^ 32)) (toTs.bmod (2 ^ 32)) =
      some (if requested history fromTs toTs = [] then []
        else lib.toCbor (document (requested history fromTs toTs))) := by
  have hslice := slice_bmod_eq_requested hsorted hfrom hft hto
  split_ifs with hnil
  · have hle := itl_le_itu_bmod hsorted hfrom hft hto
    have hlength := congrArg List.length (hslice.trans hnil)
    have hitu : itu history (toTs.bmod (2 ^ 32)) ≤ history.length :=
      (List.takeWhile_sublist _).length_le
    rw [slice, List.length_drop, List.length_take, List.length_nil] at hlength
    rw [Webserver.serializeSiteHistory, if_neg (by simp only [hne, false_or]; omega),
      if_pos (by omega)]
  · rw [serializeSiteHistory_slice lib (by rwa [hslice]), hslice]

end Served

theorem onBinaryMessage_request {link : Link} (hlink : link.Faithful) {fromTs toTs : ℤ}
    (hfrom : 0 ≤ fromTs) (hft : fromTs < toTs) (hto : toTs < 2 ^ 32) :
    onBinaryMessage link.env (link.webCbor.toCbor (request fromTs toTs)) =
      .ok (.siteHistory (fromTs.bmod (2 ^ 32)) (toTs.bmod (2 ^ 32))) := by
  have hwritable : jsonFormat.Writable (request fromTs toTs) := by
    have hnames : ∀ name ∈ ["site", "timestamp"], (enumToString name).length < 2 ^ 64 := by decide
    refine ⟨by simp [request], List.forall_mem_singleton.mpr ⟨hnames "site" (by simp), ?_⟩⟩
    refine ⟨by simp, List.forall_mem_singleton.mpr ⟨hnames "timestamp" (by simp), by simp, ?_⟩⟩
    intro value hvalue
    have hbounds : 0 ≤ value ∧ value < 2 ^ 32 := by
      rcases List.mem_cons.mp hvalue with rfl | hvalue
      · omega
      · rw [List.mem_singleton.mp hvalue]
        omega
    exact ⟨by omega, by omega⟩
  have hread : link.env.from_cbor (link.webCbor.toCbor (request fromTs toTs)) = some (.object
      [(enumToString "site", .object [(enumToString "timestamp",
        .array [.integer fromTs, .integer toTs])])]) :=
    hlink.env _ _ _ _ (hlink.webCbor _ hwritable)
  unfold onBinaryMessage
  rw [hread]
  rfl

/-! ### Messages that are taken -/

/- The assignments are the ones that `_parseSite` leaves behind. -/
theorem parseSite_assignments {props : PropertyMap} {c c' : Client} {done : Bool}
    (h : parseSite (enumToString "site", props) c = some (done, c')) :
    ∃ assigned, assignments props = some assigned ∧
      c'.service = assigned.foldl SiteData.assign c.service := by
  rw [parseSite, if_neg (by simp)] at h
  unfold assignments
  obtain ⟨isList, hlist, h⟩ := Option.bind_eq_some_iff.mp h
  simp only [hlist, Option.bind_eq_bind, Option.bind_some]
  cases isList with
  | true =>
    obtain ⟨data, hdata, h⟩ := Option.bind_eq_some_iff.mp h
    obtain ⟨-, rfl⟩ := Prod.mk.inj (Option.some.inj h)
    simp only [hdata, if_true, Option.bind_some]
    exact ⟨_, rfl, rfl⟩
  | false =>
    obtain ⟨live, hlive, h⟩ := Option.bind_eq_some_iff.mp h
    simp only [hlive, Bool.false_eq_true, if_false, Option.bind_some]
    cases live with
    | some siteDataLive =>
      obtain ⟨-, rfl⟩ := Prod.mk.inj (Option.some.inj h)
      exact ⟨_, rfl, rfl⟩
    | none =>
      obtain ⟨settings, -, h⟩ := Option.bind_eq_some_iff.mp h
      obtain ⟨-, rfl⟩ := Prod.mk.inj (Option.some.inj h)
      exact ⟨_, rfl, rfl⟩

section Taken
variable {link : Link} (hlink : link.Faithful) {s : Session}

/- A message of the site that is taken whole. -/
theorem takeText_site {element : Bytes} {props : PropertyMap} {client : Client}
    {assigned : List Assignment}
    (hdecode : link.text.jsonDecode element = some [(enumToString "site", props)])
    (hreceive : receive link.text element s.client = some client)
    (hassigned : assignments props = some assigned) :
    s.takeText link element = (assigned.foldlM (listen link.lowerBound) s.card).map fun card =>
      { s with client, card } := by
  unfold Session.takeText
  rw [hreceive, hdecode]
  simp only [Option.bind_eq_bind, Option.bind_some, if_true, hassigned]
  cases assigned.foldlM (listen link.lowerBound) s.card <;> rfl

/- What is no history is kept by the repository first, and goes on to the service. -/
theorem receive_site {lib : JsonTextLibrary} {element : Bytes} {props : PropertyMap} {c c' : Client}
    {done : Bool} (hdecode : lib.jsonDecode element = some [(enumToString "site", props)])
    (hfirst : firstIsList props = some false)
    (hparse : parseSite (enumToString "site", props) { c with siteProperties := props } =
      some (done, c')) :
    receive lib element c = some c' := by
  have hne : ¬ ((enumToString "site").isEmpty ∨ props.isEmpty) := by
    rintro (hsite | hprops)
    · exact absurd hsite (by decide)
    · rw [List.isEmpty_iff.mp hprops] at hfirst
      cases hfirst
  have hmessage : onMessage (enumToString "site") props c =
      some (false, { c with siteProperties := props }) := by
    rw [onMessage, if_neg (by simp), hfirst]
    rfl
  rw [receive, hdecode]
  simp only [Option.bind_eq_bind, Option.bind_some, List.foldlM_cons, List.foldlM_nil, if_neg hne,
    hmessage, Option.map_some, Option.pure_def, hparse]

theorem plain_names : ∀ name ∈ ["site", "grid_power", "long_term_grid_power", "pv_power",
    "short_term_grid_power", "timestamp", "thing_interval"],
    JsonText.Format.Plain (enumToString name) := by decide

include hlink

/- Nothing of a setting is assigned. -/
theorem takeText_settings (value : ℤ) : ∃ client,
    s.takeText link (WebAppBehavior.serializeSiteProperties link.text value) =
      some { s with client } := by
  let props : PropertyMap := [(enumToString "thing_interval", .inl value)]
  have hwritable : messageFormat.Writable [(enumToString "site", props)] :=
    List.forall_mem_singleton.mpr ⟨plain_names "site" (by simp),
      List.forall_mem_singleton.mpr ⟨plain_names "thing_interval" (by simp), trivial⟩⟩
  have hdecode : link.text.jsonDecode (WebAppBehavior.serializeSiteProperties link.text value) =
      some [(enumToString "site", props)] := hlink.text _ hwritable
  have hkey : enumToString "thing_interval" ∈ thingPropertyKeys.map enumToString :=
    List.mem_map_of_mem (by decide)
  have hmerge : ∀ settings, mergeSettings settings props =
      some (setMember (enumToString "thing_interval") (.inl value) settings) := by
    intro settings
    rw [mergeSettings, List.foldlM_cons, if_pos hkey]
    rfl
  have hparse : parseSite (enumToString "site", props) { s.client with siteProperties := props } =
      some (true, { s.client with
        siteProperties := props
        settings := some (setMember (enumToString "thing_interval") (.inl value)
          (s.client.settings.getD [])) }) := by
    rw [parseSite, if_neg (by simp)]
    have hfirst : firstIsList props = some false := rfl
    have hlive : SiteDataLive.fromMap props = some none := rfl
    simp only [hfirst, hlive, hmerge, Option.bind_eq_bind, Option.bind_some, Bool.false_eq_true,
      if_false]
  have hassigned : assignments props = some [] := rfl
  exact ⟨_, takeText_site hdecode (receive_site hdecode rfl hparse) hassigned⟩

/- The site takes what the panels and the grid give. -/
theorem takeText_live (p : Properties) (shortTerm longTerm : ℤ) : ∃ client,
    s.takeText link (link.text.dump (siteReading p shortTerm longTerm)) = some { s with
      client
      card := { s.card with service := s.card.service.onSiteDataLive ⟨(asTaken p).x, (asTaken p).pv,
        (asTaken p).grid, -(asTaken p).pv - (asTaken p).grid⟩ }.update.update } := by
  let props : PropertyMap := [(enumToString "grid_power", .inl p.gridPower.toInt),
    (enumToString "long_term_grid_power", .inl longTerm),
    (enumToString "pv_power", .inl p.pvPower.toInt),
    (enumToString "short_term_grid_power", .inl shortTerm),
    (enumToString "timestamp", .inl (p.ts.toNat : ℤ))]
  have hmessage : siteReading p shortTerm longTerm = [(enumToString "site", props)] := rfl
  have hwritable : messageFormat.Writable [(enumToString "site", props)] := by
    refine List.forall_mem_singleton.mpr ⟨plain_names "site" (by simp), ?_⟩
    intro e he
    simp only [props, List.mem_cons, List.not_mem_nil, or_false] at he
    rcases he with rfl | rfl | rfl | rfl | rfl
    · exact ⟨plain_names "grid_power" (by simp), trivial⟩
    · exact ⟨plain_names "long_term_grid_power" (by simp), trivial⟩
    · exact ⟨plain_names "pv_power" (by simp), trivial⟩
    · exact ⟨plain_names "short_term_grid_power" (by simp), trivial⟩
    · exact ⟨plain_names "timestamp" (by simp), trivial⟩
  have hdecode : link.text.jsonDecode (link.text.dump (siteReading p shortTerm longTerm)) =
      some [(enumToString "site", props)] := by
    rw [hmessage]
    exact hlink.text _ hwritable
  have hlive : SiteDataLive.fromMap props = some (some ⟨(asTaken p).x, (asTaken p).pv,
      (asTaken p).grid, -(asTaken p).pv - (asTaken p).grid⟩) := rfl
  have hfirst : firstIsList props = some false := rfl
  have hparse : ∃ c', parseSite (enumToString "site", props)
      { s.client with siteProperties := props } = some (true, c') := by
    rw [parseSite, if_neg (by simp)]
    simp only [hfirst, hlive, Option.bind_eq_bind, Option.bind_some, Bool.false_eq_true, if_false]
    exact ⟨_, rfl⟩
  obtain ⟨c', hparse⟩ := hparse
  have hassigned : assignments props = some [.siteDataLive ⟨(asTaken p).x, (asTaken p).pv,
      (asTaken p).grid, -(asTaken p).pv - (asTaken p).grid⟩] := rfl
  exact ⟨c', takeText_site hdecode (receive_site hdecode hfirst hparse) hassigned⟩

/- Of a history the last entry comes once more, as a reading of its own. -/
theorem takeText_history {siteHistory : List Properties} {last : Properties}
    (hlast : siteHistory.getLast? = some last) : ∃ client,
    s.takeText link (WebAppBehavior.serializeSiteHistory link.text siteHistory) =
      ([Assignment.siteDataHistoric (historicOf ((WebAppBehavior.recent siteHistory).map asTaken)),
        .siteDataLive ⟨(asTaken last).x, (asTaken last).pv, (asTaken last).grid,
          -(asTaken last).pv - (asTaken last).grid⟩].foldlM (listen link.lowerBound) s.card).map
        fun card => { s with client, card } := by
  have hne : siteHistory ≠ [] := by
    rintro rfl
    cases hlast
  have hrecent : (WebAppBehavior.recent siteHistory).getLast? = some last := by
    rw [HistoryView.getLast?_recent hne, hlast]
  have hdecode := hlink.text _ (WebAppBehavior.writable_siteMessage
    (WebAppBehavior.timestamps (WebAppBehavior.recent siteHistory))
    (WebAppBehavior.pvPowers (WebAppBehavior.recent siteHistory))
    (WebAppBehavior.gridPowers (WebAppBehavior.recent siteHistory)))
  rw [← WebAppBehavior.serializeSiteHistory_eq, WebAppBehavior.siteMessage_eq] at hdecode
  have hreceive := receive_siteHistory hlink.text siteHistory s.client
  rw [hrecent, Option.map_some] at hreceive
  have hhistoric : historicOf ((WebAppBehavior.recent siteHistory).map asTaken) =
      ⟨WebAppBehavior.timestamps (WebAppBehavior.recent siteHistory),
        WebAppBehavior.pvPowers (WebAppBehavior.recent siteHistory),
        WebAppBehavior.gridPowers (WebAppBehavior.recent siteHistory)⟩ := by
    unfold historicOf
    simp only [List.map_map]
    rfl
  refine ⟨_, takeText_site hdecode hreceive ?_⟩
  have hdata := ofHistory_site (WebAppBehavior.recent siteHistory)
  rw [hrecent, Option.map_some] at hdata
  unfold assignments
  rw [hdata, hhistoric]
  rfl

/- Powers in whole tens. -/
theorem takeBinary_range {entries : List Properties} (hne : entries ≠ [])
    (hsorted : entries.Pairwise fun a b => a.ts < b.ts) : ∃ client,
    s.takeBinary link (link.daemonCbor.toCbor (document entries)) =
      (listen link.lowerBound s.card (.siteDataHistoric (historicOf (entries.map inTens)))).map
        fun card => { s with client, card } := by
  have hlength : entries.length < 2 ^ 64 := by
    have hle := Database.length_entries_le (entries.map fun e => (e.ts, []))
      (List.pairwise_map.mpr hsorted)
    rw [List.length_map] at hle
    omega
  have hencodes := hlink.daemonCbor _ (writable_document hlength)
  have hparse := parseBinary_document hlink.package hne hsorted s.client.service.siteDataHistoric
    hencodes
  have hdecode := hlink.package _ _ hencodes
  have hsite : (member (enumToString "site") (document entries)).isNone = false := rfl
  have hhistoric : historicOf (entries.map inTens) = ⟨entries.map fun e => (e.ts.toNat : ℤ),
      entries.map fun e => e.pvPower.toInt.tdiv 10 * 10,
      entries.map fun e => e.gridPower.toInt.tdiv 10 * 10⟩ := by
    unfold historicOf
    simp only [List.map_map]
    rfl
  refine ⟨{ s.client with
    service := s.client.service.assign (.siteDataHistoric (historicOf (entries.map inTens))) }, ?_⟩
  unfold Session.takeBinary
  rw [hparse, hdecode, ← hhistoric]
  simp only [Option.bind_eq_bind, Option.bind_some, hsite, Bool.false_eq_true, if_false]
  cases listen link.lowerBound s.card (.siteDataHistoric (historicOf (entries.map inTens))) <;> rfl

end Taken

end Iotic.Webapp
