import Iotic.Webapp.SiteSession

/-!
# What the card of the site shows, over whole runs

A session goes through the states of the history that is on its way: every event that can
happen is a step of it, or leaves it alone. What holds there is read off the card.
-/

namespace Iotic.Webapp
open ByteString Cbor Iotic.Webserver SiteService HistoryView

namespace Session

def frame (link : Link) : Delivery → Frame
  | .settings value => .text (WebAppBehavior.serializeSiteProperties link.text value)
  | .history siteHistory => .text (WebAppBehavior.serializeSiteHistory link.text siteHistory)
  | .live p shortTerm longTerm => .text (link.text.dump (siteReading p shortTerm longTerm))
  | .range _ _ entries => .binary (link.daemonCbor.toCbor (document entries))

/- The messages of the one are those of the other in bytes. -/
structure Represents (link : Link) (s : Session) (v : HistoryView) : Prop where
  history : s.siteHistory = v.history
  downlink : s.downlink = v.deliveries.map (frame link)
  uplink : s.uplink = v.requests.map fun r => link.webCbor.toCbor (request r.1 r.2)
  framed : s.card.Framed v.samples

section Steps
variable {link : Link} {s : Session} {v : HistoryView} {siteHistory : List Properties}

theorem opened_represents (link : Link) (thingInterval : ℤ) (siteHistory : List Properties)
    (client : Client) : (opened link thingInterval siteHistory client).Represents link
      (HistoryView.opened thingInterval siteHistory) where
  history := rfl
  downlink := rfl
  uplink := rfl
  framed := ⟨rfl, List.Pairwise.nil, fun _ => rfl, fun h => absurd rfl h, fun _ h => (nomatch h)⟩

/- No sample is lost at the end. -/
theorem exists_merge_ge (newList oldList : List Sample) : ∀ s ∈ oldList,
    ∃ s' ∈ merge newList oldList, s.x ≤ s'.x := by
  intro s hs
  by_cases hne : newList = []
  · subst hne
    exact ⟨s, hs, le_rfl⟩
  · by_cases hlast : (newList.getLast hne).x < s.x
    · exact ⟨s, (mem_merge_iff hne).mpr (Or.inr ⟨hs, Or.inr hlast⟩), le_rfl⟩
    · exact ⟨newList.getLast hne, (mem_merge_iff hne).mpr (Or.inl (List.getLast_mem hne)),
        not_lt.mp hlast⟩

theorem listen_historic {lowerBound : LowerBound FlSpot} (hlower : lowerBound.Faithful)
    {card : SiteCardController} {samples newList : List Sample} (h : card.Framed samples)
    (hnew : Sorted Sample.x newList) (hsorted : Sorted Sample.x (merge newList samples)) :
    ∃ card', listen lowerBound card (.siteDataHistoric (historicOf newList)) = some card' ∧
      card'.Framed (merge newList samples) := by
  refine ⟨_, ?_, h.arrive hsorted (exists_merge_ge newList samples)⟩
  rw [listen, h.service, onSiteDataHistoric_ofSamples hlower h.sorted hnew, Option.map_some]

theorem listen_live (lowerBound : LowerBound FlSpot) {card : SiteCardController}
    {samples : List Sample} (h : card.Framed samples) (t : Sample)
    (hsorted : Sorted Sample.x (samples ++ [t])) :
    ∃ card', listen lowerBound card (.siteDataLive ⟨t.x, t.pv, t.grid, -t.pv - t.grid⟩) =
      some card' ∧ card'.Framed (samples ++ [t]) := by
  refine ⟨_, ?_, h.arrive hsorted fun s hs => ⟨s, List.mem_append_left _ hs, le_rfl⟩⟩
  rw [listen, h.service, onSiteDataLive_ofSamples]

theorem toCbor_ne_nil {lib : JsonLibrary} (hlib : lib.Faithful) {j : Json}
    (hj : jsonFormat.Writable j) : lib.toCbor j ≠ [] := by
  intro hnil
  have hread := jsonFormat.read_eq (hlib j hj)
  rw [hnil] at hread
  cases hread

/- A request is taken, and answered from the history as it is now. -/
theorem serve_refines (hlink : link.Faithful) (hne : siteHistory ≠ [])
    (hv : v.Consistent siteHistory) (h : s.Represents link v) (huplink : s.uplink ≠ []) :
    ∃ s' v', step link s .serve = some s' ∧ s'.Represents link v' ∧ HistoryView.Step v v' := by
  cases hreq : v.requests with
  | nil =>
    rw [h.uplink, hreq] at huplink
    exact absurd rfl huplink
  | cons r rest =>
    obtain ⟨fromTs, toTs⟩ := r
    rcases hv with hv | ⟨old, news, hv⟩
    · rw [hv.requests] at hreq
      cases hreq
    · have hu : v.Underway fromTs toTs := Or.inl (by rw [hreq]; exact List.mem_cons_self)
      obtain ⟨hfrom, hft, hbound, -⟩ := hv.bounds fromTs toTs hu
      obtain ⟨r, hr⟩ := exists_mem_recent hne
      have hto : toTs < 2 ^ 32 := by
        have hle := hbound r hr
        have hlt := r.ts.toNat_lt
        omega
      have hlt : fromTs < toTs := by omega
      have hhistory : v.history ≠ [] :=
        List.ne_nil_of_mem (hv.mem_history (mem_of_mem_recent hr))
      have huplink' : s.uplink = link.webCbor.toCbor (request fromTs toTs) ::
          rest.map fun r => link.webCbor.toCbor (request r.1 r.2) := by
        rw [h.uplink, hreq]
        rfl
      have hanswer := serializeSiteHistory_bmod hv.sorted hfrom hlt hto link.daemonCbor hhistory
      have hserve : step link s .serve = some (
          let s' : Session := { s with uplink := rest.map fun r => link.webCbor.toCbor (request r.1 r.2) }
          let buffer := if requested v.history fromTs toTs = [] then []
            else link.daemonCbor.toCbor (document (requested v.history fromTs toTs))
          if buffer.isEmpty then s' else { s' with downlink := s'.downlink ++ [.binary buffer] }) := by
        rw [step, huplink']
        dsimp only
        rw [serve, onBinaryMessage_request hlink hfrom hlt hto]
        dsimp only
        rw [h.history, hanswer, Option.map_some]
      refine ⟨_, _, hserve, ?_, HistoryView.Step.serve hreq⟩
      by_cases hnil : requested v.history fromTs toTs = []
      · simp only [hnil, if_true, List.isEmpty_nil]
        refine ⟨h.history, ?_, rfl, h.framed⟩
        rw [h.downlink, answer, if_pos hnil, List.append_nil]
      · have hlength : (requested v.history fromTs toTs).length < 2 ^ 64 := by
          have hle := Database.length_entries_le
            ((requested v.history fromTs toTs).map fun e => (e.ts, []))
            (List.pairwise_map.mpr (requested_pairwise hv.sorted fromTs toTs))
          rw [List.length_map] at hle
          omega
        have hbytes : (link.daemonCbor.toCbor (document (requested v.history fromTs toTs))).isEmpty =
            false := by
          rw [List.isEmpty_eq_false_iff]
          exact toCbor_ne_nil hlink.daemonCbor (writable_document hlength)
        simp only [hnil, if_false, hbytes, Bool.false_eq_true]
        refine ⟨h.history, ?_, rfl, h.framed⟩
        rw [h.downlink, answer, if_neg hnil, List.map_append]
        rfl

theorem step_text {element : Bytes} {downlink : List Frame}
    (h : s.downlink = .text element :: downlink) :
    step link s .receive = takeText link element { s with downlink } := by
  rw [step, h]

theorem step_binary {message : Bytes} {downlink : List Frame}
    (h : s.downlink = .binary message :: downlink) :
    step link s .receive = takeBinary link message { s with downlink } := by
  rw [step, h]

/- The oldest message is taken; the history comes before anything is shown. -/
theorem receive_refines (hlink : link.Faithful) (hne : siteHistory ≠ [])
    (hv : v.Consistent siteHistory) (h : s.Represents link v) (hdownlink : s.downlink ≠ []) :
    ∃ s' v', step link s .receive = some s' ∧ s'.Represents link v' ∧ HistoryView.Step v v' := by
  cases hd : v.deliveries with
  | nil =>
    rw [h.downlink, hd] at hdownlink
    exact absurd rfl hdownlink
  | cons d rest =>
    have hstep : HistoryView.Step v { v with
      deliveries := rest, samples := d.deliver v.samples } := HistoryView.Step.receive hd
    have hsorted := (hstep.consistent hne hv).sorted_samples hne
    have hdown : s.downlink = frame link d :: rest.map (frame link) := by
      rw [h.downlink, hd]
      rfl
    have hnext : ∀ s', step link s .receive = some s' → s'.Represents link { v with
        deliveries := rest, samples := d.deliver v.samples } →
        ∃ s' v', step link s .receive = some s' ∧ s'.Represents link v' ∧ HistoryView.Step v v' :=
      fun s' hs' hr => ⟨s', _, hs', hr, hstep⟩
    cases d with
    | settings value =>
      obtain ⟨client, htaken⟩ := takeText_settings hlink value
        (s := { s with downlink := rest.map (frame link) })
      exact hnext _ ((step_text hdown).trans htaken) ⟨h.history, rfl, h.uplink, h.framed⟩
    | live p shortTerm longTerm =>
      obtain ⟨client, htaken⟩ := takeText_live hlink p shortTerm longTerm
        (s := { s with downlink := rest.map (frame link) })
      have hframed := h.framed.arrive (c := s.card) hsorted fun s hs =>
        ⟨s, List.mem_append_left _ hs, le_rfl⟩
      refine hnext _ ((step_text hdown).trans htaken) ⟨h.history, rfl, h.uplink, ?_⟩
      dsimp only
      rw [h.framed.service, onSiteDataLive_ofSamples]
      exact hframed
    | range fromTs toTs entries =>
      rcases hv with hv | ⟨old, news, hv⟩
      · exfalso
        obtain ⟨settings, later, heq, hsettings, -⟩ := hv.deliveries
        rw [hd] at heq
        cases settings with
        | nil => cases heq
        | cons d' settings =>
          obtain ⟨value, hvalue⟩ := hsettings d' List.mem_cons_self
          rw [hvalue] at heq
          cases heq
      · obtain ⟨hentries, hreq⟩ := hv.ranges fromTs toTs entries (by rw [hd]; exact List.mem_cons_self)
        have hascending : entries.Pairwise fun a b => a.ts < b.ts := by
          rw [hreq]
          exact requested_pairwise hv.sorted fromTs toTs
        have hnew : Sorted Sample.x (entries.map inTens) := by
          refine List.pairwise_map.mpr (hascending.imp fun {a b} hab => ?_)
          show (a.ts.toNat : ℤ) ≤ b.ts.toNat
          exact_mod_cast (UInt32.lt_iff_toNat_lt.mp hab).le
        obtain ⟨client, htaken⟩ := takeBinary_range hlink hentries hascending
          (s := { s with downlink := rest.map (frame link) })
        obtain ⟨card', hlisten, hframed⟩ := listen_historic hlink.lowerBound h.framed hnew hsorted
        rw [hlisten, Option.map_some] at htaken
        exact hnext _ ((step_binary hdown).trans htaken) ⟨h.history, rfl, h.uplink, hframed⟩
    | history l =>
      rcases hv with hv | ⟨old, news, hv⟩
      · obtain ⟨last, hlast⟩ : ∃ last, l.getLast? = some last := by
          obtain ⟨settings, later, heq, hsettings, -⟩ := hv.deliveries
          rw [hd] at heq
          cases settings with
          | nil =>
            obtain ⟨hl, -⟩ := List.cons.inj heq
            rw [Delivery.history.inj hl]
            exact ⟨_, List.getLast?_eq_some_getLast hne⟩
          | cons d' settings =>
            obtain ⟨value, hvalue⟩ := hsettings d' List.mem_cons_self
            rw [hvalue] at heq
            cases heq
        have hdeliver : Delivery.deliver v.samples (.history l) =
            merge ((WebAppBehavior.recent l).map asTaken) v.samples ++ [asTaken last] := by
          rw [Delivery.deliver, hlast]
          rfl
        have hsorted' : Sorted Sample.x (Delivery.deliver v.samples (.history l)) := hsorted
        rw [hdeliver] at hsorted'
        have hmerged := (List.pairwise_append.mp hsorted').1
        have hsamples : v.samples = [] := hv.samples
        have hnew : Sorted Sample.x ((WebAppBehavior.recent l).map asTaken) := by
          have hsame : merge ((WebAppBehavior.recent l).map asTaken) v.samples =
              (WebAppBehavior.recent l).map asTaken := by
            have hlne : l ≠ [] := by
              rintro rfl
              cases hlast
            rw [hsamples, merge_eq (List.map_eq_nil_iff.not.mpr (recent_eq_nil_iff.not.mpr hlne))]
            simp [before, behind]
          rw [hsame] at hmerged
          exact hmerged
        obtain ⟨card', hlisten, hframed⟩ := listen_historic hlink.lowerBound h.framed hnew hmerged
        obtain ⟨card'', hlisten', hframed'⟩ := listen_live link.lowerBound hframed
          (asTaken last) hsorted'
        obtain ⟨client, htaken⟩ := takeText_history hlink hlast
          (s := { s with downlink := rest.map (frame link) })
        have hboth : [Assignment.siteDataHistoric
            (historicOf ((WebAppBehavior.recent l).map asTaken)),
            .siteDataLive ⟨(asTaken last).x, (asTaken last).pv, (asTaken last).grid,
              -(asTaken last).pv - (asTaken last).grid⟩].foldlM (listen link.lowerBound) s.card =
            some card'' := by
          rw [List.foldlM_cons, hlisten]
          simp only [Option.bind_eq_bind, Option.bind_some, List.foldlM_cons, List.foldlM_nil,
            hlisten', Option.pure_def]
        rw [hboth, Option.map_some] at htaken
        refine hnext _ ((step_text hdown).trans htaken) ⟨h.history, rfl, h.uplink, ?_⟩
        show card''.Framed (Delivery.deliver v.samples (.history l))
        rw [hdeliver]
        exact hframed'
      · exact absurd rfl (hv.noHistory _ (by rw [hd]; exact List.mem_cons_self) l)

/- The range is moved, and readings may be asked for. -/
theorem drag_refines (h : s.Represents link v) {dx : ℚ} (hdx : 120 ≤ s.card.minX + dx)
    (hpoints : 1 < s.card.service.pvPoints.length) :
    ∃ s' v', step link s (.drag dx) = some s' ∧ s'.Represents link v' ∧
      (v' = v ∨ HistoryView.Step v v') := by
  have hlength : 1 < v.samples.length := by
    rw [h.framed.service] at hpoints
    have hsame : (SitePoints.ofSamples v.samples).pvPoints.length = v.samples.length :=
      List.length_map _
    rwa [hsame] at hpoints
  obtain ⟨first, rest, hsamples⟩ := List.exists_cons_of_length_pos (Nat.lt_of_succ_lt hlength)
  obtain ⟨asked, c', hdrag, hc'⟩ := h.framed.drag hsamples hdx
  have hstep : step link s (.drag dx) = some { s with
      card := c'
      uplink := s.uplink ++ asked.toList.map fun r => link.webCbor.toCbor (request r.1 r.2) } := by
    rw [step, if_neg (not_le.mpr hpoints), hdrag, Option.map_some]
  rcases hc' with ⟨rfl, hframed⟩ | ⟨fromTs, rfl, hfrom, hto, hframed⟩
  · exact ⟨_, v, hstep, ⟨h.history, h.downlink, by simp [h.uplink], hframed⟩, Or.inl rfl⟩
  · refine ⟨_, { v with
      requests := v.requests ++ [(fromTs, first.x)], samples := zero fromTs :: v.samples }, hstep,
      ⟨h.history, h.downlink, ?_, hframed⟩, Or.inr (HistoryView.Step.drag hsamples hfrom hto)⟩
    show s.uplink ++ [link.webCbor.toCbor (request fromTs first.x)] =
      (v.requests ++ [(fromTs, first.x)]).map _
    rw [h.uplink, List.map_append]
    rfl

/- Every regular event that can happen goes through, and is a step of the history. -/
theorem step_refines (hlink : link.Faithful) (hne : siteHistory ≠ [])
    (hv : v.Consistent siteHistory) (h : s.Represents link v) {e : SessionEvent}
    (hregular : s.Regular e) (henabled : s.Enabled e) :
    ∃ s' v', step link s e = some s' ∧ s'.Represents link v' ∧ v'.Consistent siteHistory := by
  cases e with
  | site p shortTerm longTerm =>
    have hp : ∀ e ∈ v.history, e.ts < p.ts := by
      rw [← h.history]
      exact hregular
    refine ⟨_, _, rfl, ?_, (HistoryView.Step.site p shortTerm longTerm hp).consistent hne hv⟩
    refine ⟨congrArg (· ++ [p]) h.history, ?_, h.uplink, h.framed⟩
    rw [h.downlink, List.map_append]
    rfl
  | thingInterval value =>
    refine ⟨_, _, rfl, ?_, (HistoryView.Step.thingInterval value).consistent hne hv⟩
    refine ⟨h.history, ?_, h.uplink, h.framed⟩
    rw [h.downlink, List.map_append]
    rfl
  | serve =>
    obtain ⟨s', v', hs', hr, hstep⟩ := serve_refines hlink hne hv h henabled
    exact ⟨s', v', hs', hr, hstep.consistent hne hv⟩
  | receive =>
    obtain ⟨s', v', hs', hr, hstep⟩ := receive_refines hlink hne hv h henabled
    exact ⟨s', v', hs', hr, hstep.consistent hne hv⟩
  | drag dx =>
    obtain ⟨s', v', hs', hr, hstep⟩ := drag_refines h hregular henabled
    refine ⟨s', v', hs', hr, ?_⟩
    rcases hstep with rfl | hstep
    · exact hv
    · exact hstep.consistent hne hv

theorem enabled_of_step {e : SessionEvent} {s' : Session} (h : step link s e = some s') :
    s.Enabled e := by
  cases e with
  | site | thingInterval => trivial
  | serve =>
    intro hnil
    rw [step, hnil] at h
    cases h
  | receive =>
    intro hnil
    rw [step, hnil] at h
    cases h
  | drag dx =>
    rw [step] at h
    split_ifs at h with hle
    exact not_le.mp hle

end Steps

/-! ### Runs -/

section Runs
variable {link : Link} {thingInterval : ℤ} {siteHistory : List Properties} {client : Client}
  {events : List SessionEvent} {s : Session}

theorem reaches_represents (hlink : link.Faithful) (hne : siteHistory ≠ [])
    (hsorted : siteHistory.Pairwise fun a b => a.ts < b.ts)
    (h : Reaches link (opened link thingInterval siteHistory client) events s) :
    ∃ v, s.Represents link v ∧ v.Consistent siteHistory := by
  refine Runs.Run.invariant (I := fun s => ∃ v, s.Represents link v ∧ v.Consistent siteHistory)
    ?_ h ⟨_, opened_represents link thingInterval siteHistory client,
      Or.inl (opened_awaiting thingInterval hsorted)⟩
  intro s e t ⟨v, hr, hv⟩ ⟨hstep, hregular⟩
  obtain ⟨t', v', ht', hr', hv'⟩ := step_refines hlink hne hv hr hregular (enabled_of_step hstep)
  obtain rfl := Option.some.inj (hstep.symm.trans ht')
  exact ⟨v', hr', hv'⟩

/- A sample is a reading of the history, or the zero in front of one that was asked for. -/
def OldSample (history : List Properties) (t : Sample) : Prop :=
  (∃ e ∈ history, t = inTens e) ∨ ∃ fromTs, t = zero fromTs

/- The card has `old` samples, which are older than the recent readings, then these, the last
one again, and all that were taken since then but for `pending` ones, in their order. -/
structure Shows (siteHistory : List Properties) (s : Session) (old : List Sample)
    (news pending : List Properties) : Prop where
  history : s.siteHistory = siteHistory ++ news ++ pending
  underway : pending.length ≤ s.downlink.length
  service : s.card.service = .ofSamples
    (old ++ (WebAppBehavior.recent siteHistory ++ siteHistory.getLast?.toList ++ news).map asTaken)
  ascending : Ascending old
  older : ∀ t ∈ old, ∀ r ∈ WebAppBehavior.recent siteHistory, t.x < r.ts.toNat
  samples : ∀ t ∈ old, OldSample s.siteHistory t

theorem shows_of_received {v : HistoryView} {old : List Sample} {news : List Properties}
    (hr : s.Represents link v) (hv : v.Received siteHistory old news) :
    s.Shows siteHistory old news v.pending where
  history := hr.history.trans hv.history
  underway := by
    rw [hr.downlink, List.length_map]
    exact List.length_filterMap_le _ _
  service := hv.samples ▸ hr.framed.service
  ascending := hv.ascending
  older := hv.older
  samples := by
    intro t ht
    rw [hr.history]
    exact (hv.shown t ht).imp_right fun ⟨fromTs, hzero, _⟩ => ⟨fromTs, hzero⟩

/- Nothing is on its way. -/
def AtRest (s : Session) : Prop := s.downlink = [] ∧ s.uplink = []

instance (s : Session) : Decidable s.AtRest := inferInstanceAs (Decidable (_ ∧ _))

/- Readings no more than 121 seconds apart. -/
def Gapless (history : List Properties) : Prop :=
  history.IsChain fun a b => b.ts.toNat ≤ a.ts.toNat + 121

instance (history : List Properties) : Decidable (Gapless history) :=
  inferInstanceAs (Decidable (history.IsChain _))

/- More readings than are sent at the start; the card is dragged to the others. -/
def manyReadings : List Properties :=
  (List.range 123).map fun i => ⟨2000 + 10 * UInt32.ofNat i, 100 + Int32.ofNat i, -5⟩

def dragged : List SessionEvent :=
  [.receive, .receive, .site ⟨3300, 44, 1⟩ 3 4, .drag (-1300), .receive, .serve, .receive]

theorem manyReadings_sorted : manyReadings.Pairwise fun a b => a.ts < b.ts := by decide +kernel

/- The state after them: what each of the witnesses below is about. -/
def DraggedTo (s : Session) : Prop :=
  Reaches .shortest (opened .shortest 2 manyReadings {}) dragged s

theorem reaches_dragged : ∃ s : Session, s.DraggedTo ∧ s.AtRest ∧ Gapless s.siteHistory ∧
    (∃ last, s.card.service.pvPoints.getLast? = some last) ∧ s.Regular (.drag 0) ∧
      s.Enabled (.drag 0) := by
  have hrun : ((Runs.exec (Runs.guarded Regular (step .shortest))
      (opened .shortest 2 manyReadings {}) dragged).any fun s => s.AtRest ∧
        Gapless s.siteHistory ∧ s.card.service.pvPoints.getLast?.isSome ∧
          120 ≤ s.card.minX + 0 ∧ 1 < s.card.service.pvPoints.length) = true := by decide +kernel
  obtain ⟨s, hs, hp⟩ := (Option.any_eq_true _ _).mp hrun
  obtain ⟨hrest, hgap, hlast, hregular, henabled⟩ := of_decide_eq_true hp
  exact ⟨s, Runs.run_of_guarded hs, hrest, hgap, Option.isSome_iff_exists.mp hlast, hregular,
    henabled⟩

/-- In every state of a session that starts with a reading, whose readings come at
ascending times and whose card is not dragged to before 1970, whatever is read, sent, asked
for and dragged in whatever order: the card is empty, or shows the readings that came one
by one as they were taken, none of them lost, doubled or out of order but for the last one
at the start, behind older ones that are in whole tens or zero; the line of the site is the
sum of the others. -/
theorem shows_readings (link : Link) (hlink : link.Faithful) (thingInterval : ℤ)
    (siteHistory : List Properties) (hne : siteHistory ≠ [])
    (hsorted : siteHistory.Pairwise fun a b => a.ts < b.ts) (client : Client)
    (events : List SessionEvent) (s : Session)
    (h : Reaches link (opened link thingInterval siteHistory client) events s) :
    s.card.service = {} ∨ ∃ old news pending, s.Shows siteHistory old news pending := by
  obtain ⟨v, hr, hv⟩ := reaches_represents hlink hne hsorted h
  rcases hv with hv | ⟨old, news, hv⟩
  · refine Or.inl ?_
    rw [hr.framed.service, hv.samples]
    rfl
  · exact Or.inr ⟨old, news, v.pending, shows_of_received hr hv⟩

theorem shows_readings_dragged : ∃ s : Session, s.DraggedTo ∧ (s.card.service = {} ∨
    ∃ old news pending, s.Shows manyReadings old news pending) := by
  obtain ⟨s, hs, -⟩ := reaches_dragged
  exact ⟨s, hs, shows_readings .shortest Link.shortest_faithful 2 manyReadings (by decide)
    manyReadings_sorted {} dragged s hs⟩

theorem received_of_atRest {v : HistoryView} (hr : s.Represents link v)
    (hv : v.Consistent siteHistory) (hrest : s.AtRest) :
    v.deliveries = [] ∧ v.requests = [] ∧ ∃ old news, v.Received siteHistory old news := by
  have hdeliveries : v.deliveries = [] := by
    have hdown := hrest.1
    rw [hr.downlink] at hdown
    exact List.map_eq_nil_iff.mp hdown
  have hrequests : v.requests = [] := by
    have hup := hrest.2
    rw [hr.uplink] at hup
    exact List.map_eq_nil_iff.mp hup
  refine ⟨hdeliveries, hrequests, hv.resolve_left fun hv => ?_⟩
  obtain ⟨settings, later, heq, -⟩ := hv.deliveries
  rw [hdeliveries] at heq
  simp at heq

/-- Once nothing of such a session is on its way, every reading of the daemon that is not
before the first point of the card is on it: the recent ones as they were taken, the older
ones in tens. -/
theorem shows_every_reading (link : Link) (hlink : link.Faithful) (thingInterval : ℤ)
    (siteHistory : List Properties) (hne : siteHistory ≠ [])
    (hsorted : siteHistory.Pairwise fun a b => a.ts < b.ts) (client : Client)
    (events : List SessionEvent) (s : Session)
    (h : Reaches link (opened link thingInterval siteHistory client) events s)
    (hrest : s.AtRest) :
    ∃ old news, s.Shows siteHistory old news [] ∧ ∀ first ∈ s.card.service.pvPoints.head?,
      ∀ e ∈ s.siteHistory, (∀ r ∈ WebAppBehavior.recent siteHistory, e.ts < r.ts) →
        first.x ≤ e.ts.toNat → inTens e ∈ old := by
  obtain ⟨v, hr, hv⟩ := reaches_represents hlink hne hsorted h
  obtain ⟨hdeliveries, hrequests, old, news, hv⟩ := received_of_atRest hr hv hrest
  have hpending : v.pending = [] := by
    rw [pending, hdeliveries]
    rfl
  refine ⟨old, news, hpending ▸ shows_of_received hr hv, ?_⟩
  intro first hfirst e he hrecent hle
  rw [hr.history] at he
  refine hv.complete hne hrequests hdeliveries he hrecent ?_
  rw [hr.framed.service] at hfirst
  have hhead : v.samples.head?.map (fun t => (⟨t.x, t.pv⟩ : FlSpot)) = some first := by
    rw [← List.head?_map]
    exact hfirst
  obtain ⟨t, ht, rfl⟩ := Option.map_eq_some_iff.mp hhead
  exact ⟨t, List.mem_of_head? ht, hle⟩

theorem shows_every_reading_dragged : ∃ s : Session, s.DraggedTo ∧ s.AtRest ∧
    ∃ old news, s.Shows manyReadings old news [] ∧ ∀ first ∈ s.card.service.pvPoints.head?,
      ∀ e ∈ s.siteHistory, (∀ r ∈ WebAppBehavior.recent manyReadings, e.ts < r.ts) →
        first.x ≤ e.ts.toNat → inTens e ∈ old := by
  obtain ⟨s, hs, hrest, -⟩ := reaches_dragged
  exact ⟨s, hs, hrest, shows_every_reading .shortest Link.shortest_faithful 2 manyReadings (by decide)
    manyReadings_sorted {} dragged s hs hrest⟩

/- Without gaps, no two minutes between two readings are without one. -/
theorem Gapless.exists_between {history : List Properties} (hgap : Gapless history)
    (hsorted : history.Pairwise fun a b => a.ts < b.ts) {fromTs toTs : ℤ}
    (hft : fromTs + 121 ≤ toTs) (hearly : ∃ a ∈ history, (a.ts.toNat : ℤ) < fromTs)
    (hlate : ∃ b ∈ history, toTs ≤ b.ts.toNat) :
    ∃ e ∈ history, fromTs ≤ (e.ts.toNat : ℤ) ∧ (e.ts.toNat : ℤ) < toTs := by
  induction history with
  | nil =>
    obtain ⟨a, ha, -⟩ := hearly
    cases ha
  | cons x rest ih =>
    obtain ⟨hx, hrest⟩ := List.pairwise_cons.mp hsorted
    obtain ⟨b, hb, htb⟩ := hlate
    have hxearly : (x.ts.toNat : ℤ) < fromTs := by
      obtain ⟨a, ha, hlt⟩ := hearly
      rcases List.mem_cons.mp ha with rfl | ha
      · exact hlt
      · have hxa := UInt32.lt_iff_toNat_lt.mp (hx a ha)
        omega
    cases rest with
    | nil =>
      rw [List.mem_singleton.mp hb] at htb
      omega
    | cons y rest =>
      have hchain := List.isChain_cons_cons.mp hgap
      by_cases hy : (y.ts.toNat : ℤ) < fromTs
      · have hb' : b ∈ y :: rest := by
          rcases List.mem_cons.mp hb with rfl | hb
          · omega
          · exact hb
        obtain ⟨e, he, hbetween⟩ := ih hchain.2 hrest ⟨y, List.mem_cons_self, hy⟩ ⟨b, hb', htb⟩
        exact ⟨e, List.mem_cons_of_mem _ he, hbetween⟩
      · have hstep := hchain.1
        exact ⟨y, by simp, by omega, by omega⟩

/-- Where the readings of such a session are no more than 121 seconds apart, no zero stays
among them: once nothing is on its way, one can only be before all readings of the daemon.
-/
theorem shows_no_zero (link : Link) (hlink : link.Faithful) (thingInterval : ℤ)
    (siteHistory : List Properties) (hne : siteHistory ≠ [])
    (hsorted : siteHistory.Pairwise fun a b => a.ts < b.ts) (client : Client)
    (events : List SessionEvent) (s : Session)
    (h : Reaches link (opened link thingInterval siteHistory client) events s)
    (hrest : s.AtRest) (hgap : Gapless s.siteHistory) :
    ∃ old news, s.Shows siteHistory old news [] ∧ ∀ t ∈ old,
      (∃ e ∈ s.siteHistory, t = inTens e) ∨ ∀ e ∈ s.siteHistory, t.x < e.ts.toNat := by
  obtain ⟨v, hr, hv⟩ := reaches_represents hlink hne hsorted h
  obtain ⟨hdeliveries, hrequests, old, news, hv⟩ := received_of_atRest hr hv hrest
  have hpending : v.pending = [] := by
    rw [pending, hdeliveries]
    rfl
  refine ⟨old, news, hpending ▸ shows_of_received hr hv, fun t ht => ?_⟩
  rw [hr.history] at hgap ⊢
  refine (hv.shown t ht).imp_right ?_
  rintro ⟨fromTs, rfl, ⟨toTs, hu | ⟨entries, hes⟩⟩ | hbefore | ⟨toTs, hft, hbound, hempty⟩⟩
  · rw [hrequests] at hu
    cases hu
  · rw [hdeliveries] at hes
    cases hes
  · exact hbefore
  · intro e he
    by_contra hle
    obtain ⟨r, hr⟩ := exists_mem_recent hne
    have hearly : (e.ts.toNat : ℤ) < fromTs := by
      have hcase := hempty e he
      have hnot : (e.ts.toNat : ℤ) ≤ fromTs := not_lt.mp hle
      omega
    obtain ⟨e', he', hlo, hhi⟩ := hgap.exists_between hv.sorted hft ⟨e, he, hearly⟩
      ⟨r, hv.mem_history (mem_of_mem_recent hr), hbound r hr⟩
    have hcase := hempty e' he'
    omega

theorem shows_no_zero_dragged : ∃ s : Session, s.DraggedTo ∧ s.AtRest ∧ ∃ old news,
    s.Shows manyReadings old news [] ∧ ∀ t ∈ old,
      (∃ e ∈ s.siteHistory, t = inTens e) ∨ ∀ e ∈ s.siteHistory, t.x < e.ts.toNat := by
  obtain ⟨s, hs, hrest, hgap, -⟩ := reaches_dragged
  exact ⟨s, hs, hrest, shows_no_zero .shortest Link.shortest_faithful 2 manyReadings (by decide)
    manyReadings_sorted {} dragged s hs hrest hgap⟩

/-- No exception ends a session that starts with a reading: in every state that regular
events lead to, a regular event that can happen goes through. -/
theorem step_isSome_iff (link : Link) (hlink : link.Faithful) (thingInterval : ℤ)
    (siteHistory : List Properties) (hne : siteHistory ≠ [])
    (hsorted : siteHistory.Pairwise fun a b => a.ts < b.ts) (client : Client)
    (events : List SessionEvent) (s : Session)
    (h : Reaches link (opened link thingInterval siteHistory client) events s)
    (e : SessionEvent) (he : s.Regular e) : (step link s e).isSome ↔ s.Enabled e := by
  obtain ⟨v, hr, hv⟩ := reaches_represents hlink hne hsorted h
  refine ⟨fun hsome => ?_, fun henabled => ?_⟩
  · obtain ⟨s', hs'⟩ := Option.isSome_iff_exists.mp hsome
    exact enabled_of_step hs'
  · obtain ⟨s', v', hs', -⟩ := step_refines hlink hne hv hr he henabled
    rw [hs']
    rfl

theorem step_isSome_dragged : ∃ s : Session, s.DraggedTo ∧
    (step .shortest s (.drag 0)).isSome ∧ ¬ (step .shortest s .serve).isSome := by
  obtain ⟨s, hs, hrest, -, -, hregular, henabled⟩ := reaches_dragged
  have hiff := step_isSome_iff .shortest Link.shortest_faithful 2 manyReadings (by decide)
    manyReadings_sorted {} dragged s hs
  exact ⟨s, hs, (hiff _ hregular).mpr henabled, fun h => (hiff .serve trivial).mp h hrest.2⟩

/-- In every state of such a session with a point to show: the range is two minutes, ends
at the newest point while it follows and before one while it does not, and the chart is as
high as all that is shown of the panels and the site, so that it is always there. -/
theorem chart_shows_whole (link : Link) (hlink : link.Faithful) (thingInterval : ℤ)
    (siteHistory : List Properties) (hne : siteHistory ≠ [])
    (hsorted : siteHistory.Pairwise fun a b => a.ts < b.ts) (client : Client)
    (events : List SessionEvent) (s : Session)
    (h : Reaches link (opened link thingInterval siteHistory client) events s)
    (lowerBound : LowerBound ℚ) (hlower : lowerBound.Faithful)
    (last : FlSpot) (hlast : s.card.service.pvPoints.getLast? = some last) :
    s.card.maxX = s.card.minX + 120 ∧
      (if s.card.isFollowing then s.card.maxX = last.x else s.card.maxX < last.x) ∧
        s.card.ShowsWhole lowerBound := by
  obtain ⟨v, hr, hv⟩ := reaches_represents hlink hne hsorted h
  have hservice := hr.framed.service
  rw [hservice, SiteCardController.getLast?_pvPoints] at hlast
  obtain ⟨t, ht, rfl⟩ := Option.map_eq_some_iff.mp hlast
  have hsamples : v.samples ≠ [] := by
    intro hnil
    rw [hnil] at ht
    cases ht
  refine ⟨hr.framed.width hsamples, ?_, hr.framed.showsWhole hsamples hlower⟩
  have hright := hr.framed.right t ht
  cases hf : s.card.isFollowing with
  | true =>
    rw [hf, if_pos rfl] at hright
    simpa using hright
  | false =>
    rw [hf, if_neg (by simp)] at hright
    obtain ⟨t', ht', hlt⟩ := hright
    obtain ⟨init, hinit⟩ := List.getLast?_eq_some_iff.mp ht
    have hle : t'.x ≤ t.x := by
      have hs := hr.framed.sorted
      rw [hinit] at hs ht'
      rcases List.mem_append.mp ht' with hmem | hmem
      · exact (List.pairwise_append.mp hs).2.2 t' hmem t (List.mem_singleton_self _)
      · rw [List.mem_singleton.mp hmem]
    simp only [Bool.false_eq_true, if_false]
    exact hlt.trans_le (by exact_mod_cast hle)

theorem chart_shows_whole_dragged : ∃ (s : Session) (last : FlSpot), s.DraggedTo ∧
    s.card.service.pvPoints.getLast? = some last ∧ s.card.maxX = s.card.minX + 120 ∧
      (if s.card.isFollowing then s.card.maxX = last.x else s.card.maxX < last.x) ∧
        s.card.ShowsWhole bisection := by
  obtain ⟨s, hs, -, -, ⟨last, hlast⟩, -⟩ := reaches_dragged
  exact ⟨s, last, hs, hlast, chart_shows_whole .shortest Link.shortest_faithful 2 manyReadings (by decide)
    manyReadings_sorted {} dragged s hs bisection bisection_faithful last hlast⟩

end Runs

end Session
end Iotic.Webapp
