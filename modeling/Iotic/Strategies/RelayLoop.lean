import Iotic.Strategies.ManagedStrategy
import Iotic.Strategies.PhaseSteps
import Iotic.Things.ShellyGen2Thing

/-!
# The relays behind a multi-phase strategy

The loop as a whole: the power manager steps the strategy, the strategy commands a
selector, the device takes one relay of it at a time, and what the device reports is what
the strategy decides on next.
-/

namespace Iotic.Strategies
open Config Things

/-! ### The device -/

/- The thing with its outputs as they are and its properties as they are known. -/
structure RelayThing where
  shelly : ShellyGen2Thing
  relays : List Bool
  properties : Reported
  deriving DecidableEq, Repr

namespace RelayThing

/- `setProperties`. The request may get lost. Whether the properties take over what is
set before the device reports it is up to the base class: `echoes`. -/
def setProperties (echoes delivered : Bool) (states : List Bool) (t : RelayThing) :
    Option RelayThing := do
  let (request, shelly) ← t.shelly.onSetProperties states
  some
    { shelly := shelly
      relays := if delivered then t.relays.set request.id request.on else t.relays
      properties :=
        if echoes then { t.properties with multistateSelector := some states } else t.properties }

/- `onBody`, for a status with all switches and inputs. -/
def onBody (inputs : List Bool) (t : RelayThing) : RelayThing :=
  { t with properties := ⟨some inputs, some t.relays⟩ }

end RelayThing

/- The strategy and its thing, which is gone after an index out of range. -/
structure RelayHeater where
  strategy : MultiPhaseStrategy
  thing : Option RelayThing
  deriving DecidableEq, Repr

namespace RelayHeater

def wantsToStepDown (p : SiteProperties) (h : RelayHeater) : Bool × RelayHeater :=
  match h.thing with
  | none => (false, h)
  | some t => (h.strategy.wantsToStepDown t.properties p, h)

def wantsToStepUp (cfg : ConfigRepository) (now : ℤ) (p : SiteProperties) (h : RelayHeater) :
    Bool × RelayHeater :=
  match h.thing with
  | none => (false, h)
  | some t =>
    let r := h.strategy.wantsToStepUp cfg now t.properties p
    (r.1, { h with strategy := r.2 })

def adjust (echoes delivered : Bool) (step : Step) (p : SiteProperties) (h : RelayHeater) :
    RelayHeater :=
  let r := h.strategy.adjust step p
  ⟨r.1, h.thing.bind fun t => t.setProperties echoes delivered r.2.multistateSelector⟩

def onBody (now : ℤ) (inputs : List Bool) (h : RelayHeater) : RelayHeater :=
  ⟨h.strategy.onDigitalInput now inputs, h.thing.map fun t => t.onBody inputs⟩

/- As the manager knows it. -/
def managed (cfg : ConfigRepository) (echoes : Bool) (thing : Thing) (now : ℤ) (delivered : Bool) :
    Strategy RelayHeater where
  thingId := thing.id
  priority := 0
  wantsToStepDown := wantsToStepDown
  wantsToStepUp := wantsToStepUp cfg now
  adjust := adjust echoes delivered

end RelayHeater

/-! ### Runs -/

/- Other strategies come and go before and behind this one. -/
inductive RelayEvent (τ : Type)
  | update (before after : List (Strategy τ)) (now : ℤ) (p : SiteProperties) (delivered : Bool)
  | body (now : ℤ) (inputs : List Bool)
  | outside (others : τ)

namespace RelayEvent
variable {τ : Type}

def ts : RelayEvent τ → Option ℤ
  | .update _ _ _ p _ => some p.ts
  | _ => none

def Lost : RelayEvent τ → Prop
  | .update _ _ _ _ delivered => delivered = false
  | _ => False

/- In a row as many requests as there are relays get through, then the device reports. -/
def CaughtUp (n : ℕ) (events : List (RelayEvent τ)) : Prop :=
  ∃ front row now inputs back, events = front ++ row ++ .body now inputs :: back ∧
    n ≤ (row.filter fun e => e.ts.isSome).length ∧ ∀ e ∈ row, ¬ e.Lost

/- That is so between any two updates that are the shorter debounce apart. -/
def Paced (n : ℕ) (events : List (RelayEvent τ)) : Prop :=
  ∀ pre e mid e' post ts ts', events = pre ++ e :: mid ++ e' :: post → e.ts = some ts →
    e'.ts = some ts' → ts + stepDownDebounceSeconds ≤ ts' → CaughtUp n mid

end RelayEvent

namespace RelayLoop
variable {τ : Type}

def start (cfg : ConfigRepository) (powerThresholds : List ℤ) (others : τ) :
    PowerManager (RelayHeater × τ) :=
  ⟨0, ⟨.construct cfg powerThresholds,
    some ⟨.construct, List.replicate powerThresholds.length false, ⟨none, none⟩⟩⟩, others⟩

def handle (cfg : ConfigRepository) (echoes : Bool) (thing : Thing) (symbols : SymbolRepository τ)
    (m : PowerManager (RelayHeater × τ)) : RelayEvent τ → PowerManager (RelayHeater × τ)
  | .update before after now p delivered =>
    (onSiteProperties symbols.onRest
      (among (RelayHeater.managed cfg echoes thing now delivered) before after) p m).1
  | .body now inputs => { m with world := (m.world.1.onBody now inputs, m.world.2) }
  | .outside others => { m with world := (m.world.1, others) }

end RelayLoop

/-! ### What a command does to the device -/

namespace RelayThing

/- There are `n` relays, and one of them is next. -/
structure Wired (n : ℕ) (t : RelayThing) : Prop where
  next : t.shelly.phaseToSet < n
  relays : t.relays.length = n

variable {n : ℕ} {t : RelayThing} {states : List Bool}

theorem setProperties_eq (h : t.Wired n) (hstates : states.length = n) (echoes delivered : Bool) :
    ∃ properties, t.setProperties echoes delivered states = some ⟨⟨(t.shelly.phaseToSet + 1) % n⟩,
      if delivered then t.relays.set t.shelly.phaseToSet (states.getD t.shelly.phaseToSet false)
      else t.relays, properties⟩ ∧
      (properties.multistateSelector = t.properties.multistateSelector ∨
        properties.multistateSelector = some states) := by
  have hlt : t.shelly.phaseToSet < states.length := hstates ▸ h.next
  have hset : t.shelly.onSetProperties states = some
      (⟨t.shelly.phaseToSet, states.getD t.shelly.phaseToSet false⟩,
        ⟨(t.shelly.phaseToSet + 1) % n⟩) := by
    refine ShellyGen2Thing.onSetProperties_eq_some_iff.mpr ⟨?_, rfl, by rw [hstates]⟩
    rw [List.getElem?_eq_getElem hlt, List.getD_eq_getElem?_getD, List.getElem?_eq_getElem hlt]
    rfl
  unfold setProperties
  rw [hset]
  refine ⟨_, rfl, ?_⟩
  dsimp only
  split_ifs
  · exact Or.inr rfl
  · exact Or.inl rfl

/- A relay that was set shows its state, the others stay as they were. -/
theorem getElem?_set_getD {relays : List Bool} {i : ℕ} (hi : i < relays.length)
    (hstates : states.length = relays.length) (j : ℕ) :
    (relays.set i (states.getD i false))[j]? = if j = i then states[j]? else relays[j]? := by
  split_ifs with hj
  · rw [hj, List.getElem?_set_self hi, List.getD_eq_getElem?_getD,
      List.getElem?_eq_getElem (hstates ▸ hi)]
    rfl
  · exact List.getElem?_set_ne (Ne.symm hj)

/- What the device makes of an event while the command stays the same. -/
def follow {τ : Type} (echoes : Bool) (states : List Bool) (t : RelayThing) :
    RelayEvent τ → Option RelayThing
  | .update _ _ _ _ delivered => t.setProperties echoes delivered states
  | .body _ inputs => some (t.onBody inputs)
  | .outside _ => some t

/- The relays show the command, and nothing else is known of them. -/
structure Settled (states : List Bool) (t : RelayThing) : Prop where
  relays : t.relays = states
  known : ∀ selector, t.properties.multistateSelector = some selector → selector = states

variable {τ : Type} {echoes : Bool} {t' : RelayThing}

theorem follow_wired (h : t.Wired n) (hstates : states.length = n) {e : RelayEvent τ}
    (hfollow : t.follow echoes states e = some t') : t'.Wired n := by
  cases e with
  | update before after now p delivered =>
    obtain ⟨properties, heq, -⟩ := setProperties_eq h hstates echoes delivered
    obtain rfl := Option.some.inj (heq.symm.trans hfollow)
    refine ⟨Nat.mod_lt _ (Nat.zero_lt_of_lt h.next), ?_⟩
    cases delivered with
    | false => exact h.relays
    | true => exact List.length_set.trans h.relays
  | body now inputs =>
    obtain rfl := Option.some.inj hfollow
    exact ⟨h.next, h.relays⟩
  | outside others =>
    obtain rfl := Option.some.inj hfollow
    exact h

/- A relay that shows the command goes on showing it. -/
theorem follow_agrees (h : t.Wired n) (hstates : states.length = n) {e : RelayEvent τ}
    (hfollow : t.follow echoes states e = some t') {j : ℕ} (hj : t.relays[j]? = states[j]?) :
    t'.relays[j]? = states[j]? := by
  cases e with
  | update before after now p delivered =>
    obtain ⟨properties, heq, -⟩ := setProperties_eq h hstates echoes delivered
    obtain rfl := Option.some.inj (heq.symm.trans hfollow)
    cases delivered with
    | false => exact hj
    | true =>
      show (t.relays.set _ _)[j]? = states[j]?
      rw [getElem?_set_getD (h.relays.symm ▸ h.next) (hstates.trans h.relays.symm)]
      split_ifs
      · rfl
      · exact hj
  | body now inputs =>
    obtain rfl := Option.some.inj hfollow
    exact hj
  | outside others =>
    obtain rfl := Option.some.inj hfollow
    exact hj

theorem follow_settled (h : t.Wired n) (hstates : states.length = n) {e : RelayEvent τ}
    (hfollow : t.follow echoes states e = some t') (hsettled : t.Settled states) :
    t'.Settled states := by
  refine ⟨?_, ?_⟩
  · apply List.ext_getElem?
    intro j
    exact follow_agrees h hstates hfollow (by rw [hsettled.relays])
  · cases e with
    | update before after now p delivered =>
      obtain ⟨properties, heq, hproperties⟩ := setProperties_eq h hstates echoes delivered
      obtain rfl := Option.some.inj (heq.symm.trans hfollow)
      intro selector hselector
      rcases hproperties with hsame | hset
      · exact hsettled.known selector (hsame.symm.trans hselector)
      · exact Option.some.inj (hselector.symm.trans hset)
    | body now inputs =>
      obtain rfl := Option.some.inj hfollow
      intro selector hselector
      exact (Option.some.inj hselector).symm.trans hsettled.relays
    | outside others =>
      obtain rfl := Option.some.inj hfollow
      exact hsettled.known

theorem exec_follow_wired (hstates : states.length = n) {events : List (RelayEvent τ)}
    (h : t.Wired n) (hexec : Runs.exec (follow echoes states) t events = some t') : t'.Wired n :=
  Runs.exec_invariant (G := fun _ => True) (fun _ _ _ hs _ hf => follow_wired hs hstates hf)
    (fun _ _ => trivial) hexec h

theorem exec_follow_agrees (hstates : states.length = n) {events : List (RelayEvent τ)}
    (h : t.Wired n) (hexec : Runs.exec (follow echoes states) t events = some t') {j : ℕ}
    (hj : t.relays[j]? = states[j]?) : t'.relays[j]? = states[j]? :=
  (Runs.exec_invariant (I := fun t => Wired n t ∧ t.relays[j]? = states[j]?) (G := fun _ => True)
    (fun _ _ _ hs _ hf => ⟨follow_wired hs.1 hstates hf, follow_agrees hs.1 hstates hf hs.2⟩)
    (fun _ _ => trivial) hexec ⟨h, hj⟩).2

theorem exec_follow_settled (hstates : states.length = n) {events : List (RelayEvent τ)}
    (h : t.Wired n) (hexec : Runs.exec (follow echoes states) t events = some t')
    (hsettled : t.Settled states) : t'.Settled states :=
  (Runs.exec_invariant (I := fun t => Wired n t ∧ t.Settled states) (G := fun _ => True)
    (fun _ _ _ hs _ hf => ⟨follow_wired hs.1 hstates hf, follow_settled hs.1 hstates hf hs.2⟩)
    (fun _ _ => trivial) hexec ⟨h, hsettled⟩).2

/- A row of requests that get through sets one relay after the other. -/
theorem exec_follow_row (hstates : states.length = n) {row : List (RelayEvent τ)} (h : t.Wired n)
    (hlost : ∀ e ∈ row, ¬ e.Lost) (hexec : Runs.exec (follow echoes states) t row = some t') {j : ℕ}
    (hj : j ∈ CyclicRun.positions n t.shelly.phaseToSet (row.filter fun e => e.ts.isSome).length) :
    t'.relays[j]? = states[j]? := by
  induction row generalizing t with
  | nil => exact absurd hj List.not_mem_nil
  | cons e row ih =>
    obtain ⟨he, hrow⟩ := List.forall_mem_cons.mp hlost
    obtain ⟨t₁, hfirst, hrest⟩ := Option.bind_eq_some_iff.mp hexec
    have hwired := follow_wired h hstates hfirst
    cases e with
    | update before after now p delivered =>
      obtain ⟨properties, heq, -⟩ := setProperties_eq h hstates echoes delivered
      obtain rfl := Option.some.inj (heq.symm.trans hfirst)
      have hdelivered : delivered = true := by simpa [RelayEvent.Lost] using he
      have hcount : ((RelayEvent.update before after now p delivered :: row).filter fun e =>
          e.ts.isSome).length = (row.filter fun e => e.ts.isSome).length + 1 := rfl
      rw [hcount, CyclicRun.positions_cons n _ _ h.next, List.mem_cons] at hj
      rcases hj with rfl | hj
      · refine exec_follow_agrees hstates hwired hrest ?_
        rw [hdelivered]
        show (t.relays.set _ _)[t.shelly.phaseToSet]? = _
        rw [getElem?_set_getD (h.relays.symm ▸ h.next) (hstates.trans h.relays.symm), if_pos rfl]
      · exact ih hwired hrow hrest hj
    | body now inputs =>
      obtain rfl := Option.some.inj hfirst
      exact ih hwired hrow hrest hj
    | outside others =>
      obtain rfl := Option.some.inj hfirst
      exact ih hwired hrow hrest hj

/- The device has caught up with a command that stays the same for long enough. -/
theorem exec_follow_caughtUp (hstates : states.length = n) {events : List (RelayEvent τ)}
    (h : t.Wired n) (hcaught : RelayEvent.CaughtUp n events)
    (hexec : Runs.exec (follow echoes states) t events = some t') : t'.Settled states := by
  obtain ⟨front, row, now, inputs, back, rfl, hcount, hlost⟩ := hcaught
  rw [Runs.exec_append, Runs.exec_append] at hexec
  obtain ⟨t₂, hfront, hback⟩ := Option.bind_eq_some_iff.mp hexec
  obtain ⟨t₁, hfront, hrow⟩ := Option.bind_eq_some_iff.mp hfront
  have h₁ := exec_follow_wired hstates h hfront
  have h₂ := exec_follow_wired hstates h₁ hrow
  have hrelays : t₂.relays = states := by
    apply List.ext_getElem?
    intro j
    by_cases hj : j < n
    · have hmem := CyclicRun.mem_positions_full h₁.next hj
      obtain ⟨i, hi, hij⟩ := CyclicRun.mem_positions.mp hmem
      exact exec_follow_row hstates h₁ hlost hrow
        (CyclicRun.mem_positions.mpr ⟨i, lt_of_lt_of_le hi hcount, hij⟩)
    · rw [List.getElem?_eq_none (by rw [h₂.relays]; omega), List.getElem?_eq_none (by omega)]
  have hreported : (t₂.onBody inputs).Settled states :=
    ⟨hrelays, fun selector hselector => (Option.some.inj hselector).symm.trans hrelays⟩
  exact exec_follow_settled hstates (t := t₂.onBody inputs) ⟨h₂.next, h₂.relays⟩ hback hreported

end RelayThing

/-! ### What a turn of the strategy does -/

namespace MultiPhaseStrategy

/- The phases commanded on are one run of the ring, between the two pointers. -/
structure InRing (n : ℕ) (s : MultiPhaseStrategy) : Prop where
  size : s.powerThresholds.length = n
  holds : ∃ k, CyclicRun.Holds n s.nextStepDownPhase s.nextStepUpPhase k s.currentStates

theorem InRing.congr {n : ℕ} {s s' : MultiPhaseStrategy} (h : s.InRing n) (hr : s'.ring = s.ring) :
    s'.InRing n := by
  simp only [ring, Prod.mk.injEq] at hr
  obtain ⟨ht, hu, hd, hc⟩ := hr
  refine ⟨ht ▸ h.size, ?_⟩
  rw [hu, hd, hc]
  exact h.holds

theorem InRing.length {n : ℕ} {s : MultiPhaseStrategy} (h : s.InRing n) : s.currentStates.length = n := by
  obtain ⟨k, hk⟩ := h.holds
  exact hk.length

theorem currentStates_of_ring {s s' : MultiPhaseStrategy} (h : s'.ring = s.ring) :
    s'.currentStates = s.currentStates := congrArg (fun r => r.2.2.2) h

/- A device that has settled is the one the ring was proved for. -/
theorem InRing.plant {n : ℕ} {s : MultiPhaseStrategy} (h : s.InRing n) (inputs : Option (List Bool)) :
    ∃ k ups, Plant.Ring n k ⟨s, ⟨inputs, some s.currentStates⟩, ups, []⟩ := by
  obtain ⟨k, hk⟩ := h.holds
  exact ⟨k, CyclicRun.positions n s.nextStepDownPhase k, h.size, hk, rfl, rfl⟩

theorem InRing.adjust {n : ℕ} {s : MultiPhaseStrategy} (h : s.InRing n) (cfg : ConfigRepository)
    (now : ℤ) (inputs : Option (List Bool)) (p : SiteProperties) (k : Step)
    (hyes : (s.wantsTo cfg now ⟨inputs, some s.currentStates⟩ p k).1 = true) :
    ((s.wantsTo cfg now ⟨inputs, some s.currentStates⟩ p k).2.adjust k p).1.InRing n := by
  obtain ⟨j, ups, hplant⟩ := h.plant inputs
  cases k with
  | Keep =>
    have hring := Plant.keep_ring p hplant
    exact ⟨hring.size, j, hring.holds⟩
  | Down =>
    obtain ⟨j', hring⟩ := Plant.down_ring p hplant hyes
    exact ⟨hring.size, j', hring.holds⟩
  | Up =>
    obtain ⟨j', hring⟩ := Plant.up_ring cfg now p hplant hyes
    exact ⟨hring.size, j', hring.holds⟩

/- A step changes the command in one place. -/
theorem adjust_currentStates (k : Step) (p : SiteProperties) (s : MultiPhaseStrategy) :
    ∃ i : ℕ, ∀ j : ℕ, j ≠ i → (s.adjust k p).1.currentStates[j]? = s.currentStates[j]? := by
  cases k with
  | Keep =>
    have hr := currentStates_of_ring (adjust_ring .Keep p s)
    exact ⟨0, fun j _ => by rw [hr]⟩
  | Down =>
    have hr := currentStates_of_ring (s := s.stepDown p.ts) (adjust_ring .Down p s)
    exact ⟨s.nextStepDownPhase, fun j hj => by rw [hr]; exact List.getElem?_set_ne (Ne.symm hj)⟩
  | Up =>
    have hr := currentStates_of_ring (s := s.stepUp p.ts) (adjust_ring .Up p s)
    exact ⟨s.nextStepUpPhase, fun j hj => by rw [hr]; exact List.getElem?_set_ne (Ne.symm hj)⟩

/- Without a selector of the device there is no step. -/
theorem wantsTo_reported {cfg : ConfigRepository} {now : ℤ} {thing : Reported} {p : SiteProperties}
    {k : Step} {s : MultiPhaseStrategy} (hk : k ≠ .Keep) (hpos : 0 < s.powerThresholds.length)
    (hyes : (s.wantsTo cfg now thing p k).1 = true) : ∃ selector,
      thing.multistateSelector = some selector := by
  have hlength : (inputsAndStates thing).2.length = s.powerThresholds.length := by
    cases k with
    | Keep => exact absurd rfl hk
    | Down => exact ((wantsToStepDown_iff thing p s).mp hyes).1.2
    | Up => exact (wantsToStepUp_true hyes).2.states
  cases hs : thing.multistateSelector with
  | none =>
    rw [inputsAndStates, hs] at hlength
    exact absurd hlength (Nat.ne_of_lt hpos)
  | some selector => exact ⟨selector, rfl⟩

end MultiPhaseStrategy

namespace RelayHeater
open MultiPhaseStrategy

variable {cfg : ConfigRepository} {echoes : Bool} {thing : Thing} {now : ℤ} {delivered : Bool}
  {p : SiteProperties} {n : ℕ}

theorem wants_some {h : RelayHeater} {t : RelayThing} (ht : h.thing = some t) (k : Step) :
    (managed cfg echoes thing now delivered).wants p h k =
      ((h.strategy.wantsTo cfg now t.properties p k).1,
        { h with strategy := (h.strategy.wantsTo cfg now t.properties p k).2 }) := by
  obtain ⟨strategy, _⟩ := h
  obtain rfl : _ = some t := ht
  cases k <;> rfl

theorem asked_frame {a b : RelayHeater} {t : RelayThing} (ht : a.thing = some t)
    (h : Asked (managed cfg echoes thing now delivered) p a b) :
    b.thing = some t ∧ b.strategy.ring = a.strategy.ring := by
  induction h with
  | nil => exact ⟨ht, rfl⟩
  | query k _ ih =>
    obtain ⟨hb, hring⟩ := ih
    rw [wants_some hb]
    exact ⟨hb, (wantsTo_ring cfg now t.properties p _ k).trans hring⟩

theorem adjust_thing (echoes delivered : Bool) (k : Step) (p : SiteProperties) {h : RelayHeater}
    {t : RelayThing} (ht : h.thing = some t) :
    (h.adjust echoes delivered k p).thing =
      t.setProperties echoes delivered (h.adjust echoes delivered k p).strategy.currentStates := by
  unfold adjust
  rw [ht]
  rfl

theorem turn_keep {last last' : ℤ} {a a' : RelayHeater} {t : RelayThing} (ht : a.thing = some t)
    (h : Turn (managed cfg echoes thing now delivered) p last last' a a' .Keep) :
    a'.strategy.ring = a.strategy.ring ∧
      a'.thing = t.setProperties echoes delivered a.strategy.currentStates := by
  obtain ⟨b, hasked, -, rfl⟩ := h.adjusted
  obtain ⟨hb, hring⟩ := asked_frame ht hasked
  have hkept : (b.adjust echoes delivered .Keep p).strategy.ring = a.strategy.ring :=
    (adjust_ring .Keep p b.strategy).trans hring
  refine ⟨hkept, (adjust_thing echoes delivered .Keep p hb).trans ?_⟩
  rw [currentStates_of_ring hkept]

/- A step is taken in the ring where the device had caught up before. -/
theorem turn_step {last last' : ℤ} {a a' : RelayHeater} {t : RelayThing} {k : Step}
    (ht : a.thing = some t) (hring : a.strategy.InRing n) (hpos : 0 < n)
    (hsettled : t.Settled a.strategy.currentStates) (hk : k ≠ .Keep)
    (h : Turn (managed cfg echoes thing now delivered) p last last' a a' k) :
    a'.strategy.InRing n ∧ a'.thing = t.setProperties echoes delivered a'.strategy.currentStates ∧
      ∃ i : ℕ, ∀ j : ℕ, j ≠ i → a'.strategy.currentStates[j]? = a.strategy.currentStates[j]? := by
  obtain ⟨b, hasked, hyes, rfl⟩ := h.adjusted
  obtain ⟨hb, hsame⟩ := asked_frame ht hasked
  have hb' := hring.congr hsame
  rw [wants_some hb] at hyes ⊢
  obtain ⟨selector, hselector⟩ := wantsTo_reported hk (hb'.size.symm ▸ hpos) hyes
  have hknown : t.properties = ⟨t.properties.digitalInput, some b.strategy.currentStates⟩ := by
    rw [currentStates_of_ring hsame, ← hsettled.known selector hselector, ← hselector]
  have hadjust := hb'.adjust cfg now t.properties.digitalInput p k (hknown ▸ hyes)
  rw [← hknown] at hadjust
  have hthing := adjust_thing echoes delivered k p
    (h := ⟨(b.strategy.wantsTo cfg now t.properties p k).2, b.thing⟩) hb
  refine ⟨hadjust, hthing, ?_⟩
  obtain ⟨i, hi⟩ := adjust_currentStates k p (b.strategy.wantsTo cfg now t.properties p k).2
  refine ⟨i, fun j hj => (hi j hj).trans ?_⟩
  rw [currentStates_of_ring (wantsTo_ring cfg now t.properties p b.strategy k),
    currentStates_of_ring hsame]

end RelayHeater

/-! ### The loop -/

namespace RelayEvent
variable {τ : Type} {n : ℕ}

/- Whether the device catches up in a list of events, computed; `k` requests have got
through in a row before it. -/
def caughtUp (n : ℕ) : ℕ → List (RelayEvent τ) → Bool
  | _, [] => false
  | k, .update _ _ _ _ delivered :: events => caughtUp n (if delivered then k + 1 else 0) events
  | k, .body _ _ :: events => decide (n ≤ k) || caughtUp n k events
  | k, .outside _ :: events => caughtUp n k events

theorem caughtUp_of (front row : List (RelayEvent τ)) {events : List (RelayEvent τ)}
    (hlost : ∀ e ∈ row, ¬ e.Lost)
    (h : caughtUp n (row.filter fun e => e.ts.isSome).length events = true) :
    CaughtUp n (front ++ row ++ events) := by
  induction events generalizing front row with
  | nil => cases h
  | cons e events ih =>
    -- the row goes on, or starts again behind a request that got lost
    have hon : ¬ e.Lost → caughtUp n ((row ++ [e]).filter fun e => e.ts.isSome).length events = true →
        CaughtUp n (front ++ row ++ e :: events) := by
      intro he hrest
      have hrow := ih front (row ++ [e])
        (List.forall_mem_append.mpr ⟨hlost, List.forall_mem_singleton.mpr he⟩) hrest
      simpa using hrow
    cases e with
    | update before after now p delivered =>
      cases delivered with
      | true =>
        refine hon Bool.noConfusion ?_
        rw [List.filter_append, List.length_append]
        exact h
      | false =>
        have hrow := ih (front ++ row ++ [.update before after now p false]) []
          (fun e he => absurd he List.not_mem_nil) h
        simpa using hrow
    | body now inputs =>
      rcases (Bool.or_eq_true _ _).mp h with hk | hrest
      · exact ⟨front, row, now, inputs, events, rfl, of_decide_eq_true hk, hlost⟩
      · refine hon (fun he => he) ?_
        rw [List.filter_append, List.length_append]
        exact hrest
    | outside others =>
      refine hon (fun he => he) ?_
      rw [List.filter_append, List.length_append]
      exact h

/- Whether the events between two positions leave time to catch up, where they have to. -/
def pacedAt (n : ℕ) (events : List (RelayEvent τ)) (i j : ℕ) : Bool :=
  match events[i]?.bind ts, events[j]?.bind ts with
  | some ts, some ts' =>
    decide (ts + stepDownDebounceSeconds ≤ ts' → i < j →
      caughtUp n 0 ((events.drop (i + 1)).take (j - (i + 1))) = true)
  | _, _ => true

theorem paced_of_caughtUp {events : List (RelayEvent τ)}
    (h : ∀ i < events.length, ∀ j < events.length, pacedAt n events i j = true) : Paced n events := by
  intro pre e mid e' post ts ts' hsplit hts hts' hle
  have hfirst : (pre ++ [e]).length = pre.length + 1 := List.length_append
  have hsecond : (pre ++ e :: mid).length = pre.length + 1 + mid.length := by
    rw [List.length_append, List.length_cons]
    omega
  have hi : events[pre.length]? = some e := by rw [hsplit]; simp
  have hj : events[pre.length + 1 + mid.length]? = some e' := by
    rw [hsplit, ← hsecond, List.getElem?_append_right le_rfl, Nat.sub_self]
    rfl
  have hmid : (events.drop (pre.length + 1)).take (pre.length + 1 + mid.length - (pre.length + 1)) =
      mid := by
    have hregroup : events = (pre ++ [e]) ++ (mid ++ e' :: post) := by rw [hsplit]; simp
    rw [Nat.add_sub_cancel_left, hregroup, ← hfirst, List.drop_left, List.take_left]
  have hlt : pre.length + 1 + mid.length < events.length := (List.getElem?_eq_some_iff.mp hj).1
  have hpaced := h pre.length (by omega) (pre.length + 1 + mid.length) hlt
  unfold pacedAt at hpaced
  rw [hi, hj, Option.bind_some, Option.bind_some, hts, hts', hmid] at hpaced
  have hcaught := of_decide_eq_true hpaced hle (by omega)
  exact caughtUp_of [] [] (fun e he => absurd he List.not_mem_nil) hcaught

theorem Paced.front {events : List (RelayEvent τ)} {e : RelayEvent τ} (h : Paced n (events ++ [e])) :
    Paced n events := by
  intro pre e₁ mid e₂ post ts ts' hsplit
  exact h pre e₁ mid e₂ (post ++ [e]) ts ts' (by rw [hsplit]; simp)

end RelayEvent

namespace RelayLoop
open MultiPhaseStrategy RelayThing
variable {τ : Type} {echoes : Bool} {n : ℕ}

/- The device has caught up, or has had the same command since an update not later than
the manager's last step. -/
def Following (echoes : Bool) (n : ℕ) (events : List (RelayEvent τ)) (lastStep : ℤ)
    (states : List Bool) (t : RelayThing) : Prop :=
  t.Settled states ∨ ∃ pre e mid ts t₁, events = pre ++ e :: mid ∧ RelayEvent.ts e = some ts ∧
    ts ≤ lastStep ∧ t₁.Wired n ∧ Runs.exec (follow echoes states) t₁ mid = some t

/- The state `m` after the events, with the device at `t`. -/
structure Inv (echoes : Bool) (n : ℕ) (events : List (RelayEvent τ)) (m : PowerManager (RelayHeater × τ))
    (t : RelayThing) : Prop where
  thing : m.world.1.thing = some t
  ring : m.world.1.strategy.InRing n
  wired : t.Wired n
  apart : ∃ i : ℕ, ∀ j : ℕ, j ≠ i → t.relays[j]? = m.world.1.strategy.currentStates[j]?
  fits : Fits m.lastStep
  following : Following echoes n events m.lastStep m.world.1.strategy.currentStates t

theorem Following.settled {events : List (RelayEvent τ)} {lastStep : ℤ} {states : List Bool}
    {t : RelayThing} (h : Following echoes n events lastStep states t) (hstates : states.length = n)
    {e : RelayEvent τ} {ts : ℤ} (hpaced : RelayEvent.Paced n (events ++ [e])) (hts : e.ts = some ts)
    (hdebounced : lastStep + stepDownDebounceSeconds ≤ ts) : t.Settled states := by
  rcases h with hsettled | ⟨pre, e₁, mid, ts₁, t₁, rfl, hts₁, hle, hwired, hexec⟩
  · exact hsettled
  · have hcaught : RelayEvent.CaughtUp n mid :=
      hpaced pre e₁ mid e [] ts₁ ts (by simp) hts₁ hts (by omega)
    exact exec_follow_caughtUp hstates hwired hcaught hexec

/- An event that leaves the command alone is for the device to follow. -/
theorem Inv.quiet {events : List (RelayEvent τ)} {m m' : PowerManager (RelayHeater × τ)}
    {t t' : RelayThing} (h : Inv echoes n events m t) (e : RelayEvent τ)
    (hring : m'.world.1.strategy.ring = m.world.1.strategy.ring) (hthing : m'.world.1.thing = some t')
    (hfollow : t.follow echoes m.world.1.strategy.currentStates e = some t')
    (hlast : m.lastStep ≤ m'.lastStep) (hfits : Fits m'.lastStep) :
    Inv echoes n (events ++ [e]) m' t' := by
  have hlength := h.ring.length
  obtain ⟨i, hi⟩ := h.apart
  refine ⟨hthing, h.ring.congr hring, follow_wired h.wired hlength hfollow, ⟨i, fun j hj => ?_⟩,
    hfits, ?_⟩
  · rw [currentStates_of_ring hring]
    exact follow_agrees h.wired hlength hfollow (hi j hj)
  · rw [currentStates_of_ring hring]
    rcases h.following with hsettled | ⟨pre, e₁, mid, ts, t₁, rfl, hts, hle, hwired, hexec⟩
    · exact Or.inl (follow_settled h.wired hlength hfollow hsettled)
    · refine Or.inr ⟨pre, e₁, mid ++ [e], ts, t₁, by simp, hts, hle.trans hlast, hwired, ?_⟩
      rw [Runs.exec_append, hexec, Option.bind_some, Runs.exec, hfollow]
      rfl

theorem start_inv (cfg : ConfigRepository) {powerThresholds : List ℤ} (hn : 0 < powerThresholds.length)
    (others : τ) : Inv echoes powerThresholds.length [] (start cfg powerThresholds others)
      ⟨.construct, List.replicate powerThresholds.length false, ⟨none, none⟩⟩ where
  thing := rfl
  ring := ⟨rfl, 0, CyclicRun.holds_empty hn⟩
  wired := ⟨hn, List.length_replicate⟩
  apart := ⟨0, fun _ _ => rfl⟩
  fits := by
    show Fits 0
    decide
  following := Or.inl ⟨rfl, fun selector hselector => by cases hselector⟩

theorem handle_inv (cfg : ConfigRepository) (thing : Thing) (symbols : SymbolRepository τ) (hn : 0 < n)
    {events : List (RelayEvent τ)} {m : PowerManager (RelayHeater × τ)} {t : RelayThing}
    (h : Inv echoes n events m t) (e : RelayEvent τ) (hpaced : RelayEvent.Paced n (events ++ [e]))
    (hfits : ∀ ts ∈ e.ts, Fits ts) :
    ∃ t', Inv echoes n (events ++ [e]) (handle cfg echoes thing symbols m e) t' := by
  cases e with
  | body now inputs =>
    refine ⟨t.onBody inputs, h.quiet (.body now inputs) ?_ ?_ rfl le_rfl h.fits⟩
    · exact onDigitalInput_ring now inputs m.world.1.strategy
    · show m.world.1.thing.map _ = _
      rw [h.thing]
      rfl
  | outside others => exact ⟨t, h.quiet (.outside others) rfl h.thing rfl le_rfl h.fits⟩
  | update before after now p delivered =>
    obtain ⟨k, hturn⟩ := onSiteProperties_turn symbols
      (RelayHeater.managed cfg echoes thing now delivered) before after (hfits p.ts rfl) m h.fits
    by_cases hk : k = .Keep
    · subst hk
      obtain ⟨hring, hthing⟩ := RelayHeater.turn_keep h.thing hturn
      obtain ⟨properties, heq, -⟩ := setProperties_eq h.wired h.ring.length echoes delivered
      rw [heq] at hthing
      exact ⟨_, h.quiet (.update before after now p delivered) hring hthing heq hturn.forward
        hturn.fits⟩
    · obtain ⟨hdebounced, hlast⟩ := hturn.debounced hk
      have hdue : m.lastStep + stepDownDebounceSeconds ≤ p.ts := by
        refine le_trans ?_ hdebounced
        cases k with
        | Keep => exact absurd rfl hk
        | Down => exact le_rfl
        | Up =>
          show m.lastStep + 120 ≤ m.lastStep + 180
          omega
      have hsettled := h.following.settled h.ring.length hpaced rfl hdue
      obtain ⟨hring, hthing, i, hi⟩ := RelayHeater.turn_step h.thing h.ring hn hsettled hk hturn
      obtain ⟨properties, heq, -⟩ := setProperties_eq h.wired hring.length echoes delivered
      rw [heq] at hthing
      refine ⟨_, hthing, hring, follow_wired (e := .update before after now p delivered) h.wired
        hring.length heq, ⟨i, fun j hj => ?_⟩, hturn.fits, Or.inr ?_⟩
      · exact follow_agrees (e := .update before after now p delivered) h.wired hring.length heq
          (by rw [hsettled.relays, hi j hj])
      · exact ⟨events, .update before after now p delivered, [], p.ts, _, rfl, rfl, le_of_eq hlast.symm,
          follow_wired (e := .update before after now p delivered) h.wired hring.length heq, rfl⟩

theorem run_inv (cfg : ConfigRepository) (thing : Thing) (symbols : SymbolRepository τ)
    {powerThresholds : List ℤ} (hn : 0 < powerThresholds.length) (others : τ)
    (events : List (RelayEvent τ)) (hpaced : RelayEvent.Paced powerThresholds.length events)
    (hfits : ∀ e ∈ events, ∀ ts ∈ e.ts, Fits ts) :
    ∃ t, Inv echoes powerThresholds.length events
      (events.foldl (handle cfg echoes thing symbols) (start cfg powerThresholds others)) t := by
  induction events using List.reverseRecOn with
  | nil => exact ⟨_, start_inv cfg hn others⟩
  | append_singleton events e ih =>
    obtain ⟨hfront, hlast⟩ := List.forall_mem_append.mp hfits
    obtain ⟨t, ht⟩ := ih hpaced.front hfront
    rw [List.foldl_append]
    exact handle_inv cfg thing symbols hn ht e hpaced (hlast e (List.mem_singleton_self e))

/-- Whatever the power readings and the inputs, whatever else the manager steps, and
whichever requests get lost: where every debounce ends within 32 bits and, between two
updates that are far enough apart for two steps, the device has had time to catch up and to
report, no request is out of range, the phases commanded on are always one run of the ring
between the two pointers, and all relays but one at most are as commanded. -/
theorem relays_follow (cfg : ConfigRepository) (echoes : Bool) (thing : Thing)
    (symbols : SymbolRepository τ) (powerThresholds : List ℤ) (hn : 1 ≤ powerThresholds.length)
    (others : τ) (events : List (RelayEvent τ))
    (hpaced : RelayEvent.Paced powerThresholds.length events)
    (hfits : ∀ e ∈ events, ∀ ts ∈ e.ts, Fits ts) :
    let h := (events.foldl (handle cfg echoes thing symbols)
      (start cfg powerThresholds others)).world.1
    ∃ t, h.thing = some t ∧ t.relays.length = powerThresholds.length ∧
      (∃ k ≤ powerThresholds.length,
        h.strategy.nextStepUpPhase = (h.strategy.nextStepDownPhase + k) % powerThresholds.length ∧
        ∀ i, h.strategy.currentStates[i]? = some true ↔
          i ∈ CyclicRun.positions powerThresholds.length h.strategy.nextStepDownPhase k) ∧
      ∃ i : ℕ, ∀ j : ℕ, j ≠ i → t.relays[j]? = h.strategy.currentStates[j]? := by
  intro h
  obtain ⟨t, ht⟩ := run_inv cfg thing symbols hn others events hpaced hfits
  obtain ⟨k, hk⟩ := ht.ring.holds
  exact ⟨t, ht.thing, ht.wired.relays, ⟨k, hk.count_le, hk.next_eq, hk.flag_iff_mem⟩, ht.apart⟩

/- Three relays and an update every 15 seconds, whose fifth request gets lost. There is
power to spare at first, so that two relays are switched on; with the last updates there
is none, and the first of the two is switched off again. -/
def onAndOff : List (RelayEvent Unit) :=
  .body 0 [true, true, true] :: (List.range 22).flatMap fun i =>
    let gridPower := if i < 20 then -2751 else 100
    [.update [] [] i ⟨1800 + 15 * i, gridPower, gridPower, gridPower, 3000⟩ (decide (i ≠ 4)),
      .body i [true, true, true]]

theorem onAndOff_paced : RelayEvent.Paced 3 onAndOff :=
  RelayEvent.paced_of_caughtUp (by decide +kernel)

theorem relays_follow_onAndOff :
    let cfg : ConfigRepository := ⟨fun _ _ => none⟩
    let h := (onAndOff.foldl (handle cfg false ⟨[], .Relay, 0⟩ ⟨fun _ _ w => w⟩)
      (start cfg [1000, 1000, 1000] ())).world.1
    h.strategy.currentStates = [false, true, false] ∧
    ∃ t, h.thing = some t ∧ t.relays.length = 3 ∧
      (∃ k ≤ 3, h.strategy.nextStepUpPhase = (h.strategy.nextStepDownPhase + k) % 3 ∧
        ∀ i, h.strategy.currentStates[i]? = some true ↔
          i ∈ CyclicRun.positions 3 h.strategy.nextStepDownPhase k) ∧
      ∃ i : ℕ, ∀ j : ℕ, j ≠ i → t.relays[j]? = h.strategy.currentStates[j]? := by
  intro cfg h
  exact ⟨by decide +kernel, relays_follow cfg false ⟨[], .Relay, 0⟩ ⟨fun _ _ w => w⟩
    [1000, 1000, 1000] (by decide) () onAndOff onAndOff_paced (by decide +kernel)⟩

end RelayLoop
end Iotic.Strategies
