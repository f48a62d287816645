import Iotic.Config.Persistence
import Iotic.Lib.Runs
import Iotic.Webserver.MessageHandlers

/-!
# The timer that reads the things (ThingsManager.cpp)

Every 100 ms a timer looks whether the time, to the nearest 100 ms, is a multiple of the
thing interval. The interval comes from the configuration file and from clients, and is
written back to the file.
-/

namespace Iotic.Things
open Iotic.Config ByteString

/- `int` arithmetic: undefined where it overflows. -/
def modulus (thingInterval : ℤ) : Option ℤ :=
  if -2 ^ 31 ≤ thingInterval * 1000 ∧ thingInterval * 1000 < 2 ^ 31 then some (thingInterval * 1000)
  else none

/- The double is exact for every time before the year 285000. -/
def roundedMs (now_ms : ℤ) : ℤ := roundAway (now_ms / 100) * 100

/-- Whether `fetchProperties` is called. A remainder by zero is undefined. -/
def onTimer (thingInterval now_ms : ℤ) : Option Bool :=
  (modulus thingInterval).bind fun ms =>
    if ms = 0 then none else some ((roundedMs now_ms).tmod ms = 0)

/- The thing intervals whose modulus is defined and not zero. -/
def Usable (thingInterval : ℤ) : Prop :=
  thingInterval ≠ 0 ∧ -2147483 ≤ thingInterval ∧ thingInterval ≤ 2147483

instance (thingInterval : ℤ) : Decidable (Usable thingInterval) :=
  inferInstanceAs (Decidable (_ ∧ _ ∧ _))

theorem modulus_eq {thingInterval ms : ℤ} (h : modulus thingInterval = some ms) :
    ms = thingInterval * 1000 := by
  unfold modulus at h
  split_ifs at h
  exact (Option.some.inj h).symm

theorem modulus_usable_iff (thingInterval : ℤ) :
    (∃ ms, modulus thingInterval = some ms ∧ ms ≠ 0) ↔ Usable thingInterval := by
  simp only [modulus, Usable, Option.ite_none_right_eq_some, Option.some.injEq]
  refine ⟨?_, ?_⟩
  · intro ⟨ms, ⟨⟨hlo, hhi⟩, hms⟩, hne⟩
    omega
  · intro ⟨hne, hlo, hhi⟩
    exact ⟨thingInterval * 1000, ⟨⟨by omega, by omega⟩, rfl⟩, by omega⟩

theorem onTimer_eq_some_iff {thingInterval now_ms : ℤ} {fetch : Bool} :
    onTimer thingInterval now_ms = some fetch ↔
      Usable thingInterval ∧ fetch = decide (thingInterval * 1000 ∣ roundedMs now_ms) := by
  rw [onTimer, Option.bind_eq_some_iff, ← modulus_usable_iff]
  refine ⟨?_, ?_⟩
  · intro ⟨ms, hms, hfetch⟩
    split_ifs at hfetch with hzero
    refine ⟨⟨ms, hms, hzero⟩, ?_⟩
    rw [← modulus_eq hms, ← Option.some.inj hfetch, decide_eq_decide, Int.dvd_iff_tmod_eq_zero]
  · intro ⟨⟨ms, hms, hzero⟩, hfetch⟩
    refine ⟨ms, hms, ?_⟩
    rw [if_neg hzero, hfetch, ← modulus_eq hms, Option.some.injEq, decide_eq_decide,
      Int.dvd_iff_tmod_eq_zero]

/-! ### Where the thing interval comes from -/

/- The only text of a client that changes the thing interval. -/
theorem onTextMessage_thingInterval {env : Webserver.Environment} {message : Bytes} {value : ℤ}
    (hknown : env.isProperty (Webserver.enumToString "thing_interval") = true)
    (hparse : env.parse message = some (.object [(Webserver.enumToString "site",
      .object [(Webserver.enumToString "thing_interval", .integer value)])])) :
    Webserver.onTextMessage env message = .ok (.thingInterval (value.bmod (2 ^ 32))) := by
  rw [Webserver.onTextMessage, hparse]
  simp only [Webserver.Environment.parseError, ok_bind, hknown, if_true]
  rfl

section Daemon
variable {File : Type}

/- A client's text `{"site":{"thing_interval": value}}`; properties of a thing that are
persisted; the timer; and a restart, which parses the file that is there. -/
inductive Event
  | message (value : ℤ)
  | properties (thing : Thing) (props : ThingPropertyMap)
  | timer (now_ms : ℤ)
  | restart

def step (toml : TomlLibrary File) (c : Impl File) : Event → Option (Impl File)
  | .message value => some (c.setThingInterval toml (value.bmod (2 ^ 32)))
  | .properties thing props => some (c.persistProperties toml thing props)
  | .timer now_ms => (onTimer c.thingInterval now_ms).map fun _ => c
  | .restart => Impl.parseConfigFile toml c.configFile

/- What a file says of the thing interval, as an `int`. -/
def fileInterval (toml : TomlLibrary File) (file : Option File) : ℤ :=
  let configTable := (file.bind toml.parse).getD []
  ((valueAt configTable "site".toList .thing_interval).bind TomlValue.int?).getD 10

/- Every tick finds a usable interval in force: the one of the last message, or before
any message the one given. -/
def TicksUsable (thingInterval : ℤ) : List Event → Prop
  | [] => True
  | .message value :: events => TicksUsable (value.bmod (2 ^ 32)) events
  | .timer _ :: events => Usable thingInterval ∧ TicksUsable thingInterval events
  | .properties _ _ :: events => TicksUsable thingInterval events
  | .restart :: events => TicksUsable thingInterval events

/- At every tick of the run the modulus does not overflow and is not zero. -/
def ModulusDefined (toml : TomlLibrary File) (c : Impl File) (events : List Event) : Prop :=
  ∀ pre e post, events = pre ++ e :: post → ∀ now_ms c', e = .timer now_ms →
    Runs.exec (step toml) c pre = some c' → ∃ ms, modulus c'.thingInterval = some ms ∧ ms ≠ 0

/- The interval in force is the one that a restart finds in the file. -/
structure InForce (toml : TomlLibrary File) (thingInterval : ℤ) (c : Impl File) : Prop where
  current : c.thingInterval = thingInterval
  persisted : c.repository.configTable "site".toList .thing_interval = some (.integer thingInterval)
  written : c.Written toml
  int : thingInterval.bmod (2 ^ 32) = thingInterval

variable {toml : TomlLibrary File} {thingInterval : ℤ} {c : Impl File}

theorem setThingInterval_inForce {seconds : ℤ} (h : seconds.bmod (2 ^ 32) = seconds) :
    InForce toml seconds (c.setThingInterval toml seconds) where
  current := rfl
  persisted := by
    rw [Impl.setThingInterval, Impl.persistProperty_configTable, if_pos ⟨rfl, rfl⟩]
  written := rfl
  int := h

theorem persistProperty_inForce (h : InForce toml thingInterval c) (table : Name) {key : Key}
    (hkey : key ≠ .thing_interval) (value : TomlValue) :
    InForce toml thingInterval (c.persistProperty toml table key value) where
  current := h.current
  persisted := by
    rw [Impl.persistProperty_configTable, if_neg fun he => hkey he.2.symm]
    exact h.persisted
  written := rfl
  int := h.int

theorem persistProperties_inForce (h : InForce toml thingInterval c) (thing : Thing)
    (props : ThingPropertyMap) :
    InForce toml thingInterval (c.persistProperties toml thing props) :=
  Impl.persistProperties_keeps (P := InForce toml thingInterval)
    (fun _ _ value hkey hc => persistProperty_inForce hc thing.id hkey value) h props

theorem fileInterval_int (toml : TomlLibrary File) (file : Option File) :
    (fileInterval toml file).bmod (2 ^ 32) = fileInterval toml file := by
  rw [fileInterval]
  generalize valueAt ((file.bind toml.parse).getD []) "site".toList .thing_interval = value
  cases value with
  | none => rfl
  | some value =>
    cases value with
    | integer v => exact Int.bmod_bmod
    | _ => rfl

theorem parseConfigFile_inForce {file : Option File}
    (h : Impl.parseConfigFile toml file = some c) : InForce toml (fileInterval toml file) c := by
  obtain ⟨table, htable, rfl⟩ := Option.map_eq_some_iff.mp h
  have hfile : (file.bind toml.parse).getD [] = table := by
    cases file with
    | none => exact Option.some.inj htable
    | some file => simp_all
  have hvalue : (Impl.repository ⟨table, file, 10⟩).siteValueOr TomlValue.int? .thing_interval 10 =
      fileInterval toml file := by
    rw [fileInterval, hfile]
    rfl
  dsimp only
  rw [hvalue]
  exact setThingInterval_inForce (fileInterval_int toml file)

theorem restart_inForce (htoml : toml.Faithful) (h : InForce toml thingInterval c) :
    ∃ c', Impl.parseConfigFile toml c.configFile = some c' ∧ InForce toml thingInterval c' := by
  obtain ⟨c', hc', -⟩ := Impl.parseConfigFile_written htoml h.written
  obtain ⟨parsed, hparsed, hsame⟩ := htoml c.configTable
  have hpersisted : valueAt c.configTable "site".toList .thing_interval =
      some (.integer thingInterval) := h.persisted
  have hfile : fileInterval toml c.configFile = thingInterval := by
    rw [fileInterval, h.written, Option.bind_some, hparsed, Option.getD_some, hsame, hpersisted,
      Option.bind_some, TomlValue.int?, Option.getD_some, h.int]
  exact ⟨c', hc', hfile ▸ parseConfigFile_inForce hc'⟩

/- A step that is taken leaves the rest of the run to what follows. -/
theorem modulusDefined_cons {e : Event} {events : List Event} {c' : Impl File}
    (h : step toml c e = some c') : ModulusDefined toml c (e :: events) ↔
      (∀ now_ms, e = .timer now_ms → ∃ ms, modulus c.thingInterval = some ms ∧ ms ≠ 0) ∧
        ModulusDefined toml c' events := by
  rw [ModulusDefined, Runs.forall_split_cons]
  simp only [Runs.exec_cons h]
  refine and_congr_left fun _ => ?_
  refine ⟨fun hfirst now_ms he => hfirst now_ms c he rfl, ?_⟩
  intro hfirst now_ms c'' he hc
  obtain rfl := Option.some.inj hc
  exact hfirst now_ms he

theorem modulusDefined_iff_ticksUsable (htoml : toml.Faithful) (h : InForce toml thingInterval c)
    (events : List Event) : ModulusDefined toml c events ↔ TicksUsable thingInterval events := by
  induction events generalizing thingInterval c with
  | nil => simp [ModulusDefined, TicksUsable]
  | cons e events ih =>
    cases e with
    | message value =>
      have hnext : InForce toml (value.bmod (2 ^ 32))
          (c.setThingInterval toml (value.bmod (2 ^ 32))) :=
        setThingInterval_inForce Int.bmod_bmod
      rw [modulusDefined_cons (e := .message value) rfl, ih hnext]
      simp [TicksUsable]
    | properties thing props =>
      rw [modulusDefined_cons (e := .properties thing props) rfl,
        ih (persistProperties_inForce h thing props)]
      simp [TicksUsable]
    | timer now_ms =>
      by_cases husable : Usable thingInterval
      · have hstep : step toml c (.timer now_ms) = some c := by
          rw [step, h.current, onTimer_eq_some_iff.mpr ⟨husable, rfl⟩, Option.map_some]
        rw [modulusDefined_cons hstep, ih h, h.current, modulus_usable_iff]
        simp [TicksUsable, husable]
      · refine iff_of_false ?_ fun hticks => husable hticks.1
        intro hdefined
        have hfirst := hdefined [] (.timer now_ms) events rfl now_ms c rfl rfl
        rw [modulus_usable_iff, h.current] at hfirst
        exact husable hfirst
    | restart =>
      obtain ⟨c', hc', hnext⟩ := restart_inForce htoml h
      rw [modulusDefined_cons (e := .restart) hc', ih hnext]
      simp [TicksUsable]

/-- From any configuration file on, and across restarts, no tick finds a modulus that
overflows or is zero exactly when every tick finds a usable interval in force. -/
theorem modulusDefined_iff (htoml : toml.Faithful) {file : Option File}
    (h : Impl.parseConfigFile toml file = some c) (events : List Event) :
    ModulusDefined toml c events ↔ TicksUsable (fileInterval toml file) events :=
  modulusDefined_iff_ticksUsable htoml (parseConfigFile_inForce h) events

end Daemon

def plainFile : TomlTable := [("site".toList, [(.thing_interval, .integer 2)])]

theorem modulusDefined_restarted :
    ∃ c, Impl.parseConfigFile inMemory (some plainFile) = some c ∧
      ModulusDefined inMemory c [.timer 1000, .message 5, .timer 1500, .restart, .timer 5000] := by
  have hfile : Impl.parseConfigFile inMemory (some plainFile) =
      some (Impl.setThingInterval inMemory ⟨plainFile, some plainFile, 10⟩ 2) := rfl
  exact ⟨_, hfile, (modulusDefined_iff inMemory_faithful hfile _).mpr
    ⟨by decide, by decide, by decide, trivial⟩⟩

/-- Nothing keeps a client from setting a zero or an interval that overflows, and the
latter is found again after a restart. -/
theorem not_modulusDefined :
    ∃ c, Impl.parseConfigFile inMemory none = some c ∧
      ¬ ModulusDefined inMemory c [.message 0, .timer 0] ∧
      ¬ ModulusDefined inMemory c [.message 3000000, .restart, .timer 0] := by
  refine ⟨_, rfl, ?_, ?_⟩
  · intro h
    have htick := h [.message 0] (.timer 0) [] rfl 0 _ rfl rfl
    exact absurd ((modulus_usable_iff 0).mp htick) (by decide)
  · intro h
    have htick := h [.message 3000000, .restart] (.timer 0) [] rfl 0 _ rfl rfl
    exact absurd ((modulus_usable_iff 3000000).mp htick) (by decide)

/-! ### Which multiples of the interval are met -/

/- The first and the last time that is rounded to a multiple of 100 ms. -/
def slotStart (m : ℤ) : ℤ := if 0 < m then m - 50 else m - 49

def slotEnd (m : ℤ) : ℤ := if m < 0 then m + 50 else m + 49

theorem slotStart_le_slotEnd (m : ℤ) : slotStart m ≤ slotEnd m := by
  unfold slotStart slotEnd
  split_ifs <;> omega

theorem slotEnd_lt (m : ℤ) : slotEnd m < slotStart m + 100 := by
  unfold slotStart slotEnd
  split_ifs <;> omega

theorem roundedMs_eq_iff {m : ℤ} (hm : 100 ∣ m) (now_ms : ℤ) :
    roundedMs now_ms = m ↔ slotStart m ≤ now_ms ∧ now_ms ≤ slotEnd m := by
  obtain ⟨k, rfl⟩ := hm
  have hround : roundedMs now_ms = 100 * k ↔ roundAway (now_ms / 100) = k := by
    rw [roundedMs]
    omega
  have hdist : (now_ms / 100 : ℚ) = k + ((now_ms - 100 * k : ℤ) : ℚ) / 100 := by
    push_cast
    ring
  rw [hround, roundAway_eq_iff, hdist]
  generalize hd : now_ms - 100 * k = d
  have hinside : |(k : ℚ) + d / 100 - k| < 1 / 2 ↔ -50 < d ∧ d < 50 := by
    rw [add_sub_cancel_left, abs_lt, ← @Int.cast_lt ℚ, ← @Int.cast_lt ℚ]
    push_cast
    refine ⟨fun ⟨hlo, hhi⟩ => ⟨by linarith, by linarith⟩, fun ⟨hlo, hhi⟩ => ⟨by linarith, by linarith⟩⟩
  have hlower : (k : ℚ) + d / 100 = k - 1 / 2 ↔ d = -50 := by
    rw [← @Int.cast_inj ℚ]
    push_cast
    refine ⟨fun h => by linarith, fun h => by linarith⟩
  have hupper : (k : ℚ) + d / 100 = k + 1 / 2 ↔ d = 50 := by
    rw [← @Int.cast_inj ℚ]
    push_cast
    refine ⟨fun h => by linarith, fun h => by linarith⟩
  rw [hinside, hlower, hupper]
  unfold slotStart slotEnd
  split_ifs <;> omega

/- The calls made for a multiple of the interval: at ticks that are rounded to it. -/
def fetches (thingInterval m : ℤ) (ticks : List ℤ) : ℕ :=
  ticks.countP fun now_ms => onTimer thingInterval now_ms = some true ∧ roundedMs now_ms = m

/- The times of a timer of 100 ms that is late by less than as much. -/
def Ticks (ticks : List ℤ) : Prop := ticks.IsChain fun s t => s + 100 ≤ t ∧ t < s + 200

instance (ticks : List ℤ) : Decidable (Ticks ticks) :=
  inferInstanceAs (Decidable (ticks.IsChain fun s t => s + 100 ≤ t ∧ t < s + 200))

theorem Ticks.pairwise {ticks : List ℤ} (h : Ticks ticks) :
    ticks.Pairwise fun s t => s + 100 ≤ t := by
  have htrans : IsTrans ℤ fun s t => s + 100 ≤ t := ⟨fun a b c hab hbc => by omega⟩
  exact List.isChain_iff_pairwise.mp (h.imp fun s t hst => hst.1)

/- A tick fetches for a multiple when it lies in the slot of the multiple. -/
theorem onTimer_roundedMs_iff {thingInterval m : ℤ} (hinterval : 1 ≤ thingInterval)
    (hm : thingInterval * 1000 ∣ m) (now_ms : ℤ) :
    (onTimer thingInterval now_ms = some true ∧ roundedMs now_ms = m) ↔
      thingInterval ≤ 2147483 ∧ slotStart m ≤ now_ms ∧ now_ms ≤ slotEnd m := by
  have hhundred : 100 ∣ m := (Dvd.intro_left (thingInterval * 10) (by ring)).trans hm
  rw [onTimer_eq_some_iff, ← roundedMs_eq_iff hhundred]
  refine ⟨fun ⟨⟨husable, _⟩, hround⟩ => ⟨husable.2.2, hround⟩, ?_⟩
  intro ⟨hmax, hround⟩
  refine ⟨⟨⟨by omega, by omega, hmax⟩, ?_⟩, hround⟩
  rw [hround, decide_eq_true hm]

/-- A multiple of the interval is met exactly once unless two successive ticks leap over
the 100 ms that are rounded to it, where the modulus does not overflow. -/
theorem fetches_eq_one_iff {thingInterval m first last : ℤ} {ticks : List ℤ}
    (hinterval : 1 ≤ thingInterval) (hticks : Ticks ticks) (hfirst : ticks.head? = some first)
    (hlast : ticks.getLast? = some last) (hm : thingInterval * 1000 ∣ m) (hlo : first + 200 ≤ m)
    (hhi : m + 200 ≤ last) :
    fetches thingInterval m ticks = 1 ↔ thingInterval ≤ 2147483 ∧
      ticks.IsChain fun s t => ¬ (s < slotStart m ∧ slotEnd m < t) := by
  have hfetch := onTimer_roundedMs_iff hinterval hm
  have hone : ticks.Pairwise fun s t =>
      ¬ (decide (onTimer thingInterval s = some true ∧ roundedMs s = m) ∧
        decide (onTimer thingInterval t = some true ∧ roundedMs t = m)) := by
    refine hticks.pairwise.imp fun {s t} hst => ?_
    simp only [hfetch, decide_eq_true_eq]
    have hend := slotEnd_lt m
    omega
  have hstart : ∀ s ∈ ticks.head?, s < slotStart m := by
    intro s hs
    obtain rfl := Option.some.inj (hfirst.symm.trans hs)
    unfold slotStart
    split_ifs <;> omega
  have hend : slotEnd m < last := by
    unfold slotEnd
    split_ifs <;> omega
  rw [fetches, Sequences.countP_eq_one_iff hone, ← Sequences.exists_mem_window_iff
    (slotStart_le_slotEnd m) (hticks.pairwise.imp fun {s t} hst => show s < t by omega) hstart
    ⟨last, List.mem_of_getLast? hlast, hend⟩]
  simp only [hfetch, decide_eq_true_eq]
  refine ⟨?_, ?_⟩
  · intro ⟨now_ms, hmem, hmax, hslot⟩
    exact ⟨hmax, now_ms, hmem, hslot⟩
  · intro ⟨hmax, now_ms, hmem, hslot⟩
    exact ⟨now_ms, hmem, hmax, hslot⟩

theorem fetches_punctual : fetches 1 1000 [700, 800, 900, 1000, 1100, 1200] = 1 :=
  (fetches_eq_one_iff (by decide) (by decide) rfl rfl (by decide) (by decide) (by decide)).mpr
    ⟨by decide, by decide⟩

/-- A timer that is late by one millisecond each time misses a second. -/
theorem not_fetches_eq_one :
    fetches 1 1000 [747, 848, 949, 1050, 1151, 1252] = 0 ∧
    ¬ ∀ thingInterval m first last ticks, 1 ≤ thingInterval → Ticks ticks →
      ticks.head? = some first → ticks.getLast? = some last → thingInterval * 1000 ∣ m →
      first + 200 ≤ m → m + 200 ≤ last → fetches thingInterval m ticks = 1 := by
  have hnone : fetches 1 1000 [747, 848, 949, 1050, 1151, 1252] = 0 := by decide +kernel
  refine ⟨hnone, fun h => ?_⟩
  have hone := h 1 1000 747 1252 [747, 848, 949, 1050, 1151, 1252] (by decide) (by decide) rfl rfl
    (by decide) (by decide) (by decide)
  rw [hnone] at hone
  exact absurd hone (by decide)

end Iotic.Things
