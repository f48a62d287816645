import Iotic.Lib.CyclicRun
import Iotic.Webserver.MessageHandlers
import Mathlib.Data.List.Forall2

/-!
# A Shelly relay (ShellyGen2Thing.cpp)

A command has a state for every relay, of which only one is set at a time: the device
takes one request. The next command sets the next relay.
-/

namespace Iotic.Things
open CyclicRun

structure ShellyGen2Thing where
  phaseToSet : ℕ
  deriving DecidableEq, Repr

/- The request "/rpc/Switch.Set?id=<id>&on=<on>". -/
structure SwitchSet where
  id : ℕ
  on : Bool
  deriving DecidableEq, Repr

namespace ShellyGen2Thing

def construct : ShellyGen2Thing := ⟨0⟩

/- The handler of `multistateSelector`. An index past the end and a modulus of zero are
undefined: `none`. -/
def onSetProperties (thing : ShellyGen2Thing) (states : List Bool) :
    Option (SwitchSet × ShellyGen2Thing) := do
  let value ← states[thing.phaseToSet]?
  if states.length = 0 then none
  else some (⟨thing.phaseToSet, value⟩, ⟨(thing.phaseToSet + 1) % states.length⟩)

/- The requests for the commands given so far. -/
def run (thing : ShellyGen2Thing) : List (List Bool) → Option (List SwitchSet × ShellyGen2Thing)
  | [] => some ([], thing)
  | states :: commands => do
    let (request, thing) ← thing.onSetProperties states
    let (requests, thing) ← run thing commands
    some (request :: requests, thing)

/- A client can send a command of any length. -/
theorem fromJsonValue_booleans (states : List Bool) :
    Webserver.fromJsonValue (.array (states.map .boolean)) = .ok (.bools states) := by
  have hfirst : ¬ (((states.map Webserver.JsonValue.boolean).head?.map
      Webserver.JsonValue.isNumberInteger).getD false) = true := by
    cases states <;> simp [Webserver.JsonValue.isNumberInteger]
  have hbools : (states.map Webserver.JsonValue.boolean).mapM Webserver.JsonValue.getBool =
      .ok states := by
    induction states with
    | nil => rfl
    | cons on states ih =>
      have hrest : ¬ (((states.map Webserver.JsonValue.boolean).head?.map
          Webserver.JsonValue.isNumberInteger).getD false) = true := by
        cases states <;> simp [Webserver.JsonValue.isNumberInteger]
      rw [List.map_cons, List.mapM_cons, ih hrest]
      rfl
  rw [Webserver.fromJsonValue, if_neg fun h => hfirst h.2, hbools]
  rfl

/-! ### What the requests have to do -/

/- Each command leads to one request, with the command's state for the relay; and of `n`
commands in a row with `n` states each, one is for each relay. -/
structure Covers (commands : List (List Bool)) (requests : List SwitchSet) : Prop where
  follows : List.Forall₂ (fun states request => states[request.id]? = some request.on)
    commands requests
  once : ∀ pre block post n, commands = pre ++ block ++ post → 1 ≤ n → block.length = n →
    (∀ states ∈ block, states.length = n) →
      ∀ id < n, (((requests.drop pre.length).take n).map SwitchSet.id).count id = 1

/- Commands of which `i` have come before in this round: each has a state for its own
relay, and a round ends with a command that has no more. -/
inductive Rounds : ℕ → List (List Bool) → Prop
  | nil (i : ℕ) : Rounds i []
  | next {i : ℕ} {states : List Bool} {commands : List (List Bool)} :
    i + 1 < states.length → Rounds (i + 1) commands → Rounds i (states :: commands)
  | last {i : ℕ} {states : List Bool} {commands : List (List Bool)} :
    states.length = i + 1 → Rounds 0 commands → Rounds i (states :: commands)

/-! ### What a command does -/

variable {thing thing' : ShellyGen2Thing} {states : List Bool} {commands : List (List Bool)}
  {requests : List SwitchSet}

theorem onSetProperties_eq_some_iff {request : SwitchSet} :
    thing.onSetProperties states = some (request, thing') ↔
      states[thing.phaseToSet]? = some request.on ∧ request.id = thing.phaseToSet ∧
        thing'.phaseToSet = (thing.phaseToSet + 1) % states.length := by
  unfold onSetProperties
  simp only [Option.bind_eq_bind, Option.bind_eq_some_iff]
  refine ⟨?_, ?_⟩
  · intro ⟨value, hvalue, h⟩
    split_ifs at h
    obtain ⟨rfl, rfl⟩ := Prod.mk.inj (Option.some.inj h)
    exact ⟨hvalue, rfl, rfl⟩
  · intro ⟨hvalue, hid, hnext⟩
    have hlt := (List.getElem?_eq_some_iff.mp hvalue).1
    refine ⟨request.on, hvalue, ?_⟩
    rw [if_neg (by omega), ← hnext, ← hid]

theorem run_cons_iff : thing.run (states :: commands) = some (requests, thing') ↔
    ∃ request next rest, thing.onSetProperties states = some (request, next) ∧
      next.run commands = some (rest, thing') ∧ requests = request :: rest := by
  rw [run]
  simp only [Option.bind_eq_bind, Option.bind_eq_some_iff, Prod.exists, Option.some.injEq,
    Prod.mk.injEq]
  refine ⟨?_, ?_⟩
  · intro ⟨request, next, hset, rest, last, hrun, hrequests, hlast⟩
    exact ⟨request, next, rest, hset, hlast ▸ hrun, hrequests.symm⟩
  · intro ⟨request, next, rest, hset, hrun, hrequests⟩
    exact ⟨request, next, hset, rest, thing', hrun, hrequests.symm, rfl⟩

/- A run is cut where its commands are. -/
theorem run_append {commands' : List (List Bool)}
    (h : thing.run (commands ++ commands') = some (requests, thing')) :
    ∃ first next rest, thing.run commands = some (first, next) ∧
      next.run commands' = some (rest, thing') ∧ requests = first ++ rest := by
  induction commands generalizing thing requests with
  | nil => exact ⟨[], thing, requests, rfl, h, rfl⟩
  | cons states commands ih =>
    obtain ⟨request, next, rest, hset, hrun, rfl⟩ := run_cons_iff.mp h
    obtain ⟨first, last, rest', hfirst, hrest, rfl⟩ := ih hrun
    exact ⟨request :: first, last, rest', run_cons_iff.mpr ⟨request, next, first, hset, hfirst, rfl⟩,
      hrest, rfl⟩

theorem run_follows (h : thing.run commands = some (requests, thing')) :
    List.Forall₂ (fun states request => states[request.id]? = some request.on) commands requests := by
  induction commands generalizing thing requests with
  | nil =>
    obtain ⟨rfl, -⟩ := Prod.mk.inj (Option.some.inj h)
    exact .nil
  | cons states commands ih =>
    obtain ⟨request, next, rest, hset, hrun, rfl⟩ := run_cons_iff.mp h
    obtain ⟨hvalue, hid, -⟩ := onSetProperties_eq_some_iff.mp hset
    exact .cons (hid ▸ hvalue) (ih hrun)

/- Commands of one length set one relay after the other. -/
theorem run_ids {n : ℕ} (hlength : ∀ states ∈ commands, states.length = n)
    (h : thing.run commands = some (requests, thing')) :
    requests.map SwitchSet.id = positions n thing.phaseToSet commands.length := by
  induction commands generalizing thing requests with
  | nil =>
    obtain ⟨rfl, -⟩ := Prod.mk.inj (Option.some.inj h)
    rfl
  | cons states commands ih =>
    obtain ⟨request, next, rest, hset, hrun, rfl⟩ := run_cons_iff.mp h
    obtain ⟨hvalue, hid, hnext⟩ := onSetProperties_eq_some_iff.mp hset
    obtain ⟨hn, hlengths⟩ := List.forall_mem_cons.mp hlength
    have hlt : thing.phaseToSet < n := hn ▸ (List.getElem?_eq_some_iff.mp hvalue).1
    rw [List.map_cons, ih hlengths hrun, hid, hnext, hn, List.length_cons,
      positions_cons n _ commands.length hlt]

theorem run_covers (h : thing.run commands = some (requests, thing')) :
    Covers commands requests where
  follows := run_follows h
  once := by
    intro pre block post n hcommands hpos hblock hlength id hid
    rw [hcommands] at h
    obtain ⟨front, last, rest, hfront, -, rfl⟩ := run_append h
    obtain ⟨first, next, middle, hfirst, hmiddle, rfl⟩ := run_append hfront
    have hdrop : ((first ++ middle ++ rest).drop pre.length).take n = middle := by
      rw [(run_follows hfirst).length_eq, List.append_assoc, List.drop_left, ← hblock,
        (run_follows hmiddle).length_eq, List.take_left]
    rw [hdrop, run_ids hlength hmiddle, hblock]
    -- the block is not empty, so that its first command has a state for the relay that is next
    cases block with
    | nil => simp at hblock; omega
    | cons states block =>
      obtain ⟨request, _, _, hset, -, -⟩ := run_cons_iff.mp hmiddle
      have hvalue := (onSetProperties_eq_some_iff.mp hset).1
      have hlt := (List.getElem?_eq_some_iff.mp hvalue).1
      rw [hlength states List.mem_cons_self] at hlt
      exact count_positions_full hlt hid

/-! ### Which commands are safe -/

theorem run_isSome_iff (i : ℕ) : (∃ requests thing, run ⟨i⟩ commands = some (requests, thing)) ↔
    Rounds i commands := by
  induction commands generalizing i with
  | nil => exact iff_of_true ⟨[], ⟨i⟩, rfl⟩ (.nil i)
  | cons states commands ih =>
    refine ⟨?_, ?_⟩
    · intro ⟨requests, thing, h⟩
      obtain ⟨request, next, rest, hset, hrun, -⟩ := run_cons_iff.mp h
      obtain ⟨hvalue, -, hnext⟩ := onSetProperties_eq_some_iff.mp hset
      have hlt : i < states.length := (List.getElem?_eq_some_iff.mp hvalue).1
      have hrounds := (ih next.phaseToSet).mp ⟨rest, thing, hrun⟩
      rw [hnext] at hrounds
      dsimp only at hrounds
      rcases Nat.lt_or_eq_of_le (Nat.succ_le_of_lt hlt) with hmore | hlast
      · rw [Nat.mod_eq_of_lt hmore] at hrounds
        exact .next hmore hrounds
      · rw [← hlast, Nat.mod_self] at hrounds
        exact .last hlast.symm hrounds
    · intro h
      have hset : ∀ next, i < states.length → next = (i + 1) % states.length → Rounds next commands →
          ∃ requests thing, run ⟨i⟩ (states :: commands) = some (requests, thing) := by
        intro next hlt hnext hrounds
        obtain ⟨rest, thing, hrun⟩ := (ih next).mpr hrounds
        refine ⟨_, thing, run_cons_iff.mpr ⟨⟨i, states[i]⟩, ⟨next⟩, rest, ?_, hrun, rfl⟩⟩
        exact onSetProperties_eq_some_iff.mpr ⟨List.getElem?_eq_getElem hlt, rfl, hnext⟩
      cases h with
      | next hmore hrounds =>
        exact hset (i + 1) (by omega) (Nat.mod_eq_of_lt hmore).symm hrounds
      | last hlast hrounds => exact hset 0 (by omega) (by rw [hlast, Nat.mod_self]) hrounds

/-- A sequence of commands is carried out, each relay once in as many commands as there
are relays, exactly when the commands come in rounds. -/
theorem covers_iff (commands : List (List Bool)) :
    (∃ requests thing, construct.run commands = some (requests, thing) ∧ Covers commands requests) ↔
      Rounds 0 commands := by
  rw [← run_isSome_iff 0]
  refine ⟨?_, ?_⟩
  · intro ⟨requests, thing, hrun, _⟩
    exact ⟨requests, thing, hrun⟩
  · intro ⟨requests, thing, hrun⟩
    exact ⟨requests, thing, hrun, run_covers hrun⟩

/-- An empty command, and a shorter one in the middle of a round, are read past their end. -/
theorem not_covers :
    construct.run [[]] = none ∧ construct.run [[true, false], [true]] = none ∧
      ¬ ∀ commands, ∃ requests thing, construct.run commands = some (requests, thing) ∧
        Covers commands requests := by
  refine ⟨rfl, rfl, fun h => ?_⟩
  obtain ⟨requests, thing, hrun, -⟩ := h [[]]
  cases hrun

end ShellyGen2Thing
end Iotic.Things
