import Iotic.Database.Database

/-!
# When a write fails (DatabasePrivate::putDatapoint)

A datapoint is remembered as the last value before anything is written. Where the
write then throws, the value counts as stored though it is not.
-/

namespace Iotic.Database
open DatabasePrivate

/- The operations of libmdbx that may throw. A transaction that is not committed
leaves the store as it was; creating the map is one of its own. -/
inductive WriteStep
  | createMap
  | startWrite
  | put
  | commit
  deriving DecidableEq, Repr

namespace DatabasePrivate

/- `putDatapoint` where the operations `fails` says throw; the one that has thrown,
if one has, and the members it leaves. -/
def putDatapointFailing (fails : WriteStep → Bool) (db : DatabasePrivate) (thingId : Name)
    (property : ThingPropertyKey) (timestamp : UInt32) (datapoint : Datapoint) :
    Option WriteStep × DatabasePrivate :=
  if db.lastValues thingId property = datapoint then (none, db)
  else
    let db := db.setLastValue thingId property datapoint
    if db.mapCache (mapName thingId property 0) = none ∧ fails .createMap = true then
      (some .createMap, db)
    else
      let (map, db) := db.createMap thingId property 0
      if fails .startWrite then (some .startWrite, db)
      else if fails .put then (some .put, db)
      else if fails .commit then (some .commit, db)
      else (none, db.upsert map timestamp (bytesOf datapoint))

/- What a call that is not skipped attempts. -/
def attempts (db : DatabasePrivate) (thingId : Name) (property : ThingPropertyKey) :
    List WriteStep :=
  (if db.mapCache (mapName thingId property 0) = none then [.createMap] else []) ++
    [.startWrite, .put, .commit]

/- A call that throws leaves the maps and the last values as they were, and the
same value put later is written. -/
def AtomicOnFailure (fails : WriteStep → Bool) (db : DatabasePrivate) (t : Name)
    (k : ThingPropertyKey) (ts : UInt32) (dp : Datapoint) : Prop :=
  let r := db.putDatapointFailing fails t k ts dp
  r.1 ≠ none → r.2.stored = db.stored ∧ r.2.lastValues = db.lastValues ∧
    ∀ ts', (r.2.putDatapoint t k ts' dp).stored t k 0 = (db.stored t k 0).put ts' (bytesOf dp)

theorem setLastValue_lastValues (db : DatabasePrivate) (t : Name) (k : ThingPropertyKey)
    (dp : Datapoint) : (db.setLastValue t k dp).lastValues t k = dp := by
  simp only [setLastValue, Function.update_self]

theorem putDatapointFailing_of_eq (fails : WriteStep → Bool) {db : DatabasePrivate} {t : Name}
    {k : ThingPropertyKey} (ts : UInt32) {dp : Datapoint} (h : db.lastValues t k = dp) :
    db.putDatapointFailing fails t k ts dp = (none, db) := by
  unfold putDatapointFailing
  rw [if_pos h]

/- The outcomes of a call that is not skipped. -/
theorem putDatapointFailing_cases (fails : WriteStep → Bool) {db : DatabasePrivate} {t : Name}
    {k : ThingPropertyKey} (ts : UInt32) {dp : Datapoint} (hne : db.lastValues t k ≠ dp) :
    let r := db.putDatapointFailing fails t k ts dp
    let db' := db.setLastValue t k dp
    (.createMap ∈ db.attempts t k ∧ fails .createMap = true ∧ r = (some .createMap, db')) ∨
    (∃ step ∈ db.attempts t k, fails step = true ∧ r = (some step, (db'.createMap t k 0).2)) ∨
    ((∀ step ∈ db.attempts t k, fails step = false) ∧ r = (none, db.putDatapoint t k ts dp)) := by
  have hcache : (db.setLastValue t k dp).mapCache = db.mapCache := rfl
  have hput : db.putDatapoint t k ts dp = ((db.setLastValue t k dp).createMap t k 0).2.upsert
      ((db.setLastValue t k dp).createMap t k 0).1 ts (bytesOf dp) := by
    unfold putDatapoint
    rw [if_neg hne]
  unfold putDatapointFailing attempts
  dsimp only
  rw [if_neg hne, hcache, hput]
  by_cases hmap : db.mapCache (mapName t k 0) = none ∧ fails .createMap = true
  · rw [if_pos hmap, if_pos hmap.1]
    exact Or.inl ⟨by simp, hmap.2, rfl⟩
  · rw [if_neg hmap]
    cases hs : fails .startWrite with
    | true => exact Or.inr (Or.inl ⟨.startWrite, by simp, hs, by simp only [if_true]⟩)
    | false =>
      cases hp : fails .put with
      | true => exact Or.inr (Or.inl ⟨.put, by simp, hp, by simp⟩)
      | false =>
        cases hc : fails .commit with
        | true => exact Or.inr (Or.inl ⟨.commit, by simp, hc, by simp⟩)
        | false =>
          refine Or.inr (Or.inr ⟨fun step hstep => ?_, by simp⟩)
          rcases List.mem_append.mp hstep with hstep | hstep
          · split_ifs at hstep with hnone
            · rw [List.mem_singleton.mp hstep]
              exact Bool.eq_false_iff.mpr fun h => hmap ⟨hnone, h⟩
            · cases hstep
          · simp only [List.mem_cons, List.not_mem_nil, or_false] at hstep
            rcases hstep with rfl | rfl | rfl
            · exact hs
            · exact hp
            · exact hc

/- Without failures this is `putDatapoint`. -/
theorem putDatapointFailing_none (db : DatabasePrivate) (t : Name) (k : ThingPropertyKey)
    (ts : UInt32) (dp : Datapoint) :
    db.putDatapointFailing (fun _ => false) t k ts dp = (none, db.putDatapoint t k ts dp) := by
  by_cases hne : db.lastValues t k = dp
  · rw [putDatapoint_of_eq ts hne, putDatapointFailing_of_eq _ ts hne]
  · rcases putDatapointFailing_cases (fun _ => false) ts hne with ⟨_, hf, _⟩ | ⟨_, _, hf, _⟩ | ⟨_, hr⟩
    · cases hf
    · cases hf
    · exact hr

/- A call that attempts something that fails throws, and has remembered the value. -/
theorem putDatapointFailing_remembers {fails : WriteStep → Bool} {db : DatabasePrivate} {t : Name}
    {k : ThingPropertyKey} (ts : UInt32) {dp : Datapoint} (hne : db.lastValues t k ≠ dp)
    (hf : ∃ step ∈ db.attempts t k, fails step = true) :
    (db.putDatapointFailing fails t k ts dp).1 ≠ none ∧
      (db.putDatapointFailing fails t k ts dp).2.lastValues t k = dp := by
  have hlast := setLastValue_lastValues db t k dp
  rcases putDatapointFailing_cases fails ts hne with ⟨_, _, hr⟩ | ⟨step, _, _, hr⟩ | ⟨hall, _⟩
  · rw [hr]
    exact ⟨Option.some_ne_none _, hlast⟩
  · rw [hr]
    exact ⟨Option.some_ne_none _, by rw [createMap_lastValues]; exact hlast⟩
  · obtain ⟨step, hstep, hfail⟩ := hf
    rw [hall step hstep] at hfail
    cases hfail

/- What was stored before is all that is stored. -/
theorem putDatapointFailing_stored {fails : WriteStep → Bool} {db : DatabasePrivate}
    (hc : db.Coherent) {t : Name} {k : ThingPropertyKey} (ts : UInt32) {dp : Datapoint}
    (h : (db.putDatapointFailing fails t k ts dp).1 ≠ none) :
    (db.putDatapointFailing fails t k ts dp).2.stored = db.stored := by
  by_cases hne : db.lastValues t k = dp
  · exact absurd (by rw [putDatapointFailing_of_eq fails ts hne]) h
  · rcases putDatapointFailing_cases fails ts hne with ⟨_, _, hr⟩ | ⟨step, _, _, hr⟩ | ⟨_, hr⟩
    · rw [hr]
      rfl
    · rw [hr]
      exact (createMap_spec (show (db.setLastValue t k dp).Coherent from hc) t k 0).1.stored
    · rw [hr] at h
      exact absurd rfl h

end DatabasePrivate

/-- For every state and every datapoint, whatever operations fail: the call is
atomic if and only if it attempts nothing that fails. -/
theorem atomicOnFailure_iff (fails : WriteStep → Bool) (db : DatabasePrivate) (t : Name)
    (k : ThingPropertyKey) (ts : UInt32) (dp : Datapoint) :
    db.AtomicOnFailure fails t k ts dp ↔
      db.lastValues t k = dp ∨ ∀ step ∈ db.attempts t k, fails step = false := by
  constructor
  · intro hatomic
    by_contra hcon
    obtain ⟨hne, hall⟩ := not_or.mp hcon
    have hf : ∃ step ∈ db.attempts t k, fails step = true := by
      by_contra hnone
      refine hall fun step hstep => Bool.eq_false_iff.mpr fun htrue => hnone ⟨step, hstep, htrue⟩
    obtain ⟨hthrown, hlast⟩ := putDatapointFailing_remembers ts hne hf
    obtain ⟨-, hvalues, -⟩ := hatomic hthrown
    rw [hvalues] at hlast
    exact hne hlast
  · rintro (heq | hall) hthrown
    · exact absurd (by rw [putDatapointFailing_of_eq fails ts heq]) hthrown
    · by_cases hne : db.lastValues t k = dp
      · exact absurd (by rw [putDatapointFailing_of_eq fails ts hne]) hthrown
      · rcases putDatapointFailing_cases fails ts hne with
          ⟨hm, hf, _⟩ | ⟨step, hm, hf, _⟩ | ⟨_, hr⟩
        · rw [hall _ hm] at hf
          cases hf
        · rw [hall _ hm] at hf
          cases hf
        · rw [hr] at hthrown
          exact absurd rfl hthrown

/- The write of 5 fails at `put`; put again without failure it is skipped. -/
theorem not_atomicOnFailure_put :
    let r := fresh.putDatapointFailing (fun step => step = .put) "relay".toList .power 0 [5]
    r.1 = some .put ∧ (r.2.putDatapoint "relay".toList .power 60 [5]).stored "relay".toList .power 0 =
        SortedMap.empty ∧
      ¬ fresh.AtomicOnFailure (fun step => step = .put) "relay".toList .power 0 [5] := by
  intro r
  have hne : fresh.lastValues "relay".toList .power ≠ [5] := by decide
  have hf : ∃ step ∈ fresh.attempts "relay".toList .power, decide (step = WriteStep.put) = true :=
    ⟨.put, by decide, by decide⟩
  obtain ⟨hthrown, hlast⟩ := putDatapointFailing_remembers 0 hne hf
  refine ⟨rfl, ?_, fun hatomic => ?_⟩
  · rw [putDatapoint_of_eq 60 hlast, putDatapointFailing_stored fresh_coherent 0 hthrown]
    rfl
  · obtain ⟨-, hvalues, -⟩ := hatomic hthrown
    rw [hvalues] at hlast
    exact hne hlast

end Iotic.Database
