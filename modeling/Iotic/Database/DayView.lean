import Iotic.Database.RawDays
import Iotic.Database.SkippedReadings

/-!
# What a day's raw data tells

Repeated values are not written, so a value that is held over midnight was written
on a day before. A day's raw data begin with the first change of the day.
-/

namespace Iotic.Database
open Sequences DatabasePrivate

/- The entries the puts leave behind the ones there: those that change the value,
where one of the same second replaces the one before. -/
def contentAfter (content : Dataset) (last : Datapoint) (puts : List (UInt32 × Datapoint)) : Dataset :=
  (changesFrom last puts).foldl (fun m e => m.put e.1 e.2) content

theorem Holds.put {db db' : DatabasePrivate} {t : Name} {k : ThingPropertyKey} {content : Dataset}
    (h : Holds db t k content) (ts : UInt32) (dp : Datapoint)
    (hput : db'.stored t k 0 = (db.stored t k 0).put ts (bytesOf dp)) :
    Holds db' t k (content.put ts dp) := by
  unfold Holds at h ⊢
  rw [hput]
  show SortedMap.putEntry ts (bytesOf dp) (db.stored t k 0).entries = _
  rw [h]
  exact SortedMap.putEntry_map bytesOf ts dp content.entries

theorem putReadings_holds {t : Name} {k : ThingPropertyKey} (puts : List (UInt32 × Datapoint))
    {db : DatabasePrivate} (hc : db.Coherent) {content : Dataset} (h : Holds db t k content) :
    (putReadings db t k puts).Coherent ∧
      Holds (putReadings db t k puts) t k (contentAfter content (db.lastValues t k) puts) := by
  induction puts generalizing db content with
  | nil => exact ⟨hc, h⟩
  | cons e puts ih =>
    show (putReadings (db.putDatapoint t k e.1 e.2) t k puts).Coherent ∧
      Holds (putReadings (db.putDatapoint t k e.1 e.2) t k puts) t k _
    by_cases he : db.lastValues t k = e.2
    · have hsame := ih hc h
      unfold contentAfter at hsame ⊢
      rw [putDatapoint_of_eq e.1 he, changesFrom, if_pos he.symm, ← he]
      exact hsame
    · obtain ⟨hco, hlast, hstored⟩ := putDatapoint_of_ne hc e.1 he
      have hput := h.put e.1 e.2 (by rw [hstored, if_pos ⟨rfl, rfl, rfl⟩])
      have hrest := ih hco hput
      unfold contentAfter at hrest ⊢
      rw [hlast] at hrest
      rw [changesFrom, if_neg (Ne.symm he), List.foldl_cons]
      exact hrest

theorem fresh_holds (t : Name) (k : ThingPropertyKey) : Holds fresh t k SortedMap.empty := rfl

/- The raw data of a day, up to a put of the day: the last written put, if it was
made that day. -/
theorem rawData_lastUpTo (t : Name) (k : ThingPropertyKey) {puts : List (UInt32 × Datapoint)}
    (hsorted : puts.Pairwise fun a b => a.1 ≤ b.1) {day : ℤ} (h0 : 0 ≤ day) (h1 : day < 49710)
    {ts : UInt32} (hin : InDay day ts) :
    ∃ d, ((putReadings fresh t k puts).rawData t k day).1 = some d ∧
      d.lastUpTo ts = ((changesFrom [] (puts.filter fun e => e.1 ≤ ts)).getLast?).filter
        fun w => dayStart day ≤ w.1 := by
  obtain ⟨hco, hholds⟩ := putReadings_holds puts fresh_coherent (fresh_holds t k)
  have hwritten : (changesFrom [] puts).Pairwise fun a b => a.1 ≤ b.1 :=
    hsorted.sublist (changesFrom_sublist _ _)
  refine ⟨_, hholds.rawData hco day, ?_⟩
  rw [SortedMap.lastUpTo_window _ ((inScan_iff_inDay h0 h1 ts).mpr hin).2, ← filter_changesFrom hsorted]
  exact congrArg _ (SortedMap.lastUpTo_foldl_put _ hwritten ts)

/- The puts up to a time: the last of them that was written holds their last value. -/
theorem exists_lastWritten {puts : List (UInt32 × Datapoint)} (hne : ∀ e ∈ puts, e.2 ≠ [])
    {e : UInt32 × Datapoint} (he : e ∈ puts) :
    ∃ w, (changesFrom [] (puts.filter fun p => p.1 ≤ e.1)).getLast? = some w ∧
      w.1 ≤ e.1 ∧ w.2 = lastValue [] (puts.filter fun p => p.1 ≤ e.1) := by
  have hbefore : e ∈ puts.filter fun p => p.1 ≤ e.1 := List.mem_filter.mpr ⟨he, by simp⟩
  have hvalues : ∀ x ∈ puts.filter fun p => p.1 ≤ e.1, x.2 ≠ [] := fun x hx =>
    hne x (List.mem_filter.mp hx).1
  generalize hps : (puts.filter fun p => p.1 ≤ e.1) = before at hbefore hvalues
  have hwritten : changesFrom [] before ≠ [] := by
    cases before with
    | nil => cases hbefore
    | cons x before =>
      rw [changesFrom, if_neg (hvalues x List.mem_cons_self)]
      exact List.cons_ne_nil _ _
  obtain ⟨w, hw⟩ : ∃ w, (changesFrom [] before).getLast? = some w :=
    ⟨_, List.getLast?_eq_getLast_of_ne_nil hwritten⟩
  refine ⟨w, hw, ?_, ?_⟩
  · have hmem := (changesFrom_sublist _ _).subset (List.mem_of_getLast? hw)
    rw [← hps] at hmem
    simpa using (List.mem_filter.mp hmem).2
  · rw [← lastValue_of_getLast? [] hw, lastValue_changesFrom]

/-- For any puts of one property, in the order of time: at a put of a day, let `w`
be the last put up to then that differs from the put just before it. It holds the
value put last. If `w` was made that day, it is the last entry the day's raw data
have up to then, and if it was made on a day before, they have none. -/
theorem rawData_lastEntry (t : Name) (k : ThingPropertyKey) (puts : List (UInt32 × Datapoint))
    (hne : ∀ e ∈ puts, e.2 ≠ []) (hsorted : puts.Pairwise fun a b => a.1 ≤ b.1) (day : ℤ)
    (h0 : 0 ≤ day) (h1 : day < 49710) (e : UInt32 × Datapoint) (he : e ∈ puts)
    (hin : InDay day e.1) :
    let before := puts.filter fun p => p.1 ≤ e.1
    ∃ d w, ((putReadings fresh t k puts).rawData t k day).1 = some d ∧
      (changesFrom [] before).getLast? = some w ∧ w.2 = lastValue [] before ∧
      d.lastUpTo e.1 = if InDay day w.1 then some w else none := by
  intro before
  obtain ⟨w, hw, hle, hvalue⟩ := exists_lastWritten hne he
  obtain ⟨d, hd, hlast⟩ := rawData_lastUpTo t k hsorted h0 h1 hin
  refine ⟨d, w, hd, hw, hvalue, ?_⟩
  have hend := ((inScan_iff_inDay h0 h1 e.1).mpr hin).2
  have hday : dayStart day ≤ w.1 ↔ InDay day w.1 := by
    rw [← inScan_iff_inDay h0 h1]
    exact ⟨fun h => ⟨h, hle.trans_lt hend⟩, And.left⟩
  rw [hlast, hw, Option.filter_some]
  simp only [decide_eq_true_eq, hday]

/- 5 through the midnight of day 20001, then 7. -/
def overMidnight : List (UInt32 × Datapoint) :=
  [(1728000000, [5]), (1728086399, [5]), (1728086400, [5]), (1728086460, [7])]

theorem rawData_lastEntry_overMidnight :
    let before := overMidnight.filter fun p => p.1 ≤ 1728086460
    ∃ d w, ((putReadings fresh "relay".toList .power overMidnight).rawData
        "relay".toList .power 20001).1 = some d ∧
      (changesFrom [] before).getLast? = some w ∧ w.2 = lastValue [] before ∧
      d.lastUpTo 1728086460 = if InDay 20001 w.1 then some w else none :=
  rawData_lastEntry "relay".toList .power overMidnight (by decide) (by decide) 20001 (by decide)
    (by decide) (1728086460, [7]) (by decide) (by decide)

/- At the first put of day 20001 its raw data have no entry. -/
theorem not_rawData_lastEntry :
    ¬ ∀ (t : Name) (k : ThingPropertyKey) (puts : List (UInt32 × Datapoint)),
      (∀ e ∈ puts, e.2 ≠ []) → puts.Pairwise (fun a b => a.1 ≤ b.1) → ∀ day : ℤ, 0 ≤ day →
      ∀ e ∈ puts, InDay day e.1 →
      ∃ d w, ((putReadings fresh t k puts).rawData t k day).1 = some d ∧
        d.lastUpTo e.1 = some w ∧ w.2 = lastValue [] (puts.filter fun p => p.1 ≤ e.1) := by
  intro hall
  obtain ⟨d, w, hd, hw, -⟩ := hall "relay".toList .power overMidnight (by decide) (by decide) 20001
    (by decide) (1728086400, [5]) (by decide) (by decide)
  obtain ⟨d', hd', hlast⟩ := rawData_lastUpTo "relay".toList .power
    (show overMidnight.Pairwise fun a b => a.1 ≤ b.1 by decide) (show (0 : ℤ) ≤ 20001 by decide)
    (by decide) (show InDay 20001 1728086400 by decide)
  rw [hd] at hd'
  obtain rfl := Option.some.inj hd'
  have hnone : ((changesFrom [] (overMidnight.filter fun e => e.1 ≤ 1728086400)).getLast?).filter
      (fun w => dayStart 20001 ≤ w.1) = none := by decide
  rw [hnone, hw] at hlast
  cases hlast

end Iotic.Database
