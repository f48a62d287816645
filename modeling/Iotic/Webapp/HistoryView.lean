import Iotic.Webapp.HistoryRange
import Iotic.Webapp.SiteCard

/-!
# Readings on their way to the card

The daemon's history, what it has sent of it, what the web app has asked for, and the
samples the card has. Readings come one by one and in ranges; each range was asked for,
and a sample of zero stands where it begins until then.
-/

namespace Iotic.Webapp
open Iotic.Webserver SiteService

/- A reading as it was taken, and as it comes in a range: in whole tens. -/
def asTaken (e : Properties) : Sample := ⟨e.ts.toNat, e.pvPower.toInt, e.gridPower.toInt⟩

def inTens (e : Properties) : Sample :=
  ⟨e.ts.toNat, e.pvPower.toInt.tdiv 10 * 10, e.gridPower.toInt.tdiv 10 * 10⟩

def zero (fromTs : ℤ) : Sample := ⟨fromTs, 0, 0⟩

inductive Delivery
  | settings (thingInterval : ℤ)
  | history (siteHistory : List Properties)
  | live (p : Properties) (shortTermGridPower longTermGridPower : ℤ)
  | range (fromTs toTs : ℤ) (entries : List Properties)

namespace Delivery

def live? : Delivery → Option Properties
  | live p _ _ => some p
  | _ => none

/- The samples after it has come; of a history the last entry comes twice. -/
def deliver (samples : List Sample) : Delivery → List Sample
  | settings _ => samples
  | history siteHistory => merge ((WebAppBehavior.recent siteHistory).map asTaken) samples ++
      siteHistory.getLast?.toList.map asTaken
  | live p _ _ => samples ++ [asTaken p]
  | range _ _ entries => merge (entries.map inTens) samples

end Delivery

structure HistoryView where
  history : List Properties
  deliveries : List Delivery
  requests : List (ℤ × ℤ)
  samples : List Sample

namespace HistoryView

def opened (thingInterval : ℤ) (siteHistory : List Properties) : HistoryView :=
  ⟨siteHistory, [.settings thingInterval, .history siteHistory], [], []⟩

def answer (history : List Properties) (fromTs toTs : ℤ) : List Delivery :=
  if requested history fromTs toTs = [] then []
  else [.range fromTs toTs (requested history fromTs toTs)]

/- What is asked for ends at the first sample, and begins two minutes before at least. -/
inductive Step : HistoryView → HistoryView → Prop
  | site {v : HistoryView} (p : Properties) (shortTerm longTerm : ℤ)
      (h : ∀ e ∈ v.history, e.ts < p.ts) :
      Step v { v with
        history := v.history ++ [p], deliveries := v.deliveries ++ [.live p shortTerm longTerm] }
  | thingInterval {v : HistoryView} (value : ℤ) :
      Step v { v with deliveries := v.deliveries ++ [.settings value] }
  | serve {v : HistoryView} {fromTs toTs : ℤ} {rest : List (ℤ × ℤ)}
      (h : v.requests = (fromTs, toTs) :: rest) :
      Step v { v with
        requests := rest, deliveries := v.deliveries ++ answer v.history fromTs toTs }
  | receive {v : HistoryView} {d : Delivery} {rest : List Delivery} (h : v.deliveries = d :: rest) :
      Step v { v with deliveries := rest, samples := d.deliver v.samples }
  | drag {v : HistoryView} {fromTs : ℤ} {first : Sample} {rest : List Sample}
      (h : v.samples = first :: rest) (hnonneg : 0 ≤ fromTs) (hfrom : fromTs + 121 ≤ first.x) :
      Step v { v with
        requests := v.requests ++ [(fromTs, first.x)], samples := zero fromTs :: v.samples }

/- The readings under way one by one. -/
def pending (v : HistoryView) : List Properties := v.deliveries.filterMap Delivery.live?

end HistoryView

/-! ### Ranges of the history -/

section Requested
variable {history : List Properties} {fromTs toTs : ℤ}

theorem mem_requested_iff {e : Properties} : e ∈ requested history fromTs toTs ↔ e ∈ history ∧
    (∀ y ∈ history, (y.ts.toNat : ℤ) ≤ fromTs → (y.ts.toNat : ℤ) ≤ e.ts.toNat) ∧
      (e.ts.toNat : ℤ) < toTs := by
  rw [requested, List.mem_filter, decide_eq_true_iff]
  simp only [UInt32.le_iff_toNat_le, Nat.cast_le]

theorem requested_pairwise (hsorted : history.Pairwise fun a b => a.ts < b.ts) (fromTs toTs : ℤ) :
    (requested history fromTs toTs).Pairwise fun a b => a.ts < b.ts :=
  hsorted.sublist List.filter_sublist

/- A later reading is in no range. -/
theorem requested_snoc {p : Properties} (hfrom : fromTs < p.ts.toNat)
    (hto : toTs ≤ p.ts.toNat) :
    requested (history ++ [p]) fromTs toTs = requested history fromTs toTs := by
  have hp : ∀ x : Properties, ((p.ts.toNat : ℤ) ≤ fromTs → p.ts ≤ x.ts) ↔ True :=
    fun x => iff_true_intro fun h => absurd h (by omega)
  have hlast : ¬ (p.ts.toNat : ℤ) < toTs := by omega
  unfold requested
  rw [List.filter_append]
  simp only [List.mem_append, List.mem_singleton, or_imp, forall_and, forall_eq, hp, and_true,
    List.filter_cons, hlast, and_false, decide_false, Bool.false_eq_true, if_false, List.filter_nil,
    List.append_nil]

/- The last entry that is not after `fromTs` is in the range, if there is one. -/
theorem exists_mem_requested_le (hsorted : history.Pairwise fun a b => a.ts < b.ts)
    (hlt : fromTs < toTs) {y : Properties} (hy : y ∈ history) (hyf : (y.ts.toNat : ℤ) ≤ fromTs) :
    ∃ e ∈ requested history fromTs toTs, (e.ts.toNat : ℤ) ≤ fromTs := by
  let early := history.filter fun x => (x.ts.toNat : ℤ) ≤ fromTs
  have hne : early ≠ [] := List.ne_nil_of_mem (List.mem_filter.mpr ⟨hy, decide_eq_true hyf⟩)
  have hrefl : Std.Refl fun a b : Properties => a.ts ≤ b.ts := ⟨fun a => UInt32.le_refl _⟩
  have hle : early.Pairwise fun a b => a.ts ≤ b.ts :=
    (hsorted.imp fun {a b} hab => UInt32.le_of_lt hab).sublist List.filter_sublist
  have hlast := List.mem_filter.mp (List.getLast_mem hne)
  have hfrom : ((early.getLast hne).ts.toNat : ℤ) ≤ fromTs := of_decide_eq_true hlast.2
  refine ⟨early.getLast hne, mem_requested_iff.mpr ⟨hlast.1, fun x hx hxf => ?_, by omega⟩, hfrom⟩
  have hmem : x ∈ early := List.mem_filter.mpr ⟨hx, decide_eq_true hxf⟩
  exact_mod_cast UInt32.le_iff_toNat_le.mp (hle.rel_getLast hmem)

end Requested

/-! ### Samples that are merged -/

section Merge
variable {newList oldList : List Sample}

/- Strictly ascending. -/
def Ascending (samples : List Sample) : Prop := samples.Pairwise fun s t => s.x < t.x

theorem Ascending.sorted {samples : List Sample} (h : Ascending samples) :
    Sorted Sample.x samples :=
  h.imp fun hlt => hlt.le

theorem mem_merge_iff (hne : newList ≠ []) {s : Sample} : s ∈ merge newList oldList ↔ s ∈ newList ∨
    s ∈ oldList ∧ (s.x < (newList.head hne).x ∨ (newList.getLast hne).x < s.x) := by
  rw [merge_eq hne, List.mem_append, List.mem_append]
  unfold before behind
  rw [List.mem_filter, List.mem_filter, decide_eq_true_iff, decide_eq_true_iff]
  tauto

/- What is behind all new samples stays behind. -/
theorem merge_append (hne : newList ≠ []) {later : List Sample}
    (h : ∀ s ∈ newList, ∀ t ∈ later, s.x < t.x) :
    merge newList (oldList ++ later) = merge newList oldList ++ later := by
  have hbefore : before Sample.x (newList.head hne) later = [] := by
    refine List.filter_eq_nil_iff.mpr fun t ht => ?_
    have hlt := h _ (List.head_mem hne) t ht
    simp only [decide_eq_true_iff, not_lt]
    exact hlt.le
  have hbehind : behind Sample.x (newList.getLast hne) later = later :=
    List.filter_eq_self.mpr fun t ht => decide_eq_true (h _ (List.getLast_mem hne) t ht)
  have hsplit : ∀ l l' : List Sample,
      before Sample.x (newList.head hne) (l ++ l') = before Sample.x (newList.head hne) l ++
        before Sample.x (newList.head hne) l' ∧
      behind Sample.x (newList.getLast hne) (l ++ l') = behind Sample.x (newList.getLast hne) l ++
        behind Sample.x (newList.getLast hne) l' :=
    fun l l' => ⟨List.filter_append .., List.filter_append ..⟩
  rw [merge_eq hne, merge_eq hne, (hsplit _ _).1, (hsplit _ _).2, hbefore, hbehind, List.append_nil,
    List.append_assoc, List.append_assoc, List.append_assoc]

theorem head_le_of_ascending (hnew : Ascending newList) (hne : newList ≠ []) {s : Sample}
    (hs : s ∈ newList) : (newList.head hne).x ≤ s.x ∧ s.x ≤ (newList.getLast hne).x := by
  have hrefl : Std.Refl fun s t : Sample => s.x ≤ t.x := ⟨fun s => le_rfl⟩
  exact ⟨hnew.sorted.rel_head hs, hnew.sorted.rel_getLast hs⟩

theorem merge_ascending (hnew : Ascending newList) (hold : Ascending oldList) :
    Ascending (merge newList oldList) := by
  by_cases hne : newList = []
  · subst hne
    exact hold
  · have hbounds := fun s hs => head_le_of_ascending hnew hne (s := s) hs
    have hbefore : ∀ s ∈ before Sample.x (newList.head hne) oldList, s.x < (newList.head hne).x :=
      fun s hs => of_decide_eq_true (List.mem_filter.mp hs).2
    have hbehind : ∀ s ∈ behind Sample.x (newList.getLast hne) oldList,
        (newList.getLast hne).x < s.x := fun s hs => of_decide_eq_true (List.mem_filter.mp hs).2
    have hle := (hbounds _ (List.getLast_mem hne)).1
    rw [merge_eq hne]
    refine List.pairwise_append.mpr ⟨List.pairwise_append.mpr ⟨hold.filter _, hnew, ?_⟩,
      hold.filter _, ?_⟩
    · intro s hs t ht
      exact (hbefore s hs).trans_le (hbounds t ht).1
    · intro s hs t ht
      rcases List.mem_append.mp hs with hs | hs
      · exact ((hbefore s hs).trans_le hle).trans (hbehind t ht)
      · exact (hbounds s hs).2.trans_lt (hbehind t ht)

end Merge

/-! ### What holds in every state -/

namespace HistoryView
open WebAppBehavior

/- A range has been asked for, and its answer is not there yet. -/
def Underway (v : HistoryView) (fromTs toTs : ℤ) : Prop :=
  (fromTs, toTs) ∈ v.requests ∨ ∃ entries, .range fromTs toTs entries ∈ v.deliveries

/- An answer does not replace the zero where it begins after it, or where the time asked
for is without any reading. -/
def Stale (siteHistory history : List Properties) (fromTs : ℤ) : Prop :=
  (∀ e ∈ history, fromTs < e.ts.toNat) ∨
    ∃ toTs, fromTs + 121 ≤ toTs ∧ (∀ r ∈ recent siteHistory, toTs ≤ r.ts.toNat) ∧
      ∀ e ∈ history, (e.ts.toNat : ℤ) < fromTs ∨ toTs ≤ e.ts.toNat

/- A reading is before all samples, among them, or about to be. -/
def Covered (v : HistoryView) (e : Properties) : Prop :=
  (∀ s ∈ v.samples, (e.ts.toNat : ℤ) < s.x) ∨ (∃ s ∈ v.samples, s.x = e.ts.toNat) ∨
    ∃ fromTs toTs, v.Underway fromTs toTs ∧ e ∈ requested v.history fromTs toTs

/- Before the history has come. -/
structure Awaiting (siteHistory : List Properties) (v : HistoryView) : Prop where
  sorted : v.history.Pairwise fun a b => a.ts < b.ts
  history : v.history = siteHistory ++ v.pending
  samples : v.samples = []
  requests : v.requests = []
  deliveries : ∃ settings later, v.deliveries = settings ++ .history siteHistory :: later ∧
    (∀ d ∈ settings, ∃ value, d = .settings value) ∧
    ∀ d ∈ later, (∃ value, d = .settings value) ∨ ∃ p s l, d = .live p s l

/- Since then: `old` samples, the readings of the history at the start with the last one
twice, and the ones that have come after them. -/
structure Received (siteHistory : List Properties) (v : HistoryView) (old : List Sample)
    (news : List Properties) : Prop where
  sorted : v.history.Pairwise fun a b => a.ts < b.ts
  history : v.history = siteHistory ++ news ++ v.pending
  samples : v.samples =
    old ++ (recent siteHistory ++ siteHistory.getLast?.toList ++ news).map asTaken
  noHistory : ∀ d ∈ v.deliveries, ∀ l, d ≠ .history l
  ascending : Ascending old
  older : ∀ s ∈ old, ∀ r ∈ recent siteHistory, s.x < r.ts.toNat
  bounds : ∀ fromTs toTs, v.Underway fromTs toTs → 0 ≤ fromTs ∧ fromTs + 121 ≤ toTs ∧
    (∀ r ∈ recent siteHistory, toTs ≤ r.ts.toNat) ∧ ∃ s ∈ v.samples, s.x ≤ fromTs
  ranges : ∀ fromTs toTs entries, .range fromTs toTs entries ∈ v.deliveries →
    entries ≠ [] ∧ entries = requested v.history fromTs toTs
  shown : ∀ s ∈ old, (∃ e ∈ v.history, s = inTens e) ∨ ∃ fromTs, s = zero fromTs ∧
    ((∃ toTs, v.Underway fromTs toTs) ∨ Stale siteHistory v.history fromTs)
  covered : ∀ e ∈ v.history, (∀ r ∈ recent siteHistory, e.ts < r.ts) → v.Covered e

def Consistent (siteHistory : List Properties) (v : HistoryView) : Prop :=
  v.Awaiting siteHistory ∨ ∃ old news, v.Received siteHistory old news

section Recent
variable {siteHistory : List Properties}

theorem mem_of_mem_recent {e : Properties} (h : e ∈ recent siteHistory) : e ∈ siteHistory :=
  List.mem_of_mem_drop h

theorem exists_mem_recent (hne : siteHistory ≠ []) : ∃ r, r ∈ recent siteHistory :=
  List.exists_mem_of_ne_nil _ (recent_eq_nil_iff.not.mpr hne)

theorem getLast?_recent (hne : siteHistory ≠ []) :
    (recent siteHistory).getLast? = siteHistory.getLast? := by
  have hpos := List.length_pos_iff.mpr hne
  rw [recent, List.getLast?_drop, if_neg (by omega)]

/- What is not behind the recent readings is not behind any reading shown as it was taken. -/
theorem le_of_mem_exact {news pending : List Properties} (hne : siteHistory ≠ [])
    (hsorted : (siteHistory ++ news ++ pending).Pairwise fun a b => a.ts < b.ts) {bound : ℤ}
    (hbound : ∀ r ∈ recent siteHistory, bound ≤ r.ts.toNat) {s : Sample}
    (hs : s ∈ (recent siteHistory ++ siteHistory.getLast?.toList ++ news).map asTaken) :
    bound ≤ s.x := by
  obtain ⟨e, he, rfl⟩ := List.mem_map.mp hs
  show bound ≤ (e.ts.toNat : ℤ)
  rcases List.mem_append.mp he with he | he
  · rcases List.mem_append.mp he with he | he
    · exact hbound e he
    · rw [Option.mem_toList, ← getLast?_recent hne] at he
      exact hbound e (List.mem_of_getLast? he)
  · obtain ⟨r, hr⟩ := exists_mem_recent hne
    have hlt := (List.pairwise_append.mp (List.pairwise_append.mp hsorted).1).2.2 r
      (mem_of_mem_recent hr) e he
    have hle := hbound r hr
    have hnat := UInt32.lt_iff_toNat_lt.mp hlt
    omega

end Recent

theorem pending_append (v : HistoryView) (deliveries : List Delivery) :
    pending { v with deliveries := v.deliveries ++ deliveries } =
      v.pending ++ deliveries.filterMap Delivery.live? :=
  List.filterMap_append ..

/-! ### Until the history has come -/

section Awaiting
variable {siteHistory : List Properties} {v : HistoryView}

theorem opened_awaiting (thingInterval : ℤ)
    (hsorted : siteHistory.Pairwise fun a b => a.ts < b.ts) :
    (opened thingInterval siteHistory).Awaiting siteHistory where
  sorted := hsorted
  history := (List.append_nil siteHistory).symm
  samples := rfl
  requests := rfl
  deliveries := by
    refine ⟨[.settings thingInterval], [], rfl, ?_, fun _ hd => (nomatch hd)⟩
    intro d hd
    exact ⟨thingInterval, List.mem_singleton.mp hd⟩

/- What is sent behind the history. -/
theorem Awaiting.send (h : v.Awaiting siteHistory) {d : Delivery} {history : List Properties}
    (hd : (∃ value, d = .settings value) ∨ ∃ p s l, d = .live p s l)
    (hsorted : history.Pairwise fun a b => a.ts < b.ts)
    (hhistory : history = v.history ++ d.live?.toList) :
    Awaiting siteHistory { v with history := history, deliveries := v.deliveries ++ [d] } where
  sorted := hsorted
  history := by
    have hpending := pending_append v [d]
    have hlive : [d].filterMap Delivery.live? = d.live?.toList := by
      cases hd : d.live? <;> simp [hd]
    rw [hlive] at hpending
    show history = siteHistory ++ pending { v with deliveries := v.deliveries ++ [d] }
    rw [hpending, hhistory, h.history, List.append_assoc]
  samples := h.samples
  requests := h.requests
  deliveries := by
    obtain ⟨settings, later, heq, hsettings, hlater⟩ := h.deliveries
    refine ⟨settings, later ++ [d], by rw [heq, List.append_assoc]; rfl, hsettings, ?_⟩
    intro d' hd'
    rcases List.mem_append.mp hd' with hd' | hd'
    · exact hlater d' hd'
    · rw [List.mem_singleton.mp hd']
      exact hd

/- The first message that is not a setting is the history. -/
theorem Awaiting.receive (h : v.Awaiting siteHistory) (hne : siteHistory ≠ []) {d : Delivery}
    {rest : List Delivery} (hd : v.deliveries = d :: rest) :
    Consistent siteHistory { v with deliveries := rest, samples := d.deliver v.samples } := by
  obtain ⟨settings, later, heq, hsettings, hlater⟩ := h.deliveries
  have hlive : ∀ d ∈ settings, d.live? = none := by
    intro d hd
    obtain ⟨value, rfl⟩ := hsettings d hd
    rfl
  have hpending : v.pending = later.filterMap Delivery.live? := by
    rw [pending, heq, List.filterMap_append, List.filterMap_eq_nil_iff.mpr hlive]
    rfl
  cases settings with
  | nil =>
    obtain ⟨rfl, rfl⟩ := List.cons.inj (hd.symm.trans heq)
    have hmerge : merge ((recent siteHistory).map asTaken) [] = (recent siteHistory).map asTaken := by
      have hne' : (recent siteHistory).map asTaken ≠ [] :=
        List.map_eq_nil_iff.not.mpr (recent_eq_nil_iff.not.mpr hne)
      rw [merge_eq hne']
      simp [before, behind]
    have hno : ∀ d ∈ rest, ∀ f t es, d ≠ .range f t es := by
      intro d hd f t es
      rcases hlater d hd with ⟨value, rfl⟩ | ⟨p, s, l, rfl⟩ <;> simp
    have hunder : ∀ f t, ¬ Underway
        { v with deliveries := rest, samples := Delivery.deliver v.samples (.history siteHistory) } f t := by
      intro f t hu
      rcases hu with hu | ⟨es, hes⟩
      · rw [show v.requests = [] from h.requests] at hu
        cases hu
      · exact hno _ hes f t es rfl
    have hsamples : Delivery.deliver v.samples (.history siteHistory) =
        [] ++ (recent siteHistory ++ siteHistory.getLast?.toList ++ []).map asTaken := by
      rw [h.samples, Delivery.deliver, hmerge, List.nil_append, List.append_nil, List.map_append]
    refine Or.inr ⟨[], [], ?_⟩
    constructor
    · exact h.sorted
    · show v.history = siteHistory ++ [] ++ rest.filterMap Delivery.live?
      rw [List.append_nil, ← hpending, h.history]
    · exact hsamples
    · intro d hd l
      rcases hlater d hd with ⟨value, rfl⟩ | ⟨p, s, l, rfl⟩ <;> simp
    · exact List.Pairwise.nil
    · simp
    · exact fun f t hu => absurd hu (hunder f t)
    · exact fun f t es hes => absurd rfl (hno _ hes f t es)
    · simp
    · intro e he hrecent
      have hsorted : (siteHistory ++ [] ++ v.pending).Pairwise fun (a b : Properties) => a.ts < b.ts := by
        rw [List.append_nil, ← h.history]
        exact h.sorted
      have hbound : ∀ r ∈ recent siteHistory, (e.ts.toNat : ℤ) + 1 ≤ r.ts.toNat := by
        intro r hr
        have hlt := UInt32.lt_iff_toNat_lt.mp (hrecent r hr)
        omega
      have hbefore : ∀ s ∈ Delivery.deliver v.samples (.history siteHistory), (e.ts.toNat : ℤ) < s.x := by
        intro s hs
        rw [hsamples, List.nil_append] at hs
        have hle := le_of_mem_exact hne hsorted hbound hs
        omega
      exact Or.inl hbefore
  | cons d' settings =>
    obtain ⟨rfl, rfl⟩ := List.cons.inj (hd.symm.trans heq)
    obtain ⟨value, rfl⟩ := hsettings d List.mem_cons_self
    refine Or.inl ⟨h.sorted, ?_, h.samples, h.requests, settings, later, rfl,
      fun d hd => hsettings d (List.mem_cons_of_mem _ hd), hlater⟩
    show v.history = siteHistory ++ (settings ++ .history siteHistory :: later).filterMap Delivery.live?
    rw [List.filterMap_append, List.filterMap_eq_nil_iff.mpr fun d hd =>
      hlive d (List.mem_cons_of_mem _ hd), h.history, hpending]
    rfl

end Awaiting

/-! ### Since the history has come -/

section Received
variable {siteHistory : List Properties} {v : HistoryView} {old : List Sample}
  {news : List Properties}

theorem Received.mem_history (h : v.Received siteHistory old news) {e : Properties}
    (he : e ∈ siteHistory) : e ∈ v.history := by
  rw [h.history]
  exact List.mem_append_left _ (List.mem_append_left _ he)

theorem Received.exact_ge (h : v.Received siteHistory old news) (hne : siteHistory ≠ []) {bound : ℤ}
    (hbound : ∀ r ∈ recent siteHistory, bound ≤ r.ts.toNat) {s : Sample}
    (hs : s ∈ (recent siteHistory ++ siteHistory.getLast?.toList ++ news).map asTaken) :
    bound ≤ s.x := by
  have hsorted := h.sorted
  rw [h.history] at hsorted
  exact le_of_mem_exact hne hsorted hbound hs

/- A reading that is later than all others is behind every range. -/
theorem Received.lt_of_later (h : v.Received siteHistory old news) (hne : siteHistory ≠ [])
    {p : Properties} (hp : ∀ e ∈ v.history, e.ts < p.ts) {fromTs toTs : ℤ} (hft : fromTs < toTs)
    (hbound : ∀ r ∈ recent siteHistory, toTs ≤ r.ts.toNat) :
    fromTs < p.ts.toNat ∧ toTs ≤ p.ts.toNat := by
  obtain ⟨r, hr⟩ := exists_mem_recent hne
  have hlt := UInt32.lt_iff_toNat_lt.mp (hp r (h.mem_history (mem_of_mem_recent hr)))
  have hle := hbound r hr
  omega

theorem Stale.snoc {history : List Properties} {p : Properties} {fromTs : ℤ}
    (h : Stale siteHistory history fromTs) (hne : siteHistory ≠ [])
    (hmem : ∀ e ∈ siteHistory, e ∈ history) (hp : ∀ e ∈ history, e.ts < p.ts) :
    Stale siteHistory (history ++ [p]) fromTs := by
  obtain ⟨r, hr⟩ := exists_mem_recent hne
  have hr' := hmem r (mem_of_mem_recent hr)
  have hlt := UInt32.lt_iff_toNat_lt.mp (hp r hr')
  rcases h with h | ⟨toTs, hft, hbound, h⟩
  · refine Or.inl fun e he => ?_
    rcases List.mem_append.mp he with he | he
    · exact h e he
    · rw [List.mem_singleton.mp he]
      have hr := h r hr'
      omega
  · refine Or.inr ⟨toTs, hft, hbound, fun e he => ?_⟩
    rcases List.mem_append.mp he with he | he
    · exact h e he
    · rw [List.mem_singleton.mp he]
      have hr := hbound r hr
      omega

/- What is sent without being asked for. -/
theorem Received.send (h : v.Received siteHistory old news) (hne : siteHistory ≠ []) {d : Delivery}
    {later : List Properties} (hd : (∃ value, d = .settings value) ∨ ∃ p s l, d = .live p s l)
    (hlater : later = d.live?.toList) (hp : ∀ p ∈ later, ∀ e ∈ v.history, e.ts < p.ts) :
    Received siteHistory { v with
      history := v.history ++ later, deliveries := v.deliveries ++ [d] } old news := by
  have hrange : ∀ f t es, d ≠ .range f t es := by
    rcases hd with ⟨value, rfl⟩ | ⟨p, s, l, rfl⟩ <;> exact nofun
  have hunder : ∀ f t, Underway { v with
      history := v.history ++ later, deliveries := v.deliveries ++ [d] } f t ↔ v.Underway f t := by
    intro f t
    unfold Underway
    simp only [List.mem_append, List.mem_singleton, (hrange f t _).symm, or_false]
  have hcases : later = [] ∨ ∃ p, later = [p] := by
    rw [hlater]
    cases d.live? with
    | none => exact Or.inl rfl
    | some p => exact Or.inr ⟨p, rfl⟩
  have hrequested : ∀ f t, v.Underway f t →
      requested (v.history ++ later) f t = requested v.history f t := by
    intro f t hu
    rcases hcases with rfl | ⟨p, rfl⟩
    · rw [List.append_nil]
    · obtain ⟨-, hft, hbound, -⟩ := h.bounds f t hu
      have hlt : f < t := by omega
      have hlater := h.lt_of_later hne (hp p (by simp)) hlt hbound
      exact requested_snoc hlater.1 hlater.2
  constructor
  · refine List.pairwise_append.mpr ⟨h.sorted, ?_, fun e he p hp' => hp p hp' e he⟩
    rcases hcases with rfl | ⟨p, rfl⟩
    · exact List.Pairwise.nil
    · exact List.pairwise_singleton ..
  · have hlive : [d].filterMap Delivery.live? = later := by
      rw [hlater]
      cases hd : d.live? <;> simp [hd]
    show v.history ++ later = siteHistory ++ news ++ (v.deliveries ++ [d]).filterMap Delivery.live?
    rw [List.filterMap_append, hlive, ← List.append_assoc]
    exact congrArg (· ++ later) h.history
  · exact h.samples
  · intro d' hd' l
    rcases List.mem_append.mp hd' with hd' | hd'
    · exact h.noHistory d' hd' l
    · rw [List.mem_singleton.mp hd']
      rcases hd with ⟨value, rfl⟩ | ⟨p, s, l, rfl⟩ <;> exact nofun
  · exact h.ascending
  · exact h.older
  · exact fun f t hu => h.bounds f t ((hunder f t).mp hu)
  · intro f t es hes
    rcases List.mem_append.mp hes with hes | hes
    · rw [hrequested f t (Or.inr ⟨es, hes⟩)]
      exact h.ranges f t es hes
    · exact absurd (List.mem_singleton.mp hes).symm (hrange f t es)
  · intro s hs
    rcases h.shown s hs with ⟨e, he, hse⟩ | ⟨f, hsf, hf⟩
    · exact Or.inl ⟨e, List.mem_append_left _ he, hse⟩
    · refine Or.inr ⟨f, hsf, ?_⟩
      rcases hf with ⟨t, ht⟩ | hstale
      · exact Or.inl ⟨t, (hunder f t).mpr ht⟩
      · rcases hcases with rfl | ⟨p, rfl⟩
        · rw [List.append_nil]
          exact Or.inr hstale
        · exact Or.inr (hstale.snoc hne (fun e he => h.mem_history he) (hp p (by simp)))
  · intro e he hrecent
    rcases List.mem_append.mp he with he | he
    · rcases h.covered e he hrecent with hbefore | hamong | ⟨f, t, hu, hmem⟩
      · exact Or.inl hbefore
      · exact Or.inr (Or.inl hamong)
      · refine Or.inr (Or.inr ⟨f, t, (hunder f t).mpr hu, ?_⟩)
        rw [hrequested f t hu]
        exact hmem
    · obtain ⟨r, hr⟩ := exists_mem_recent hne
      have hlt := hp e he r (h.mem_history (mem_of_mem_recent hr))
      exact absurd (hrecent r hr) (UInt32.lt_asymm hlt)

/- A range without readings leaves a zero that nothing will replace. -/
theorem Received.stale_of_requested_eq_nil (h : v.Received siteHistory old news) {fromTs toTs : ℤ}
    (hft : fromTs < toTs) (hnil : requested v.history fromTs toTs = []) :
    Stale siteHistory v.history fromTs := by
  refine Or.inl fun e he => ?_
  by_contra hle
  obtain ⟨e', he', -⟩ := exists_mem_requested_le h.sorted hft he (not_lt.mp hle)
  rw [hnil] at he'
  cases he'

theorem Received.serve (h : v.Received siteHistory old news) {fromTs toTs : ℤ}
    {rest : List (ℤ × ℤ)} (hreq : v.requests = (fromTs, toTs) :: rest) :
    Received siteHistory { v with
      requests := rest, deliveries := v.deliveries ++ answer v.history fromTs toTs } old news := by
  have hu : v.Underway fromTs toTs := Or.inl (by rw [hreq]; exact List.mem_cons_self)
  obtain ⟨-, hft, -, -⟩ := h.bounds fromTs toTs hu
  have hanswer : ∀ d ∈ answer v.history fromTs toTs, requested v.history fromTs toTs ≠ [] ∧
      d = .range fromTs toTs (requested v.history fromTs toTs) := by
    intro d hd
    unfold answer at hd
    split_ifs at hd with hnil
    · cases hd
    · exact ⟨hnil, List.mem_singleton.mp hd⟩
  have hunder : ∀ f t, Underway { v with
      requests := rest, deliveries := v.deliveries ++ answer v.history fromTs toTs } f t →
      v.Underway f t := by
    intro f t hu'
    rcases hu' with hr | ⟨es, hes⟩
    · exact Or.inl (by rw [hreq]; exact List.mem_cons_of_mem _ hr)
    · rcases List.mem_append.mp hes with hes | hes
      · exact Or.inr ⟨es, hes⟩
      · obtain ⟨rfl, rfl, -⟩ := Delivery.range.inj (hanswer _ hes).2
        exact hu
  -- the request that is taken is answered, unless there is nothing to answer it with
  have hkeep : ∀ f t, v.Underway f t → Underway { v with
      requests := rest, deliveries := v.deliveries ++ answer v.history fromTs toTs } f t ∨
      (f = fromTs ∧ t = toTs ∧ requested v.history f t = []) := by
    intro f t hu'
    rcases hu' with hr | ⟨es, hes⟩
    · rw [hreq] at hr
      rcases List.mem_cons.mp hr with heq | hr
      · obtain ⟨rfl, rfl⟩ := Prod.mk.inj heq
        by_cases hnil : requested v.history f t = []
        · exact Or.inr ⟨rfl, rfl, hnil⟩
        · refine Or.inl (Or.inr ⟨requested v.history f t, List.mem_append_right _ ?_⟩)
          rw [answer, if_neg hnil]
          exact List.mem_singleton_self _
      · exact Or.inl (Or.inl hr)
    · exact Or.inl (Or.inr ⟨es, List.mem_append_left _ hes⟩)
  constructor
  · exact h.sorted
  · have hlive : (answer v.history fromTs toTs).filterMap Delivery.live? = [] := by
      refine List.filterMap_eq_nil_iff.mpr fun d hd => ?_
      rw [(hanswer d hd).2]
      rfl
    show v.history = siteHistory ++ news ++
      (v.deliveries ++ answer v.history fromTs toTs).filterMap Delivery.live?
    rw [List.filterMap_append, hlive, List.append_nil]
    exact h.history
  · exact h.samples
  · intro d hd l
    rcases List.mem_append.mp hd with hd | hd
    · exact h.noHistory d hd l
    · rw [(hanswer d hd).2]
      exact nofun
  · exact h.ascending
  · exact h.older
  · exact fun f t hu' => h.bounds f t (hunder f t hu')
  · intro f t es hes
    rcases List.mem_append.mp hes with hes | hes
    · exact h.ranges f t es hes
    · obtain ⟨hne, heq⟩ := hanswer _ hes
      obtain ⟨rfl, rfl, rfl⟩ := Delivery.range.inj heq
      exact ⟨hne, rfl⟩
  · intro s hs
    rcases h.shown s hs with he | ⟨f, hsf, ⟨t, ht⟩ | hstale⟩
    · exact Or.inl he
    · refine Or.inr ⟨f, hsf, ?_⟩
      rcases hkeep f t ht with hu' | ⟨rfl, rfl, hnil⟩
      · exact Or.inl ⟨t, hu'⟩
      · exact Or.inr (h.stale_of_requested_eq_nil (by omega) hnil)
    · exact Or.inr ⟨f, hsf, Or.inr hstale⟩
  · intro e he hrecent
    rcases h.covered e he hrecent with hbefore | hamong | ⟨f, t, hu', hmem⟩
    · exact Or.inl hbefore
    · exact Or.inr (Or.inl hamong)
    · rcases hkeep f t hu' with hu' | ⟨-, -, hnil⟩
      · exact Or.inr (Or.inr ⟨f, t, hu', hmem⟩)
      · rw [hnil] at hmem
        cases hmem

theorem Received.receive_settings (h : v.Received siteHistory old news) {value : ℤ}
    {rest : List Delivery} (hd : v.deliveries = .settings value :: rest) :
    Received siteHistory { v with deliveries := rest } old news := by
  have hunder : ∀ f t, Underway { v with deliveries := rest } f t ↔ v.Underway f t := by
    intro f t
    unfold Underway
    rw [hd]
    simp
  have hmem : ∀ d ∈ rest, d ∈ v.deliveries := fun d hd' => by
    rw [hd]
    exact List.mem_cons_of_mem _ hd'
  constructor
  · exact h.sorted
  · have hpending : v.pending = rest.filterMap Delivery.live? := by
      rw [pending, hd]
      rfl
    exact h.history.trans (congrArg (siteHistory ++ news ++ ·) hpending)
  · exact h.samples
  · exact fun d hd' => h.noHistory d (hmem d hd')
  · exact h.ascending
  · exact h.older
  · exact fun f t hu => h.bounds f t ((hunder f t).mp hu)
  · exact fun f t es hes => h.ranges f t es (hmem _ hes)
  · intro s hs
    refine (h.shown s hs).imp_right fun ⟨f, hsf, hf⟩ => ⟨f, hsf, hf.imp_left ?_⟩
    exact fun ⟨t, ht⟩ => ⟨t, (hunder f t).mpr ht⟩
  · intro e he hrecent
    refine (h.covered e he hrecent).imp_right fun hc => hc.imp_right ?_
    exact fun ⟨f, t, hu, hmem⟩ => ⟨f, t, (hunder f t).mpr hu, hmem⟩

/- A reading that comes by itself is later than all samples. -/
theorem Received.receive_live (h : v.Received siteHistory old news) (hne : siteHistory ≠ [])
    {p : Properties} {shortTerm longTerm : ℤ} {rest : List Delivery}
    (hd : v.deliveries = .live p shortTerm longTerm :: rest) :
    Received siteHistory { v with deliveries := rest, samples := v.samples ++ [asTaken p] } old
      (news ++ [p]) := by
  have hpending : v.pending = p :: rest.filterMap Delivery.live? := by
    rw [pending, hd]
    rfl
  have hhistory : v.history = siteHistory ++ (news ++ [p]) ++ rest.filterMap Delivery.live? := by
    rw [h.history, hpending]
    simp
  have hunder : ∀ f t, Underway
      { v with deliveries := rest, samples := v.samples ++ [asTaken p] } f t ↔ v.Underway f t := by
    intro f t
    unfold Underway
    rw [hd]
    simp
  have hmem : ∀ d ∈ rest, d ∈ v.deliveries := fun d hd' => by
    rw [hd]
    exact List.mem_cons_of_mem _ hd'
  constructor
  · exact h.sorted
  · exact hhistory
  · show v.samples ++ [asTaken p] = _
    rw [h.samples]
    simp
  · exact fun d hd' => h.noHistory d (hmem d hd')
  · exact h.ascending
  · exact h.older
  · intro f t hu
    obtain ⟨hf, hft, hbound, s, hs, hle⟩ := h.bounds f t ((hunder f t).mp hu)
    exact ⟨hf, hft, hbound, s, List.mem_append_left _ hs, hle⟩
  · exact fun f t es hes => h.ranges f t es (hmem _ hes)
  · intro s hs
    refine (h.shown s hs).imp_right fun ⟨f, hsf, hf⟩ => ⟨f, hsf, hf.imp_left ?_⟩
    exact fun ⟨t, ht⟩ => ⟨t, (hunder f t).mpr ht⟩
  · intro e he hrecent
    rcases h.covered e he hrecent with hbefore | ⟨s, hs, hse⟩ | ⟨f, t, hu, hmem⟩
    · refine Or.inl fun s hs => ?_
      rcases List.mem_append.mp hs with hs | hs
      · exact hbefore s hs
      · obtain ⟨r, hr⟩ := exists_mem_recent hne
        have hsorted := h.sorted
        rw [hhistory, List.append_assoc] at hsorted
        have hlt := (List.pairwise_append.mp hsorted).2.2 r (mem_of_mem_recent hr) p (by simp)
        have hlt' := hrecent r hr
        rw [List.mem_singleton.mp hs]
        show (e.ts.toNat : ℤ) < p.ts.toNat
        exact_mod_cast (UInt32.lt_iff_toNat_lt.mp hlt').trans (UInt32.lt_iff_toNat_lt.mp hlt)
    · exact Or.inr (Or.inl ⟨s, List.mem_append_left _ hs, hse⟩)
    · exact Or.inr (Or.inr ⟨f, t, (hunder f t).mpr hu, hmem⟩)

/- The readings of a range replace what was between the first and the last of them. -/
theorem Received.receive_range (h : v.Received siteHistory old news) (hne : siteHistory ≠ [])
    {fromTs toTs : ℤ} {entries : List Properties} {rest : List Delivery}
    (hd : v.deliveries = .range fromTs toTs entries :: rest) :
    Received siteHistory
      { v with deliveries := rest, samples := merge (entries.map inTens) v.samples }
      (merge (entries.map inTens) old) news := by
  have hmemd : ∀ d ∈ rest, d ∈ v.deliveries := fun d hd' => by
    rw [hd]
    exact List.mem_cons_of_mem _ hd'
  have hin : .range fromTs toTs entries ∈ v.deliveries := by
    rw [hd]
    exact List.mem_cons_self
  obtain ⟨hentries, hreq⟩ := h.ranges fromTs toTs entries hin
  obtain ⟨hfrom, hft, hbound, early, hearly, hle⟩ := h.bounds fromTs toTs (Or.inr ⟨entries, hin⟩)
  have hnew : entries.map inTens ≠ [] := List.map_eq_nil_iff.not.mpr hentries
  have hrange : ∀ e, e ∈ entries ↔ e ∈ v.history ∧ (∀ y ∈ v.history, (y.ts.toNat : ℤ) ≤ fromTs →
      (y.ts.toNat : ℤ) ≤ e.ts.toNat) ∧ (e.ts.toNat : ℤ) < toTs := by
    intro e
    rw [hreq]
    exact mem_requested_iff
  have hascending : Ascending (entries.map inTens) := by
    rw [hreq]
    refine List.pairwise_map.mpr ((requested_pairwise h.sorted fromTs toTs).imp fun {a b} hab => ?_)
    show (a.ts.toNat : ℤ) < b.ts.toNat
    exact_mod_cast UInt32.lt_iff_toNat_lt.mp hab
  -- the first and the last reading of the range
  obtain ⟨first, hfirst, hfirstx⟩ := List.mem_map.mp (List.head_mem hnew)
  obtain ⟨last, hlast, hlastx⟩ := List.mem_map.mp (List.getLast_mem hnew)
  have hbounds : ∀ e ∈ entries, (first.ts.toNat : ℤ) ≤ e.ts.toNat ∧
      (e.ts.toNat : ℤ) ≤ last.ts.toNat := by
    intro e he
    have hb := head_le_of_ascending hascending hnew (List.mem_map_of_mem (f := inTens) he)
    rw [← hfirstx, ← hlastx] at hb
    exact hb
  have hmerged : ∀ s, s ∈ merge (entries.map inTens) old ↔ s ∈ entries.map inTens ∨
      s ∈ old ∧ (s.x < first.ts.toNat ∨ (last.ts.toNat : ℤ) < s.x) := by
    intro s
    rw [mem_merge_iff hnew, ← hfirstx, ← hlastx]
    rfl
  have hwithin : ∀ e ∈ v.history, (first.ts.toNat : ℤ) ≤ e.ts.toNat →
      (e.ts.toNat : ℤ) ≤ last.ts.toNat → e ∈ entries := by
    intro e he hfe hel
    have hfirst' := (hrange first).mp hfirst
    have hlast' := (hrange last).mp hlast
    exact (hrange e).mpr ⟨he, fun y hy hyf => (hfirst'.2.1 y hy hyf).trans hfe, by omega⟩
  have hsplit : merge (entries.map inTens) v.samples = merge (entries.map inTens) old ++
      (recent siteHistory ++ siteHistory.getLast?.toList ++ news).map asTaken := by
    rw [h.samples]
    refine merge_append hnew fun s hs t ht => ?_
    obtain ⟨e, he, rfl⟩ := List.mem_map.mp hs
    have hlt : (e.ts.toNat : ℤ) < toTs := ((hrange e).mp he).2.2
    exact hlt.trans_le (h.exact_ge hne hbound ht)
  have hkept : ∀ s ∈ v.samples, s ∈ merge (entries.map inTens) v.samples ∨
      (first.ts.toNat : ℤ) ≤ s.x ∧ s.x ≤ last.ts.toNat := by
    intro s hs
    rw [hsplit, List.mem_append]
    rw [h.samples] at hs
    rcases List.mem_append.mp hs with hs | hs
    · by_cases hout : s.x < first.ts.toNat ∨ (last.ts.toNat : ℤ) < s.x
      · exact Or.inl (Or.inl ((hmerged s).mpr (Or.inr ⟨hs, hout⟩)))
      · exact Or.inr (by omega)
    · exact Or.inl (Or.inr hs)
  have hshown : ∀ e ∈ entries, inTens e ∈ merge (entries.map inTens) v.samples := by
    intro e he
    rw [hsplit]
    exact List.mem_append_left _ ((hmerged _).mpr (Or.inl (List.mem_map_of_mem he)))
  have hunder : ∀ f t, Underway
      { v with deliveries := rest, samples := merge (entries.map inTens) v.samples } f t →
      v.Underway f t := by
    intro f t hu
    exact hu.imp_right fun ⟨es, hes⟩ => ⟨es, hmemd _ hes⟩
  have hgone : ∀ f t, v.Underway f t → Underway
      { v with deliveries := rest, samples := merge (entries.map inTens) v.samples } f t ∨
      (f = fromTs ∧ t = toTs) := by
    intro f t hu
    rcases hu with hu | ⟨es, hes⟩
    · exact Or.inl (Or.inl hu)
    · rw [hd] at hes
      rcases List.mem_cons.mp hes with heq | hes
      · obtain ⟨rfl, rfl, -⟩ := Delivery.range.inj heq
        exact Or.inr ⟨rfl, rfl⟩
      · exact Or.inl (Or.inr ⟨es, hes⟩)
  constructor
  · exact h.sorted
  · have hpending : v.pending = rest.filterMap Delivery.live? := by
      rw [pending, hd]
      rfl
    exact h.history.trans (congrArg (siteHistory ++ news ++ ·) hpending)
  · exact hsplit
  · exact fun d hd' => h.noHistory d (hmemd d hd')
  · exact merge_ascending hascending h.ascending
  · intro s hs r hr
    rcases (hmerged s).mp hs with hs | ⟨hs, -⟩
    · obtain ⟨e, he, rfl⟩ := List.mem_map.mp hs
      exact ((hrange e).mp he).2.2.trans_le (hbound r hr)
    · exact h.older s hs r hr
  · intro f t hu
    obtain ⟨hf, hft', hbound', s, hs, hsf⟩ := h.bounds f t (hunder f t hu)
    refine ⟨hf, hft', hbound', ?_⟩
    rcases hkept s hs with hs | ⟨hfs, -⟩
    · exact ⟨s, hs, hsf⟩
    · exact ⟨inTens first, hshown first hfirst, hfs.trans hsf⟩
  · exact fun f t es hes => h.ranges f t es (hmemd _ hes)
  · intro s hs
    rcases (hmerged s).mp hs with hs | ⟨hs, hout⟩
    · obtain ⟨e, he, rfl⟩ := List.mem_map.mp hs
      exact Or.inl ⟨e, ((hrange e).mp he).1, rfl⟩
    · rcases h.shown s hs with he | ⟨f, rfl, ⟨t, ht⟩ | hstale⟩
      · exact Or.inl he
      · refine Or.inr ⟨f, rfl, ?_⟩
        rcases hgone f t ht with hu | ⟨rfl, rfl⟩
        · exact Or.inl ⟨t, hu⟩
        · refine Or.inr ?_
          rcases hout with hbefore | hbehind
          · refine Or.inl fun e he => ?_
            by_contra hnot
            have hlt : f < t := by omega
            obtain ⟨e', he', hef⟩ := exists_mem_requested_le h.sorted hlt he (not_lt.mp hnot)
            have hfe := (hbounds e' (hreq ▸ he')).1
            have hzero : f < first.ts.toNat := hbefore
            omega
          · refine Or.inr ⟨t, hft, hbound, fun e he => ?_⟩
            by_contra hnot
            have hzero : (last.ts.toNat : ℤ) < f := hbehind
            have hmem : e ∈ entries :=
              (hrange e).mpr ⟨he, fun y hy hyf => by omega, by omega⟩
            have hel := (hbounds e hmem).2
            omega
      · exact Or.inr ⟨f, rfl, Or.inr hstale⟩
  · intro e he hrecent
    rcases h.covered e he hrecent with hbefore | ⟨s, hs, hse⟩ | ⟨f, t, hu, hmem⟩
    · by_cases hfe : (first.ts.toNat : ℤ) ≤ e.ts.toNat
      · -- not after `fromTs`, so that it is the first of the range at most
        have hef : (e.ts.toNat : ℤ) ≤ fromTs := by
          have hlt := hbefore early hearly
          omega
        have hlef := ((hrange first).mp hfirst).2.1 e he hef
        exact Or.inr (Or.inl ⟨inTens first, hshown first hfirst, by show (first.ts.toNat : ℤ) = _; omega⟩)
      · refine Or.inl fun s hs => ?_
        have hs' : s ∈ merge (entries.map inTens) v.samples := hs
        rw [hsplit, List.mem_append, hmerged] at hs'
        rcases hs' with (hs | ⟨hs, -⟩) | hs
        · obtain ⟨e', he', rfl⟩ := List.mem_map.mp hs
          have hfe' := (hbounds e' he').1
          show (e.ts.toNat : ℤ) < e'.ts.toNat
          omega
        · exact hbefore s (by rw [h.samples]; exact List.mem_append_left _ hs)
        · exact hbefore s (by rw [h.samples]; exact List.mem_append_right _ hs)
    · refine Or.inr (Or.inl ?_)
      rcases hkept s hs with hs | ⟨hfs, hsl⟩
      · exact ⟨s, hs, hse⟩
      · have hmem := hwithin e he (by omega) (by omega)
        exact ⟨inTens e, hshown e hmem, rfl⟩
    · rcases hgone f t hu with hu | ⟨rfl, rfl⟩
      · exact Or.inr (Or.inr ⟨f, t, hu, hmem⟩)
      · exact Or.inr (Or.inl ⟨inTens e, hshown e (hreq ▸ hmem), rfl⟩)

theorem Received.receive (h : v.Received siteHistory old news) (hne : siteHistory ≠ [])
    {d : Delivery} {rest : List Delivery} (hd : v.deliveries = d :: rest) :
    Consistent siteHistory { v with deliveries := rest, samples := d.deliver v.samples } := by
  cases d with
  | settings value => exact Or.inr ⟨old, news, h.receive_settings hd⟩
  | history l => exact absurd rfl (h.noHistory _ (by rw [hd]; exact List.mem_cons_self) l)
  | live p shortTerm longTerm => exact Or.inr ⟨old, news ++ [p], h.receive_live hne hd⟩
  | range fromTs toTs entries => exact Or.inr ⟨_, news, h.receive_range hne hd⟩

/- The zero comes before all samples, and the readings between are asked for. -/
theorem Received.drag (h : v.Received siteHistory old news) (hne : siteHistory ≠ []) {fromTs : ℤ}
    {first : Sample} {rest : List Sample} (hsamples : v.samples = first :: rest)
    (hnonneg : 0 ≤ fromTs) (hfrom : fromTs + 121 ≤ first.x) :
    Received siteHistory { v with
      requests := v.requests ++ [(fromTs, first.x)], samples := zero fromTs :: v.samples }
      (zero fromTs :: old) news := by
  have hle : ∀ s ∈ v.samples, first.x ≤ s.x := by
    -- the first sample is an old one, or there is none
    have hparts := h.samples
    cases hold : old with
    | cons s₀ old' =>
      have hfirst : first = s₀ := by
        rw [hsamples, hold] at hparts
        exact (List.cons.inj hparts).1
      subst hfirst
      have hasc := h.ascending
      rw [hold] at hasc
      intro s hs
      rw [h.samples, hold] at hs
      rcases List.mem_append.mp hs with hs | hs
      · rcases List.mem_cons.mp hs with rfl | hs
        · exact le_rfl
        · exact (List.rel_of_pairwise_cons hasc hs).le
      · refine h.exact_ge hne (fun r hr => ?_) hs
        exact (h.older first (by rw [hold]; exact List.mem_cons_self) r hr).le
    | nil =>
      rw [hold, List.nil_append] at hparts
      obtain ⟨r₀, rs, hrs⟩ := List.exists_cons_of_ne_nil (recent_eq_nil_iff.not.mpr hne)
      have hfirst : first = asTaken r₀ := by
        rw [hsamples, hrs] at hparts
        exact (List.cons.inj hparts).1
      have hsorted : (recent siteHistory).Pairwise fun a b => a.ts < b.ts := by
        have hs := h.sorted
        rw [h.history] at hs
        exact ((List.pairwise_append.mp (List.pairwise_append.mp hs).1).1).sublist
          (List.drop_sublist _ _)
      intro s hs
      rw [hparts] at hs
      refine h.exact_ge hne (fun r hr => ?_) hs
      rw [hfirst]
      rw [hrs] at hr hsorted
      show (r₀.ts.toNat : ℤ) ≤ r.ts.toNat
      rcases List.mem_cons.mp hr with rfl | hr
      · exact le_rfl
      · exact_mod_cast (UInt32.lt_iff_toNat_lt.mp (List.rel_of_pairwise_cons hsorted hr)).le
  have hfirst : first ∈ v.samples := by
    rw [hsamples]
    exact List.mem_cons_self
  have hbound : ∀ r ∈ recent siteHistory, first.x ≤ r.ts.toNat := by
    intro r hr
    refine hle (asTaken r) ?_
    rw [h.samples]
    refine List.mem_append_right _ (List.mem_map_of_mem (f := asTaken) ?_)
    exact List.mem_append_left _ (List.mem_append_left _ hr)
  have hunder : ∀ f t, Underway { v with
      requests := v.requests ++ [(fromTs, first.x)], samples := zero fromTs :: v.samples } f t ↔
      v.Underway f t ∨ (f = fromTs ∧ t = first.x) := by
    intro f t
    unfold Underway
    simp only [List.mem_append, List.mem_singleton, Prod.mk.injEq]
    tauto
  have hmem : ∀ s ∈ old, s ∈ v.samples := fun s hs => by
    rw [h.samples]
    exact List.mem_append_left _ hs
  constructor
  · exact h.sorted
  · exact h.history
  · show zero fromTs :: v.samples = _
    rw [h.samples]
    rfl
  · exact h.noHistory
  · refine List.pairwise_cons.mpr ⟨fun s hs => ?_, h.ascending⟩
    have hfs := hle s (hmem s hs)
    show fromTs < s.x
    omega
  · intro s hs r hr
    rcases List.mem_cons.mp hs with rfl | hs
    · have hb := hbound r hr
      show fromTs < r.ts.toNat
      omega
    · exact h.older s hs r hr
  · intro f t hu
    rcases (hunder f t).mp hu with hu | ⟨rfl, rfl⟩
    · obtain ⟨hf, hft, hb, s, hs, hsf⟩ := h.bounds f t hu
      exact ⟨hf, hft, hb, s, List.mem_cons_of_mem _ hs, hsf⟩
    · exact ⟨hnonneg, hfrom, hbound, zero f, List.mem_cons_self, le_rfl⟩
  · exact h.ranges
  · intro s hs
    rcases List.mem_cons.mp hs with rfl | hs
    · exact Or.inr ⟨fromTs, rfl, Or.inl ⟨first.x, (hunder _ _).mpr (Or.inr ⟨rfl, rfl⟩)⟩⟩
    · refine (h.shown s hs).imp_right fun ⟨f, hsf, hf⟩ => ⟨f, hsf, hf.imp_left ?_⟩
      exact fun ⟨t, ht⟩ => ⟨t, (hunder f t).mpr (Or.inl ht)⟩
  · intro e he hrecent
    rcases h.covered e he hrecent with hbefore | ⟨s, hs, hse⟩ | ⟨f, t, hu, hmem⟩
    · by_cases hef : (e.ts.toNat : ℤ) < fromTs
      · refine Or.inl fun s hs => ?_
        rcases List.mem_cons.mp hs with rfl | hs
        · exact hef
        · exact hbefore s hs
      · refine Or.inr (Or.inr ⟨fromTs, first.x, (hunder _ _).mpr (Or.inr ⟨rfl, rfl⟩), ?_⟩)
        exact mem_requested_iff.mpr ⟨he, fun y hy hyf => by omega, hbefore first hfirst⟩
    · exact Or.inr (Or.inl ⟨s, List.mem_cons_of_mem _ hs, hse⟩)
    · exact Or.inr (Or.inr ⟨f, t, (hunder f t).mpr (Or.inl hu), hmem⟩)

end Received

/- Every step keeps it. -/
theorem Step.consistent {siteHistory : List Properties} (hne : siteHistory ≠ [])
    {v v' : HistoryView} (hs : Step v v') (h : v.Consistent siteHistory) :
    v'.Consistent siteHistory := by
  cases hs with
  | site p shortTerm longTerm hp =>
    rcases h with h | ⟨old, news, h⟩
    · refine Or.inl (h.send (d := .live p shortTerm longTerm)
        (Or.inr ⟨p, shortTerm, longTerm, rfl⟩) ?_ rfl)
      exact List.pairwise_append.mpr ⟨h.sorted, List.pairwise_singleton .., fun e he q hq => by
        rw [List.mem_singleton.mp hq]
        exact hp e he⟩
    · exact Or.inr ⟨old, news, h.send hne (Or.inr ⟨p, shortTerm, longTerm, rfl⟩) rfl
        fun q hq => by rw [List.mem_singleton.mp hq]; exact hp⟩
  | thingInterval value =>
    rcases h with h | ⟨old, news, h⟩
    · exact Or.inl (h.send (Or.inl ⟨value, rfl⟩) h.sorted (List.append_nil _).symm)
    · have hsend : Received siteHistory { v with
          history := v.history ++ [], deliveries := v.deliveries ++ [.settings value] } old news :=
        h.send hne (Or.inl ⟨value, rfl⟩) rfl fun q hq => (nomatch hq)
      rw [List.append_nil] at hsend
      exact Or.inr ⟨old, news, hsend⟩
  | serve hreq =>
    rcases h with h | ⟨old, news, h⟩
    · rw [h.requests] at hreq
      cases hreq
    · exact Or.inr ⟨old, news, h.serve hreq⟩
  | receive hd =>
    rcases h with h | ⟨old, news, h⟩
    · exact h.receive hne hd
    · exact h.receive hne hd
  | drag hsamples hnonneg hfrom =>
    rcases h with h | ⟨old, news, h⟩
    · rw [h.samples] at hsamples
      cases hsamples
    · exact Or.inr ⟨_, news, h.drag hne hsamples hnonneg hfrom⟩

/-! ### What the samples are -/

section Samples
variable {siteHistory : List Properties} {v : HistoryView} {old : List Sample}
  {news : List Properties}

theorem ts_le_getLast {entries : List Properties} (hsorted : entries.Pairwise fun a b => a.ts < b.ts)
    {last : Properties} (hlast : last ∈ entries.getLast?) {e : Properties} (he : e ∈ entries) :
    (e.ts.toNat : ℤ) ≤ last.ts.toNat := by
  obtain ⟨init, rfl⟩ := List.getLast?_eq_some_iff.mp hlast
  rcases List.mem_append.mp he with he | he
  · have hlt := (List.pairwise_append.mp hsorted).2.2 e he last (List.mem_singleton_self _)
    exact_mod_cast (UInt32.lt_iff_toNat_lt.mp hlt).le
  · rw [List.mem_singleton.mp he]

theorem Received.sorted_samples (h : v.Received siteHistory old news) (hne : siteHistory ≠ []) :
    Sorted Sample.x v.samples := by
  have hsorted := h.sorted
  rw [h.history, List.append_assoc] at hsorted
  have hstart := (List.pairwise_append.mp hsorted).1
  have hnews := (List.pairwise_append.mp (List.pairwise_append.mp hsorted).2.1).1
  have hrecent : (recent siteHistory).Pairwise fun a b => a.ts < b.ts :=
    hstart.sublist (List.drop_sublist _ _)
  have hle : ∀ {a b : Properties}, a.ts < b.ts → (asTaken a).x ≤ (asTaken b).x := by
    intro a b hab
    show (a.ts.toNat : ℤ) ≤ b.ts.toNat
    exact_mod_cast (UInt32.lt_iff_toNat_lt.mp hab).le
  have hlast : ∀ l ∈ siteHistory.getLast?, ∀ e ∈ recent siteHistory, (asTaken e).x ≤ (asTaken l).x := by
    intro l hl e he
    rw [← getLast?_recent hne] at hl
    exact ts_le_getLast hrecent hl he
  have hbehind : ∀ e ∈ siteHistory, ∀ p ∈ news, (asTaken e).x ≤ (asTaken p).x := by
    intro e he p hp
    exact hle ((List.pairwise_append.mp hsorted).2.2 e he p (List.mem_append_left _ hp))
  rw [h.samples]
  refine List.pairwise_append.mpr ⟨h.ascending.sorted, List.pairwise_map.mpr ?_, ?_⟩
  · refine List.pairwise_append.mpr ⟨List.pairwise_append.mpr ⟨hrecent.imp hle, ?_, ?_⟩,
      hnews.imp hle, ?_⟩
    · cases siteHistory.getLast? with
      | none => exact List.Pairwise.nil
      | some l => exact List.pairwise_singleton ..
    · intro e he l hl
      exact hlast l (Option.mem_toList.mp hl) e he
    · intro e he p hp
      refine hbehind e ?_ p hp
      rcases List.mem_append.mp he with he | he
      · exact mem_of_mem_recent he
      · exact List.mem_of_getLast? (Option.mem_toList.mp he)
  · intro s hs t ht
    exact h.exact_ge hne (fun r hr => (h.older s hs r hr).le) ht

theorem Consistent.sorted_samples (h : v.Consistent siteHistory) (hne : siteHistory ≠ []) :
    Sorted Sample.x v.samples := by
  rcases h with h | ⟨old, news, h⟩
  · rw [h.samples]
    exact List.Pairwise.nil
  · exact h.sorted_samples hne

/- With nothing under way no reading is missing. -/
theorem Received.complete (h : v.Received siteHistory old news) (hne : siteHistory ≠ [])
    (hrequests : v.requests = []) (hdeliveries : v.deliveries = []) {e : Properties}
    (he : e ∈ v.history) (hrecent : ∀ r ∈ recent siteHistory, e.ts < r.ts)
    (hafter : ∃ s ∈ v.samples, s.x ≤ e.ts.toNat) : inTens e ∈ old := by
  have hrest : ∀ f t, ¬ v.Underway f t := by
    rintro f t (hu | ⟨es, hes⟩)
    · rw [hrequests] at hu
      cases hu
    · rw [hdeliveries] at hes
      cases hes
  rcases h.covered e he hrecent with hbefore | ⟨s, hs, hse⟩ | ⟨f, t, hu, -⟩
  · obtain ⟨s, hs, hle⟩ := hafter
    have hlt := hbefore s hs
    omega
  · have hold : s ∈ old := by
      rw [h.samples] at hs
      refine (List.mem_append.mp hs).resolve_right fun hs' => ?_
      have hbound : ∀ r ∈ recent siteHistory, (e.ts.toNat : ℤ) + 1 ≤ r.ts.toNat := by
        intro r hr
        have hlt := UInt32.lt_iff_toNat_lt.mp (hrecent r hr)
        omega
      have hge := h.exact_ge hne hbound hs'
      omega
    rcases h.shown s hold with ⟨e', he', rfl⟩ | ⟨f, rfl, ⟨t, ht⟩ | hstale⟩
    · -- there is one reading for a time
      have hts : (e'.ts.toNat : ℤ) = e.ts.toNat := hse
      have hsymm : Std.Symm fun a b : Properties => a.ts ≠ b.ts := ⟨fun _ _ hab => hab.symm⟩
      have hdistinct : v.history.Pairwise fun a b => a.ts ≠ b.ts :=
        h.sorted.imp fun {a b} hab => UInt32.ne_of_lt hab
      by_cases heq : e' = e
      · rwa [← heq]
      · exact absurd (UInt32.toNat_inj.mp (by exact_mod_cast hts)) (hdistinct.forall he' he heq)
    · exact absurd ht (hrest f t)
    · exfalso
      have hfe : f = (e.ts.toNat : ℤ) := hse
      rcases hstale with hstale | ⟨t, hft, hbound, hstale⟩
      · have hlt := hstale e he
        omega
      · have hcase := hstale e he
        omega
  · exact absurd hu (hrest f t)

end Samples

end HistoryView
end Iotic.Webapp
