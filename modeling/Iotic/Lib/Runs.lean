import Mathlib.Data.List.Basic
import Mathlib.Logic.Function.Basic
import Mathlib.Tactic.SplitIfs

/-!
# Runs of a step relation

A run is a list of events taken one after another. Everything said about runs
here is obtained from one induction over the list.
-/

namespace Runs
variable {σ ε : Type*}

inductive Run (step : σ → ε → σ → Prop) : σ → List ε → σ → Prop
  | nil (s : σ) : Run step s [] s
  | cons {s t u : σ} {e : ε} {es : List ε} : step s e t → Run step t es u → Run step s (e :: es) u

variable {step : σ → ε → σ → Prop}

/- What every step preserves, every run preserves. -/
theorem Run.invariant {I : σ → Prop} (hI : ∀ s e t, I s → step s e t → I t)
    {s t : σ} {es : List ε} (h : Run step s es t) : I s → I t := by
  induction h with
  | nil s => exact id
  | cons he _ ih => exact fun hs => ih (hI _ _ _ hs he)

/- Steps of one relation that are steps of another make runs of the other. -/
theorem Run.mono {step' : σ → ε → σ → Prop} (hstep : ∀ s e t, step s e t → step' s e t)
    {s t : σ} {es : List ε} (h : Run step s es t) : Run step' s es t := by
  induction h with
  | nil s => exact Run.nil s
  | cons he _ ih => exact Run.cons (hstep _ _ _ he) ih

/- The run of a step function that may get stuck, computed. -/
def exec (f : σ → ε → Option σ) : σ → List ε → Option σ
  | s, [] => some s
  | s, e :: es => (f s e).bind fun t => exec f t es

theorem run_of_exec {f : σ → ε → Option σ} {s t : σ} {es : List ε} (h : exec f s es = some t) :
    Run (fun s e t => f s e = some t) s es t := by
  induction es generalizing s with
  | nil =>
    obtain rfl := Option.some.inj h
    exact Run.nil s
  | cons e es ih =>
    obtain ⟨u, hu, hr⟩ := Option.bind_eq_some_iff.mp h
    exact Run.cons hu (ih hr)

/- The same for a step function that only takes events `G` holds of. -/
def guarded (G : σ → ε → Prop) [∀ s e, Decidable (G s e)] (f : σ → ε → Option σ) (s : σ) (e : ε) :
    Option σ :=
  if G s e then f s e else none

theorem run_of_guarded {G : σ → ε → Prop} [∀ s e, Decidable (G s e)] {f : σ → ε → Option σ}
    {s t : σ} {es : List ε} (h : exec (guarded G f) s es = some t) :
    Run (fun s e t => f s e = some t ∧ G s e) s es t := by
  refine (run_of_exec h).mono fun s e t he => ?_
  unfold guarded at he
  split_ifs at he with hg
  exact ⟨he, hg⟩

theorem exec_nil (f : σ → ε → Option σ) (s : σ) : exec f s [] = some s := rfl

theorem exec_cons {f : σ → ε → Option σ} {s t : σ} {e : ε} (h : f s e = some t) (es : List ε) :
    exec f s (e :: es) = exec f t es := by
  rw [exec, h, Option.bind_some]

theorem exec_append (f : σ → ε → Option σ) (s : σ) (es es' : List ε) :
    exec f s (es ++ es') = (exec f s es).bind fun t => exec f t es' := by
  induction es generalizing s with
  | nil => rfl
  | cons e es ih => simp only [List.cons_append, exec, ih, Option.bind_assoc]

/- The invariant rule for a computed run whose events all satisfy `G`. -/
theorem exec_invariant {f : σ → ε → Option σ} {I : σ → Prop} {G : ε → Prop}
    (hI : ∀ s e t, I s → G e → f s e = some t → I t) {s t : σ} {es : List ε}
    (hG : ∀ e ∈ es, G e) (h : exec f s es = some t) (hs : I s) : I t := by
  induction es generalizing s with
  | nil => exact Option.some.inj h ▸ hs
  | cons e es ih =>
    obtain ⟨he, hrest⟩ := List.forall_mem_cons.mp hG
    obtain ⟨u, hu, hr⟩ := Option.bind_eq_some_iff.mp h
    exact ih hrest hr (hI s e u hs he hu)

/- Where an invariant keeps a step from getting stuck, no run gets stuck. -/
theorem exec_isSome {f : σ → ε → Option σ} {I : σ → Prop}
    (hI : ∀ s e, I s → ∃ t, f s e = some t ∧ I t) (es : List ε) {s : σ} (hs : I s) :
    ∃ t, exec f s es = some t ∧ I t := by
  induction es generalizing s with
  | nil => exact ⟨s, rfl, hs⟩
  | cons e es ih =>
    obtain ⟨u, hu, hi⟩ := hI s e hs
    rw [exec_cons hu]
    exact ih hi

/- What holds at every event of a list holds at the first and behind it; what holds
after every part of one holds at the start and from the first event on. -/
theorem forall_split_cons {P : List ε → ε → Prop} {e : ε} {es : List ε} :
    (∀ pre a post, e :: es = pre ++ a :: post → P pre a) ↔
      P [] e ∧ ∀ pre a post, es = pre ++ a :: post → P (e :: pre) a := by
  refine ⟨fun h => ⟨h [] e es rfl, fun pre a post hes => h (e :: pre) a post (by rw [hes]; rfl)⟩, ?_⟩
  intro ⟨hfirst, hrest⟩ pre a post hes
  cases pre with
  | nil =>
    obtain ⟨rfl, -⟩ := List.cons.inj hes
    exact hfirst
  | cons e' pre =>
    obtain ⟨rfl, htail⟩ := List.cons.inj hes
    exact hrest pre a post htail

theorem forall_prefix_cons {P : List ε → Prop} {e : ε} {es : List ε} :
    (∀ pre post, e :: es = pre ++ post → P pre) ↔
      P [] ∧ ∀ pre post, es = pre ++ post → P (e :: pre) := by
  refine ⟨fun h => ⟨h [] _ rfl, fun pre post hes => h (e :: pre) post (by rw [hes]; rfl)⟩, ?_⟩
  intro ⟨hnil, hcons⟩ pre post hes
  cases pre with
  | nil => exact hnil
  | cons e' pre =>
    obtain ⟨rfl, htail⟩ := List.cons.inj hes
    exact hcons pre post htail

/- Where, from any state that satisfies `J` and `I`, a step keeps `I` exactly when
`C` holds of it, `I` holds all along a run exactly when `C` holds of its steps. -/
theorem exec_always_iff {f : σ → ε → Option σ} {I J : σ → Prop} {C : σ → ε → Prop}
    (hJ : ∀ s e t, J s → f s e = some t → J t)
    (hI : ∀ s e t, J s → I s → f s e = some t → (I t ↔ C s e)) {s t : σ} {es : List ε}
    (h : exec f s es = some t) (hj : J s) (hi : I s) :
    (∀ pre post u, es = pre ++ post → exec f s pre = some u → I u) ↔
      ∀ pre e post u, es = pre ++ e :: post → exec f s pre = some u → C u e := by
  suffices hcomm : (∀ pre post, es = pre ++ post → ∀ u, exec f s pre = some u → I u) ↔
      ∀ pre e post, es = pre ++ e :: post → ∀ u, exec f s pre = some u → C u e from
    ⟨fun hall pre e post u he => hcomm.mp (fun pre post he u => hall pre post u he) pre e post he u,
      fun hall pre post u he => hcomm.mpr (fun pre e post he u => hall pre e post u he) pre post he u⟩
  induction es generalizing s with
  | nil => simp [exec_nil, hi]
  | cons e es ih =>
    obtain ⟨v, hv, hr⟩ := Option.bind_eq_some_iff.mp h
    rw [forall_prefix_cons, forall_split_cons]
    simp only [exec_cons hv, exec_nil, Option.some.injEq, forall_eq']
    refine (and_iff_right hi).trans ?_
    rw [← hI s e v hj hi hv]
    -- the rest of the run starts at `v`, so that `I v` is part of either side
    refine ⟨fun hall => ?_, fun ⟨hiv, hall⟩ => (ih hr (hJ s e v hj hv) hiv).mpr hall⟩
    have hiv : I v := hall [] es rfl v rfl
    exact ⟨hiv, (ih hr (hJ s e v hj hv) hiv).mp hall⟩

theorem run_foldl (f : σ → ε → σ) (es : List ε) (s : σ) :
    Run (fun s e t => t = f s e) s es (es.foldl f s) := by
  induction es generalizing s with
  | nil => exact Run.nil s
  | cons e es ih => exact Run.cons rfl (ih (f s e))

/- The invariant rule for a total step function. -/
theorem foldl_invariant {f : σ → ε → σ} {I : σ → Prop} (hI : ∀ s e, I s → I (f s e))
    (es : List ε) (s : σ) (h : I s) : I (es.foldl f s) := by
  induction es generalizing s with
  | nil => exact h
  | cons e es ih => exact ih (f s e) (hI s e h)

/- The same over events that all satisfy `G`. -/
theorem foldl_invariant_of {f : σ → ε → σ} {I : σ → Prop} {G : ε → Prop}
    (hI : ∀ s e, G e → I s → I (f s e)) {es : List ε} (hG : ∀ e ∈ es, G e) (s : σ) (h : I s) :
    I (es.foldl f s) := by
  induction es generalizing s with
  | nil => exact h
  | cons e es ih =>
    obtain ⟨he, hrest⟩ := List.forall_mem_cons.mp hG
    exact ih hrest (f s e) (hI s e he h)

/-! ### A state for each key -/

section Keyed
variable {κ : Type*} [DecidableEq κ]

/- An event belongs to one key, and only the state of that key takes it, or to none. -/
def keyed (key : ε → Option κ) (f : σ → ε → Option σ) (states : κ → σ) (e : ε) : Option (κ → σ) :=
  match key e with
  | none => some states
  | some k => (f (states k) e).map (Function.update states k)

/- A run over all keys is a run over every single one, each with its own events. -/
theorem foldlM_keyed_iff (key : ε → Option κ) (f : σ → ε → Option σ) (es : List ε)
    (states final : κ → σ) :
    es.foldlM (keyed key f) states = some final ↔
      ∀ k, (es.filter fun e => key e = some k).foldlM f (states k) = some (final k) := by
  induction es generalizing states with
  | nil => simp [funext_iff]
  | cons e es ih =>
    rw [List.foldlM_cons, keyed]
    cases hkey : key e with
    | none =>
      have hskip : ∀ k, ((e :: es).filter fun e => key e = some k) =
          es.filter fun e => key e = some k := by simp [hkey]
      simp only [hskip]
      exact ih states
    | some k₀ =>
      have hown : ((e :: es).filter fun e => key e = some k₀) =
          e :: es.filter fun e => key e = some k₀ := by simp [hkey]
      have hother : ∀ k, k ≠ k₀ → ((e :: es).filter fun e => key e = some k) =
          es.filter fun e => key e = some k := fun k hk => by simp [hkey, Ne.symm hk]
      constructor
      · intro h
        obtain ⟨updated, hstep, hrest⟩ := Option.bind_eq_some_iff.mp h
        obtain ⟨t, ht, rfl⟩ := Option.map_eq_some_iff.mp hstep
        intro k
        have hk := (ih _).mp hrest k
        by_cases hkk : k = k₀
        · subst hkk
          rw [Function.update_self] at hk
          rw [hown, List.foldlM_cons, ht]
          exact hk
        · rw [Function.update_of_ne hkk] at hk
          rwa [hother k hkk]
      · intro h
        have hk₀ := h k₀
        rw [hown, List.foldlM_cons] at hk₀
        obtain ⟨t, ht, hrest⟩ := Option.bind_eq_some_iff.mp hk₀
        show (Option.map _ (f (states k₀) e) >>= _) = _
        rw [ht]
        refine (ih _).mpr fun k => ?_
        by_cases hkk : k = k₀
        · subst hkk
          rwa [Function.update_self]
        · rw [Function.update_of_ne hkk, ← hother k hkk]
          exact h k

end Keyed

end Runs
