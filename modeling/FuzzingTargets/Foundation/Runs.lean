import Mathlib.Data.List.Basic

namespace FuzzingTargets.Runs
open List

variable {σ ε : Type}

inductive Reach (start : σ) (step : σ → ε → σ → Prop) : σ → Prop
  | start : Reach start step start
  | next {s s' : σ} {e : ε} (hs : Reach start step s) (he : step s e s') : Reach start step s'

def Guarded (guard : σ → ε → Prop) (step : σ → ε → σ → Prop) (s : σ) (e : ε) (s' : σ) : Prop :=
  guard s e ∧ step s e s'

variable {start : σ} {step : σ → ε → σ → Prop} {guard : σ → ε → Prop}

theorem reach_invariant {inv : σ → Prop} (h0 : inv start)
    (hstep : ∀ s e s', inv s → step s e s' → inv s') {s : σ} (hs : Reach start step s) : inv s := by
  induction hs with
  | start => exact h0
  | next _ he ih => exact hstep _ _ _ ih he

theorem reach_unguarded {s : σ} (hs : Reach start (Guarded guard step) s) : Reach start step s := by
  induction hs with
  | start => exact .start
  | next _ he ih => exact .next ih he.2

def states (step : σ → ε → σ) : σ → List ε → List σ
  | s, [] => [s]
  | s, e :: es => s :: states step (step s e) es

def Permitted (guard : σ → ε → Prop) (step : σ → ε → σ) : σ → List ε → Prop
  | _, [] => True
  | s, e :: es => guard s e ∧ Permitted guard step (step s e) es

theorem mem_states_start (step : σ → ε → σ) (s : σ) (es : List ε) : s ∈ states step s es := by
  cases es with
  | nil => exact mem_singleton_self s
  | cons e es => exact mem_cons_self

theorem states_good_iff {step : σ → ε → σ} {inv good : σ → Prop}
    (hgood : ∀ s, inv s → good s) (hkept : ∀ s e, inv s → guard s e → inv (step s e))
    (hexact : ∀ s e, inv s → good (step s e) → guard s e) {s : σ} (h0 : inv s) (es : List ε) :
    (∀ x ∈ states step s es, good x) ↔ Permitted guard step s es := by
  induction es generalizing s with
  | nil =>
    simp only [states,mem_singleton,forall_eq,Permitted,iff_true]
    exact hgood s h0
  | cons e es ih =>
    simp only [states,forall_mem_cons,Permitted]
    constructor
    · rintro ⟨-,hrest⟩
      have hguard := hexact s e h0 (hrest _ (mem_states_start step _ es))
      exact ⟨hguard,(ih (hkept s e h0 hguard)).mp hrest⟩
    · rintro ⟨hguard,hrest⟩
      exact ⟨hgood s h0,(ih (hkept s e h0 hguard)).mpr hrest⟩

theorem states_invariant {step : σ → ε → σ} {inv : σ → Prop}
    (hkept : ∀ s e, inv s → guard s e → inv (step s e)) {s : σ} (h0 : inv s) {es : List ε}
    (hes : Permitted guard step s es) : ∀ x ∈ states step s es, inv x := by
  induction es generalizing s with
  | nil =>
    intro x hx
    exact mem_singleton.mp hx ▸ h0
  | cons e es ih =>
    exact forall_mem_cons.mpr ⟨h0,ih (hkept s e h0 hes.1) hes.2⟩

end FuzzingTargets.Runs
