import FuzzingTargets.Foundation.Checked
import Mathlib.Tactic.Common

namespace FuzzingTargets.Streams

open Checked List

variable {α σ τ ε δ : Type}

def cut [DecidableEq α] (mark : α) : List α → Option (List α × List α)
  | [] => none
  | a :: rest => if a = mark then some ([],rest) else (cut mark rest).map fun p => (a :: p.1,p.2)

theorem cut_none [DecidableEq α] {mark : α} {bytes : List α} (h : cut mark bytes = none) :
    mark ∉ bytes := by
  induction bytes with
  | nil => exact not_mem_nil
  | cons a rest ih =>
    by_cases ha : a = mark
    · simp [cut,ha] at h
    have hrest : cut mark rest = none := by simpa [cut,ha] using h
    intro hmem
    cases mem_cons.mp hmem with
    | inl heq => exact ha heq.symm
    | inr hin => exact ih hrest hin

theorem cut_some [DecidableEq α] {mark : α} {bytes before after : List α}
    (h : cut mark bytes = some (before,after)) :
    bytes = before ++ mark :: after ∧ mark ∉ before := by
  induction bytes generalizing before with
  | nil => cases h
  | cons a rest ih =>
    by_cases ha : a = mark
    · have hpair : [] = before ∧ rest = after := by simpa [cut,ha] using h
      obtain ⟨rfl,rfl⟩ := hpair
      exact ⟨by rw [ha,nil_append],not_mem_nil⟩
    have hrest : ∃ pre, cut mark rest = some (pre,after) ∧ a :: pre = before := by
      simpa [cut,ha] using h
    obtain ⟨pre,hcut,rfl⟩ := hrest
    obtain ⟨hrest,hnot⟩ := ih hcut
    refine ⟨by rw [hrest,cons_append],?_⟩
    intro hmem
    cases mem_cons.mp hmem with
    | inl heq => exact ha heq.symm
    | inr hin => exact hnot hin

def feed (step : τ → α → Except ε τ) : τ → List α → Except ε τ
  | t, [] => .ok t
  | t, a :: rest => step t a >>= fun t' => feed step t' rest

variable {step : τ → α → Except ε τ}

theorem feed_cons {t t' : τ} {a : α} (h : step t a = .ok t') (rest : List α) :
    feed step t (a :: rest) = feed step t' rest := by
  rw [feed,h,bind_ok]

theorem feed_append (t : τ) (xs ys : List α) :
    feed step t (xs ++ ys) = feed step t xs >>= fun t' => feed step t' ys := by
  induction xs generalizing t with
  | nil => rfl
  | cons a rest ih =>
    rw [cons_append,feed,feed]
    cases step t a with
    | error e => rfl
    | ok t' => exact ih t'

theorem feed_append_ok {t t' : τ} {xs : List α} (h : feed step t xs = .ok t') (ys : List α) :
    feed step t (xs ++ ys) = feed step t' ys := by
  rw [feed_append,h,bind_ok]

theorem feed_invariant {inv : τ → Prop} (hstep : ∀ t a t', inv t → step t a = .ok t' → inv t')
    {t t' : τ} {xs : List α} (ht : inv t) (h : feed step t xs = .ok t') : inv t' := by
  induction xs generalizing t with
  | nil =>
    cases h
    exact ht
  | cons a rest ih =>
    obtain ⟨u,hu,hrest⟩ := bind_eq_ok h
    exact ih (hstep t a u ht hu) hrest

def Whole (guard : σ → List α → Prop) (receive : σ → List α → Except δ σ) :
    σ → List (List α) → Prop
  | _, [] => True
  | s, bytes :: rest =>
    guard s bytes ∧ ∀ s', receive s bytes = .ok s' → Whole guard receive s' rest

instance decidableWhole {guard : σ → List α → Prop} {receive : σ → List α → Except δ σ}
    [∀ s bytes, Decidable (guard s bytes)] :
    ∀ s segments, Decidable (Whole guard receive s segments)
  | _, [] => isTrue trivial
  | s, bytes :: rest =>
    match h : receive s bytes with
    | .error _ =>
      decidable_of_iff (guard s bytes)
        ⟨fun hg => ⟨hg,fun _ h' => (by rw [h] at h'; cases h')⟩,fun hw => hw.1⟩
    | .ok s' =>
      have : Decidable (Whole guard receive s' rest) := decidableWhole s' rest
      decidable_of_iff (guard s bytes ∧ Whole guard receive s' rest)
        ⟨fun hw => ⟨hw.1,fun _ h' => (by rw [h] at h'; cases h'; exact hw.2)⟩,
          fun hw => ⟨hw.1,hw.2 s' h⟩⟩

theorem feed_segments {guard : σ → List α → Prop} {receive : σ → List α → Except δ σ}
    {view : σ → τ} {inv : τ → Prop} (hstep : ∀ t a t', inv t → step t a = .ok t' → inv t')
    (hread : ∀ s bytes t, inv (view s) → guard s bytes → feed step (view s) bytes = .ok t →
      ∃ s', receive s bytes = .ok s' ∧ view s' = t)
    {s : σ} {segments : List (List α)} {t : τ} (hinv : inv (view s))
    (hwhole : Whole guard receive s segments) (hfeed : feed step (view s) segments.flatten = .ok t) :
    ∃ s', feed receive s segments = .ok s' ∧ view s' = t := by
  induction segments generalizing s with
  | nil =>
    cases hfeed
    exact ⟨s,rfl,rfl⟩
  | cons bytes rest ih =>
    rw [flatten_cons,feed_append] at hfeed
    obtain ⟨u,hu,hrest⟩ := bind_eq_ok hfeed
    obtain ⟨s',hs',rfl⟩ := hread s bytes u hinv hwhole.1 hu
    obtain ⟨s'',hs'',hview⟩ := ih (feed_invariant hstep hinv hu) (hwhole.2 s' hs') hrest
    exact ⟨s'',by rw [feed_cons hs',hs''],hview⟩

end FuzzingTargets.Streams
