import Mathlib.Algebra.Group.Nat.Defs
import Mathlib.Data.List.Basic
import Mathlib.Tactic.Common

namespace FuzzingTargets.Intervals
open List

variable {ρ : Type} {lo hi : ρ → Nat}

def Apart (gap : Nat) (lo hi : ρ → Nat) (t : List ρ) : Prop :=
  (∀ r ∈ t, lo r < hi r) ∧ t.Pairwise fun r s => hi r + gap ≤ lo s

def Covers (lo hi : ρ → Nat) (t : List ρ) (x : Nat) : Prop := ∃ r ∈ t, lo r ≤ x ∧ x < hi r

def Clear (lo hi : ρ → Nat) (t : List ρ) (a b : Nat) : Prop := ∀ r ∈ t, hi r ≤ a ∨ b ≤ lo r

section

variable {t u pre post : List ρ} {r s : ρ} {a b x gap : Nat}

theorem covers_append : Covers lo hi (t ++ u) x ↔ Covers lo hi t x ∨ Covers lo hi u x := by
  simp only [Covers,mem_append,or_and_right,exists_or]

theorem covers_cons : Covers lo hi (r :: t) x ↔ (lo r ≤ x ∧ x < hi r) ∨ Covers lo hi t x := by
  simp only [Covers,mem_cons,or_and_right,exists_or,exists_eq_left]

theorem covers_split :
    Covers lo hi (pre ++ r :: post) x ↔ (lo r ≤ x ∧ x < hi r) ∨ Covers lo hi (pre ++ post) x := by
  rw [covers_append,covers_cons,covers_append]
  tauto

theorem apart_of_le {gap' : Nat} (h : Apart gap lo hi t) (hle : gap' ≤ gap) : Apart gap' lo hi t := by
  refine ⟨h.1,h.2.imp ?_⟩
  intro r s hrs
  omega

theorem apart_nil : Apart gap lo hi ([] : List ρ) := ⟨by simp,.nil⟩

theorem apart_split : Apart gap lo hi (pre ++ r :: post) ↔
    Apart gap lo hi (pre ++ post) ∧ lo r < hi r ∧ (∀ p ∈ pre, hi p + gap ≤ lo r) ∧
      ∀ q ∈ post, hi r + gap ≤ lo q := by
  simp only [Apart,pairwise_append,pairwise_cons,mem_append,mem_cons]
  constructor
  · rintro ⟨hpos,hpre,⟨hnext,hpost⟩,hacross⟩
    refine ⟨⟨fun p hp => hpos p (by tauto),hpre,hpost,fun p hp q hq => hacross p hp q (.inr hq)⟩,
      hpos r (by tauto),fun p hp => hacross p hp r (.inl rfl),hnext⟩
  rintro ⟨⟨hpos,hpre,hpost,hacross⟩,hr,hbefore,hafter⟩
  refine ⟨?_,hpre,⟨hafter,hpost⟩,?_⟩
  · rintro p (hp | rfl | hp)
    · exact hpos p (.inl hp)
    · exact hr
    · exact hpos p (.inr hp)
  · rintro p hp q (rfl | hq)
    · exact hbefore p hp
    · exact hacross p hp q hq

theorem apart_before (h : Apart gap lo hi (pre ++ r :: post)) {p : ρ} (hp : p ∈ pre) :
    hi p + gap ≤ lo r := (apart_split.mp h).2.2.1 p hp

end

end FuzzingTargets.Intervals
