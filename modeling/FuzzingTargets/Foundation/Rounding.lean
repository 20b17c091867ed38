import Mathlib.Data.Int.Log
import Mathlib.Data.Rat.Floor
import Mathlib.Tactic

namespace FuzzingTargets.Rounding

def Representable (p : Nat) (x : ℚ) : Prop := ∃ m e : ℤ, |m| < 2 ^ p ∧ x = m * 2 ^ e

def nearestEven (y : ℚ) : ℤ :=
  if Int.fract y < 1 / 2 then ⌊y⌋
  else if 1 / 2 < Int.fract y then ⌊y⌋ + 1
  else if ⌊y⌋ % 2 = 0 then ⌊y⌋
  else ⌊y⌋ + 1

def ulp (p : Nat) (x : ℚ) : ℚ := 2 ^ (Int.log 2 |x| - p + 1)

def nearest (p : Nat) (x : ℚ) : ℚ := nearestEven (x / ulp p x) * ulp p x

def truncate (x : ℚ) : ℤ := if 0 ≤ x then ⌊x⌋ else ⌈x⌉

theorem nearestEven_intCast (n : ℤ) : nearestEven n = n := by
  unfold nearestEven
  rw [Int.fract_intCast,if_pos (by norm_num),Int.floor_intCast]

theorem representable_intCast {p : Nat} {m : ℤ} (h : |m| < 2 ^ p) : Representable p m :=
  ⟨m,0,h,by simp⟩

theorem log_lt_of_significand {p : Nat} {m e : ℤ} (hm : |m| < 2 ^ p) (hx : (m : ℚ) * 2 ^ e ≠ 0) :
    Int.log 2 |(m : ℚ) * 2 ^ e| < p + e := by
  have hpow : (0 : ℚ) < 2 ^ e := by positivity
  have hcast : |(m : ℚ)| < 2 ^ p := by exact_mod_cast hm
  have hbound : |(m : ℚ) * 2 ^ e| < ((2 : ℕ) : ℚ) ^ ((p : ℤ) + e) := by
    rw [abs_mul,abs_of_pos hpow,Nat.cast_ofNat,zpow_add₀ two_ne_zero,zpow_natCast]
    exact mul_lt_mul_of_pos_right hcast hpow
  exact (Int.lt_zpow_iff_log_lt (by norm_num) (abs_pos.mpr hx)).mp hbound

section

variable {p : Nat} {x : ℚ} (h : Representable p x)
include h

theorem representable_scale (k : ℤ) : Representable p (x * 2 ^ k) := by
  obtain ⟨m,e,hm,rfl⟩ := h
  refine ⟨m,e + k,hm,?_⟩
  rw [zpow_add₀ two_ne_zero,mul_assoc]

theorem div_ulp_integral : ∃ n : ℤ, x / ulp p x = n := by
  obtain ⟨m,e,hm,rfl⟩ := h
  by_cases hx : (m : ℚ) * 2 ^ e = 0
  · exact ⟨0,by rw [hx,zero_div,Int.cast_zero]⟩
  have hlog := log_lt_of_significand hm hx
  unfold ulp
  generalize Int.log 2 |(m : ℚ) * 2 ^ e| = k at hlog
  obtain ⟨d,hd⟩ : ∃ d : Nat, e = k - p + 1 + d := ⟨(e - (k - p + 1)).toNat,by omega⟩
  refine ⟨m * 2 ^ d,?_⟩
  rw [hd,zpow_add₀ two_ne_zero (k - p + 1),zpow_natCast]
  field_simp
  push_cast
  ring

theorem nearest_representable : nearest p x = x := by
  obtain ⟨n,hn⟩ := div_ulp_integral h
  have hne : ulp p x ≠ 0 := by
    unfold ulp
    positivity
  unfold nearest
  rw [hn,nearestEven_intCast,← hn,div_mul_cancel₀ _ hne]

end

theorem truncate_scaled {s N : ℤ} (hN : 0 < N) (hlow : -N ≤ s) (hhigh : s < N) :
    truncate ((s : ℚ) / N * (N - 1)) = s - s.sign := by
  have hNq : (0 : ℚ) < N := by exact_mod_cast hN
  have hlowq : -(N : ℚ) ≤ s := by exact_mod_cast hlow
  have hhighq : (s : ℚ) < N := by exact_mod_cast hhigh
  have hsplit : (s : ℚ) / N * (N - 1) = s - s / N := by
    field_simp
  rw [hsplit]
  unfold truncate
  rcases lt_trichotomy s 0 with hs | hs | hs
  · have hsq : (s : ℚ) < 0 := by exact_mod_cast hs
    have hstep : (s : ℚ) + 1 ≤ 0 := by exact_mod_cast hs
    have hneg : (s : ℚ) / N < 0 := div_neg_of_neg_of_pos hsq hNq
    have hge : -1 ≤ (s : ℚ) / N := by
      rw [le_div_iff₀ hNq]
      linarith
    rw [Int.sign_eq_neg_one_of_neg hs]
    split
    · rw [Int.floor_eq_iff]
      push_cast
      constructor <;> linarith
    · rw [Int.ceil_eq_iff]
      push_cast
      constructor <;> linarith
  · subst hs
    simp
  have hsq : (0 : ℚ) < s := by exact_mod_cast hs
  have hstep : (1 : ℚ) ≤ s := by exact_mod_cast hs
  have hpos : 0 < (s : ℚ) / N := div_pos hsq hNq
  have hlt : (s : ℚ) / N < 1 := by
    rw [div_lt_iff₀ hNq]
    linarith
  rw [if_pos (by linarith),Int.sign_eq_one_of_pos hs,Int.floor_eq_iff]
  push_cast
  constructor <;> linarith

end FuzzingTargets.Rounding
