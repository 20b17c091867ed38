import Mathlib.Tactic

namespace FuzzingTargets.Slices
open List

variable {α : Type} {buf xs ys : List α} {pos i : Nat}

def At (buf : List α) (pos : Nat) (xs : List α) : Prop := xs <+: buf.drop pos

instance [DecidableEq α] : Decidable (At buf pos xs) :=
  inferInstanceAs (Decidable (xs <+: buf.drop pos))

theorem at_append : At buf pos (xs ++ ys) ↔ At buf pos xs ∧ At buf (pos + xs.length) ys := by
  constructor
  · rintro ⟨rest,h⟩
    refine ⟨⟨ys ++ rest,by rwa [← append_assoc]⟩,⟨rest,?_⟩⟩
    rw [← drop_drop,← h,append_assoc,drop_left]
  rintro ⟨⟨r1,h1⟩,⟨r2,h2⟩⟩
  refine ⟨r2,?_⟩
  rw [← drop_drop,← h1,drop_left] at h2
  rw [append_assoc,h2,h1]

theorem at_cons {x : α} : At buf pos (x :: xs) ↔ buf[pos]? = some x ∧ At buf (pos + 1) xs := by
  rw [← singleton_append,at_append,length_singleton]
  refine and_congr_left fun _ => ?_
  rw [← head?_drop]
  cases hd : buf.drop pos with
  | nil => simp [At,hd]
  | cons y rest => simp [At,hd,eq_comm]

theorem at_take (h : At buf pos xs) : (buf.drop pos).take xs.length = xs :=
  (prefix_iff_eq_take.mp h).symm

theorem at_length (h : At buf pos xs) : xs.length ≤ buf.length - pos := by
  have := h.length_le
  rwa [length_drop] at this

theorem at_end (h : At buf pos xs) (hne : xs ≠ []) : pos + xs.length ≤ buf.length := by
  have := at_length h
  have := length_pos_iff.mpr hne
  omega

theorem at_getElem? (h : At buf pos xs) (hi : i < xs.length) : buf[pos + i]? = xs[i]? := by
  obtain ⟨rest,h⟩ := h
  rw [← getElem?_drop,← h,getElem?_append_left hi]

theorem at_slice (n : Nat) : At buf pos ((buf.drop pos).take n) :=
  take_prefix _ _

theorem slice_skip {n : Nat} (h : xs.length ≤ pos) :
    ((xs ++ ys).drop pos).take n = (ys.drop (pos - xs.length)).take n := by
  rw [drop_append,drop_eq_nil_of_le h,nil_append]

theorem slice_head {n : Nat} (h : xs.length = n) : ((xs ++ ys).drop 0).take n = xs := by
  rw [drop_zero,take_left' h]

theorem at_nil (buf : List α) (pos : Nat) : At buf pos [] := nil_prefix

theorem at_full (h : buf.drop pos = xs) : At buf pos xs := h ▸ prefix_rfl

theorem flatMap_range_eq_iff {f : Nat → List α} {w n : Nat} (hf : ∀ i, i < n → (f i).length = w)
    (hx : xs.length = n * w) :
    (range n).flatMap f = xs ↔ ∀ i, i < n → f i = (xs.drop (i * w)).take w := by
  induction n generalizing xs with
  | zero =>
    rw [Nat.zero_mul] at hx
    rw [length_eq_zero_iff.mp hx]
    simp
  | succ n ih =>
    rw [Nat.succ_mul] at hx
    have hfront : (xs.take (n * w)).length = n * w := by
      rw [length_take]
      omega
    have hback : ((xs.drop (n * w)).take w) = xs.drop (n * w) := by
      apply take_of_length_le
      rw [length_drop]
      omega
    have hinner : ∀ i, i < n →
        ((xs.take (n * w)).drop (i * w)).take w = (xs.drop (i * w)).take w := by
      intro i hi
      have hle : i * w + w ≤ n * w := by
        rw [← Nat.succ_mul]
        exact Nat.mul_le_mul_right w hi
      rw [drop_take,take_take,Nat.min_eq_left (by omega)]
    have hfirst := ih (fun i hi => hf i (by omega)) hfront
    have hlen : ((range n).flatMap f).length = n * w := by
      rw [length_flatMap,map_congr_left fun i hi => hf i (by have := mem_range.mp hi; omega)]
      simp
    rw [range_succ,flatMap_append,flatMap_singleton]
    constructor
    · intro h i hi
      rw [← take_append_drop (n * w) xs] at h
      obtain ⟨hl,hr⟩ := append_inj h (by rw [hlen,hfront])
      rcases Nat.lt_succ_iff_lt_or_eq.mp hi with hi | rfl
      · rw [hfirst.mp hl i hi,hinner i hi]
      · rw [hr,hback]
    · intro h
      have hl := hfirst.mpr fun i hi => by rw [hinner i hi]; exact h i (by omega)
      rw [hl,h n (Nat.lt_succ_self n),hback,take_append_drop]

end FuzzingTargets.Slices
