import Mathlib.Data.List.TakeWhile
import Mathlib.Tactic

namespace FuzzingTargets.Bytes

variable (hi lo : UInt8)

def be16 : Nat := hi.toNat * 256 + lo.toNat

def schar (b : UInt8) : Int := if b.toNat < 128 then b.toNat else b.toNat - 256

def charWord : Int :=
  if lo.toNat < 128 then schar hi * 256 + lo.toNat else schar lo

def charWord16 : Nat := (charWord hi lo % 65536).toNat

def cstring (bs : List UInt8) : List UInt8 := bs.takeWhile (· != 0)

def strlen (bs : List UInt8) : Nat := (cstring bs).length

theorem be16_lt : be16 hi lo < 65536 := by
  have := hi.toNat_lt
  have := lo.toNat_lt
  unfold be16
  omega

theorem be16_split {n : Nat} (h : n < 65536) :
    be16 (UInt8.ofNat (n / 256)) (UInt8.ofNat n) = n := by
  unfold be16
  rw [UInt8.toNat_ofNat',UInt8.toNat_ofNat']
  omega

theorem charWord_nonneg {hi lo : UInt8} : 0 ≤ charWord hi lo ↔ hi.toNat < 128 ∧ lo.toNat < 128 := by
  have := hi.toNat_lt
  have := lo.toNat_lt
  unfold charWord schar
  split_ifs <;> omega

theorem charWord_eq_be16 {hi lo : UInt8} (hhi : hi.toNat < 128) (hlo : lo.toNat < 128) :
    charWord hi lo = be16 hi lo := by
  simp [charWord,schar,be16,hhi,hlo]

theorem charWord_lt : charWord hi lo < 32768 := by
  have := hi.toNat_lt
  have := lo.toNat_lt
  unfold charWord schar
  split_ifs <;> omega

theorem neg_charWord_le : -32768 ≤ charWord hi lo := by
  have := hi.toNat_lt
  have := lo.toNat_lt
  unfold charWord schar
  split_ifs <;> omega

theorem cstring_terminated {xs : List UInt8} (hx : 0 ∉ xs) (ys : List UInt8) :
    cstring (xs ++ 0 :: ys) = xs := by
  unfold cstring
  rw [List.takeWhile_append_of_pos]
  · simp
  · intro a ha
    exact bne_iff_ne.mpr (fun h => hx (h ▸ ha))

theorem cstring_nulFree (bs : List UInt8) : 0 ∉ cstring bs := by
  intro h
  simpa using List.mem_takeWhile_imp h

end FuzzingTargets.Bytes
