import Mathlib.Data.Int.ModEq
import Mathlib.Tactic.NormNum

namespace FuzzingTargets.Memory
open List

def unsigned (bits : Nat) (x : Int) : Nat := (x % 2 ^ bits).toNat

def signed (bits : Nat) (x : Int) : Int := x.bmod (2 ^ bits)

section

variable {bits : Nat} {x : Int}

theorem unsigned_of_nonneg (h : 0 ≤ x) (hlt : x < 2 ^ bits) : (unsigned bits x : Int) = x := by
  unfold unsigned
  rw [Int.emod_eq_of_lt h hlt,Int.toNat_of_nonneg h]

theorem unsigned_natCast {n : Nat} (h : n < 2 ^ bits) : unsigned bits (n : Int) = n := by
  have hlt : (n : Int) < 2 ^ bits := by exact_mod_cast h
  exact_mod_cast unsigned_of_nonneg (Int.natCast_nonneg n) hlt

theorem unsigned_mod (bits n : Nat) : unsigned bits (n : Int) = n % 2 ^ bits := by
  unfold unsigned
  exact_mod_cast Int.toNat_natCast _

theorem unsigned_of_neg (h : x < 0) (hge : -2 ^ bits ≤ x) :
    (unsigned bits x : Int) = x + 2 ^ bits := by
  have hsame : x % 2 ^ bits = (x + 2 ^ bits) % 2 ^ bits := (Int.add_emod_right x _).symm
  unfold unsigned
  rw [hsame,Int.emod_eq_of_lt (by omega) (by omega),Int.toNat_of_nonneg (by omega)]

theorem unsigned_signed (bits : Nat) (x : Int) : unsigned bits (signed bits x) = unsigned bits x := by
  have hcast : ((2 ^ bits : Nat) : Int) = 2 ^ bits := by push_cast; rfl
  unfold unsigned signed
  rw [← hcast,Int.bmod_emod]

theorem signed_of_le (hlow : -2 ^ 31 ≤ x) (hhigh : x < 2 ^ 31) : signed 32 x = x := by
  unfold signed
  exact Int.bmod_eq_of_le (by norm_num; omega) (by norm_num; omega)

theorem signed64_of_le (hlow : -2 ^ 63 ≤ x) (hhigh : x < 2 ^ 63) : signed 64 x = x := by
  unfold signed
  exact Int.bmod_eq_of_le (by norm_num; omega) (by norm_num; omega)

theorem signed64_of_ge (hlow : 2 ^ 63 ≤ x) (hhigh : x < 2 ^ 64) : signed 64 x = x - 2 ^ 64 := by
  have hmod : x % ((2 ^ 64 : Nat) : Int) = x := Int.emod_eq_of_lt (by omega) (by norm_num; omega)
  unfold signed
  rw [Int.bmod_def,hmod,if_neg (by norm_num; omega)]
  norm_num

theorem signed_natCast {n : Nat} (h : n < 2 ^ 31) : signed 32 (n : Int) = n :=
  signed_of_le (by omega) (by omega)

theorem signed_natCast_neg {n : Nat} (hlow : 2 ^ 31 ≤ n) (hhigh : n < 2 ^ 32) :
    signed 32 (n : Int) = n - 2 ^ 32 := by
  have hmod : (n : Int) % ((2 ^ 32 : Nat) : Int) = n :=
    Int.emod_eq_of_lt (by omega) (by exact_mod_cast hhigh)
  unfold signed
  rw [Int.bmod_def,hmod,if_neg (by norm_num; omega)]
  norm_num

end

abbrev Buffer := Nat → UInt8

namespace Buffer

variable (b : Buffer) (o : Nat)

def le16 : Nat := (b o).toNat + 256 * (b (o + 1)).toNat

def le32 : Nat := b.le16 o + 65536 * b.le16 (o + 2)

def bytes (o n : Nat) : List UInt8 := (List.range n).map fun i => b (o + i)

def put (bs : List UInt8) : Buffer :=
  fun k => if o ≤ k then (bs[k - o]?).getD (b k) else b k

section

variable {b : Buffer} {o n m : Nat} {bs : List UInt8}

@[simp] theorem bytes_length (b : Buffer) (o n : Nat) : (b.bytes o n).length = n := by
  rw [bytes,length_map,length_range]

theorem bytes_getElem (h : m < n) : (b.bytes o n)[m]? = some (b (o + m)) := by
  rw [bytes,getElem?_map,getElem?_range h]
  rfl

theorem bytes_put : (b.put o bs).bytes o bs.length = bs := by
  apply ext_getElem?
  intro i
  rcases Nat.lt_or_ge i bs.length with hi | hi
  · rw [bytes_getElem hi,put,if_pos (Nat.le_add_right o i),Nat.add_sub_cancel_left,
      getElem?_eq_getElem hi]
    rfl
  · rw [getElem?_eq_none hi,getElem?_eq_none (by rwa [bytes_length])]

theorem put_outside {k : Nat} (h : k < o ∨ o + bs.length ≤ k) : b.put o bs k = b k := by
  unfold put
  split
  · rw [getElem?_eq_none (by omega)]
    rfl
  · rfl

theorem bytes_put_outside (h : m + n ≤ o ∨ o + bs.length ≤ m) :
    (b.put o bs).bytes m n = b.bytes m n := by
  unfold bytes
  apply map_congr_left
  intro i hi
  have hlt := mem_range.mp hi
  exact put_outside (by omega)

end

theorem le16_lt : b.le16 o < 65536 := by
  have h0 := (b o).toNat_lt
  have h1 := (b (o + 1)).toNat_lt
  unfold le16
  omega

theorem le32_lt : b.le32 o < 2 ^ 32 := by
  have h0 := b.le16_lt o
  have h1 := b.le16_lt (o + 2)
  unfold le32
  omega

end Buffer

end FuzzingTargets.Memory
