import FuzzingTargets.Foundation.Slices

namespace FuzzingTargets.LittleEndian

def le : Nat → Nat → List UInt8
  | 0, _ => []
  | n + 1, v => UInt8.ofNat v :: le n (v / 256)

def ofLe : List UInt8 → Nat
  | [] => 0
  | b :: bs => b.toNat + 256 * ofLe bs

@[simp] theorem le_length (n v : Nat) : (le n v).length = n := by
  induction n generalizing v with
  | zero => rfl
  | succ n ih => rw [le,List.length_cons,ih]

theorem ofLe_le (n v : Nat) : ofLe (le n v) = v % 256 ^ n := by
  induction n generalizing v with
  | zero => simp [le,ofLe,Nat.mod_one]
  | succ n ih =>
    have hsplit : v % 256 ^ (n + 1) = v % 256 + 256 * (v / 256 % 256 ^ n) := by
      rw [Nat.pow_succ',Nat.mod_mul]
    rw [le,ofLe,ih,UInt8.toNat_ofNat',hsplit]

theorem ofLe_le_of_lt {n v : Nat} (h : v < 256 ^ n) : ofLe (le n v) = v := by
  rw [ofLe_le,Nat.mod_eq_of_lt h]

theorem ofLe_lt (bs : List UInt8) : ofLe bs < 256 ^ bs.length := by
  induction bs with
  | nil => exact Nat.one_pos
  | cons b bs ih =>
    have hb := b.toNat_lt
    rw [ofLe,List.length_cons,Nat.pow_succ']
    omega

theorem ofLe_inj {xs ys : List UInt8} (hlen : xs.length = ys.length) (h : ofLe xs = ofLe ys) :
    xs = ys := by
  induction xs generalizing ys with
  | nil => exact (List.length_eq_zero_iff.mp hlen.symm).symm
  | cons x xs ih =>
    cases ys with
    | nil => cases hlen
    | cons y ys =>
      have hx := x.toNat_lt
      have hy := y.toNat_lt
      rw [ofLe,ofLe] at h
      rw [UInt8.toNat_inj.mp (by omega : x.toNat = y.toNat),ih (Nat.succ.inj hlen) (by omega)]

theorem le_eq_iff {n v : Nat} {bs : List UInt8} (hlen : bs.length = n) :
    le n v = bs ↔ v % 256 ^ n = ofLe bs := by
  rw [← ofLe_le]
  exact ⟨congrArg ofLe,ofLe_inj (by rw [le_length,hlen])⟩

end FuzzingTargets.LittleEndian
