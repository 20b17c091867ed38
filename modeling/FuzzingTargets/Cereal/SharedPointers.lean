import Mathlib.Data.List.Nodup
import Mathlib.Data.Nat.Bitwise

namespace FuzzingTargets.Cereal
open List

def msb32 : UInt32 := 0x80000000

def isNew (id : UInt32) : Bool := id &&& msb32 != 0

def stripId (id : UInt32) : UInt32 := id &&& ~~~msb32

structure OutputArchive where
  pointerMap : List (Nat × UInt32)
  currentPointerId : UInt32
  deriving DecidableEq

def OutputArchive.start : OutputArchive := ⟨[],1⟩

def OutputArchive.registerSharedPointer (ar : OutputArchive) (addr : Nat) : UInt32 × OutputArchive :=
  if addr = 0 then (0,ar)
  else
    match ar.pointerMap.lookup addr with
    | none => (ar.currentPointerId ||| msb32,
        ⟨(addr,ar.currentPointerId) :: ar.pointerMap,ar.currentPointerId + 1⟩)
    | some id => (id,ar)

structure InputArchive where
  pointerMap : List (UInt32 × Nat)
  deriving DecidableEq

variable (ar : InputArchive) (id : UInt32)

def InputArchive.getSharedPointer : Except String (Option Nat) :=
  if id = 0 then .ok none
  else
    match ar.pointerMap.lookup id with
    | none => .error ("Error while trying to deserialize a smart pointer. Could not find id " ++
        toString id.toNat)
    | some pointer => .ok (some pointer)

def InputArchive.registerSharedPointer (pointer : Nat) : InputArchive :=
  ⟨(stripId id,pointer) :: ar.pointerMap⟩

def pointerId (position : Nat) : UInt32 := UInt32.ofNat (position + 1)

theorem exists_zip_of_mem {α β : Type} {xs : List α} {ys : List β} {x : α}
    (h : xs.length = ys.length) (hx : x ∈ xs) : ∃ y, (x,y) ∈ xs.zip ys := by
  rw [← map_fst_zip h.le] at hx
  obtain ⟨⟨_,y⟩,hmem,rfl⟩ := mem_map.mp hx
  exact ⟨y,hmem⟩

section

variable {i j n : Nat}

theorem isNew_mask : isNew (id ||| msb32) = true := by
  have hmask : (id ||| msb32) &&& msb32 = msb32 := by
    apply UInt32.toBitVec_inj.mp
    ext i hi
    simp +contextual [msb32]
  rw [isNew,hmask]
  decide

theorem ofNat_and_msb (h : n < 2 ^ 31) : UInt32.ofNat n &&& msb32 = 0 := by
  apply UInt32.toNat_inj.mp
  rw [UInt32.toNat_and]
  simp only [msb32,UInt32.toNat_ofNat',UInt32.reduceToNat]
  rw [Nat.mod_eq_of_lt (by omega)]
  apply Nat.eq_of_testBit_eq
  intro i
  rw [Nat.testBit_and,show (2147483648 : Nat) = 2 ^ 31 by rfl,Nat.testBit_two_pow]
  by_cases hi : 31 = i
  · subst hi
    simp [Nat.testBit_lt_two_pow h]
  · simp [hi]

theorem stripId_mask : stripId (id ||| msb32) = stripId id := by
  unfold stripId
  apply UInt32.toBitVec_inj.mp
  ext i hi
  simp
  cases msb32.toBitVec[i] <;> simp

theorem stripId_ofNat (h : n < 2 ^ 31) : stripId (UInt32.ofNat n) = UInt32.ofNat n := by
  have hsplit : UInt32.ofNat n = (UInt32.ofNat n &&& msb32) ||| (UInt32.ofNat n &&& ~~~msb32) := by
    apply UInt32.toBitVec_inj.mp
    ext i hi
    simp
    cases hb : (BitVec.ofNat 32 n)[i] <;> cases hc : msb32.toBitVec[i] <;> simp_all
  rw [ofNat_and_msb h] at hsplit
  simpa [stripId] using hsplit.symm

theorem isNew_pointerId (h : i + 1 < 2 ^ 31) : isNew (pointerId i) = false := by
  rw [isNew,pointerId,ofNat_and_msb h]
  rfl

theorem stripId_new_pointerId (h : i + 1 < 2 ^ 31) :
    stripId (pointerId i ||| msb32) = pointerId i := by
  rw [stripId_mask]
  exact stripId_ofNat h

theorem pointerId_inj (hi : i + 1 < 2 ^ 31) (hj : j + 1 < 2 ^ 31) :
    pointerId i = pointerId j ↔ i = j := by
  constructor
  · intro h
    have hnat := congrArg UInt32.toNat h
    simp only [pointerId,UInt32.toNat_ofNat'] at hnat
    omega
  · rintro rfl
    rfl

theorem pointerId_ne_zero (h : i + 1 < 2 ^ 31) : pointerId i ≠ 0 := by
  intro hzero
  have hnat := congrArg UInt32.toNat hzero
  simp only [pointerId,UInt32.toNat_ofNat',UInt32.toNat_zero] at hnat
  omega

end

structure Numbers (addrs : List Nat) (ar : OutputArchive) : Prop where
  nodup : addrs.Nodup
  found : ∀ i a, addrs[i]? = some a → ar.pointerMap.lookup a = some (pointerId i)
  missing : ∀ a, a ∉ addrs → ar.pointerMap.lookup a = none
  next : ar.currentPointerId = pointerId addrs.length

structure Resolves (count : Nat) (ar : InputArchive) : Prop where
  found : ∀ i, i < count → ar.pointerMap.lookup (pointerId i) = some i

section

variable {addrs : List Nat} {ar : OutputArchive} {addr : Nat}

theorem numbers_start : Numbers [] .start := ⟨nodup_nil,by simp,by simp [OutputArchive.start],rfl⟩

theorem getElem?_grows {α : Type} {xs ys : List α} (h : xs <+: ys) {k : Nat} {x : α}
    (hk : xs[k]? = some x) : ys[k]? = some x := by
  obtain ⟨rest,rfl⟩ := h
  rw [getElem?_append_left (List.getElem?_eq_some_iff.mp hk).1,hk]

theorem register_known (h : Numbers addrs ar) (h0 : addr ≠ 0) {i : Nat}
    (hi : addrs[i]? = some addr) : ar.registerSharedPointer addr = (pointerId i,ar) := by
  simp [OutputArchive.registerSharedPointer,h0,h.found i addr hi]

theorem register_fresh (h : Numbers addrs ar) (h0 : addr ≠ 0) (hnew : addr ∉ addrs) :
    ∃ ar', ar.registerSharedPointer addr = (pointerId addrs.length ||| msb32,ar') ∧
      Numbers (addrs ++ [addr]) ar' := by
  refine ⟨⟨(addr,ar.currentPointerId) :: ar.pointerMap,ar.currentPointerId + 1⟩,?_,?_⟩
  · simp [OutputArchive.registerSharedPointer,h0,h.missing addr hnew,h.next]
  constructor
  · rw [← concat_eq_append]
    exact Nodup.concat hnew h.nodup
  · intro i a hi
    by_cases hlt : i < addrs.length
    · rw [getElem?_append_left hlt] at hi
      have hne : a ≠ addr := by
        rintro rfl
        exact hnew (mem_of_getElem? hi)
      rw [lookup_cons,beq_eq_false_iff_ne.mpr hne]
      exact h.found i a hi
    rw [getElem?_append_right (Nat.not_lt.mp hlt),getElem?_singleton] at hi
    split at hi
    · cases hi
      rw [show i = addrs.length by omega,lookup_cons,beq_self_eq_true,h.next]
    · cases hi
  · intro a ha
    rw [mem_append,not_or,mem_singleton] at ha
    rw [lookup_cons,beq_eq_false_iff_ne.mpr ha.2]
    exact h.missing a ha.1
  · simp [h.next,pointerId,UInt32.ofNat_add]

theorem resolves_zero : Resolves 0 ⟨[]⟩ := ⟨by simp⟩

theorem resolves_register {count : Nat} {input : InputArchive} (h : Resolves count input)
    (hcount : count + 1 < 2 ^ 31) :
    Resolves (count + 1) (input.registerSharedPointer (pointerId count ||| msb32) count) := by
  constructor
  intro i hi
  rw [InputArchive.registerSharedPointer,stripId_new_pointerId hcount]
  by_cases heq : i = count
  · subst heq
    simp
  have hne : (pointerId i == pointerId count) = false := by
    rw [beq_eq_false_iff_ne,Ne,pointerId_inj (by omega) hcount]
    exact heq
  rw [lookup_cons,hne]
  exact h.found i (by omega)

theorem get_known {count : Nat} {input : InputArchive} (h : Resolves count input)
    {i : Nat} (hi : i < count) (hid : i + 1 < 2 ^ 31) :
    input.getSharedPointer (pointerId i) = .ok (some i) := by
  simp [InputArchive.getSharedPointer,pointerId_ne_zero hid,h.found i hi]

end

end FuzzingTargets.Cereal
