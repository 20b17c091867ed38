import Mathlib.Tactic

namespace FuzzingTargets.DelayedRelease

structure Counter where
  count : Int
  present : Bool
  timer : Bool
  users : Nat
  deriving DecidableEq

namespace Counter

def acquire (c : Counter) : Counter :=
  { c with count := (c.count + 1).bmod 4294967296, present := c.count = 0 ∨ c.present = true }

def release (c : Counter) : Counter :=
  { c with
    count := (c.count - 1).bmod 4294967296
    present := c.count ≠ 1 ∧ c.present = true
    timer := false }

def arm (c : Counter) : Counter := { c with timer := c.timer = true ∨ c.present = true }

def pending (c : Counter) : Nat := if c.timer then 1 else 0

end Counter

inductive Action where
  | idle
  | refuse
  | enter
  | renew
  | reuse
  | leave
  | expire
  deriving DecidableEq

def apply (c : Counter) : Action → Counter
  | .idle => c
  | .refuse => c.arm
  | .enter => { c.acquire with users := c.users + 1 }
  | .renew => c.acquire
  | .reuse => if c.users = 0 ∨ c.present = true then c else c.acquire
  | .leave => if c.users = 0 then c else Counter.arm { c with users := c.users - 1 }
  | .expire => if c.timer then c.release else c

def leaveAfterExpiry (c : Counter) : Counter := apply (apply c .expire) .leave

def drain (c : Counter) : Counter := apply (leaveAfterExpiry^[c.users] c) .expire

def InBalance (c : Counter) : Prop :=
  0 ≤ c.count ∧ (c.present = true ↔ 0 < c.count) ∧
    (c.users = 0 → c.timer = false → c.count = 0 ∧ c.present = false)

def Covered (c : Counter) : Action → Prop
  | .enter => c.count < 2147483647
  | .renew => c.count < 2147483647 ∧ c.count < c.users + c.pending
  | .leave => c.users ≠ 0 → c.timer = true → c.count ≤ c.users
  | _ => True

structure Counted (c : Counter) : Prop where
  nonneg : 0 ≤ c.count
  small : c.count ≤ 2147483647
  present_iff : c.present = true ↔ 0 < c.count
  armed : c.timer = true → 0 < c.count

structure Held (c : Counter) : Prop extends Counted c where
  covered : c.count ≤ c.users + c.pending

section

variable {c : Counter} {a : Action}

theorem pending_armed (h : c.timer = true) : c.pending = 1 := if_pos h

theorem pending_idle (h : c.timer = false) : c.pending = 0 := if_neg (by simp [h])

theorem pending_le (c : Counter) : c.pending ≤ c.arm.pending := by
  simp only [Counter.pending,Counter.arm]
  split_ifs <;> simp_all

theorem inBalance_of_held (h : Held c) : InBalance c := by
  refine ⟨h.nonneg,h.present_iff,fun husers htimer => ?_⟩
  have hzero : c.count = 0 := by
    have hcovered := h.covered
    have hnonneg := h.nonneg
    rw [husers,Counter.pending,htimer] at hcovered
    simp only [Bool.false_eq_true,if_false] at hcovered
    omega
  refine ⟨hzero,?_⟩
  by_contra hpresent
  have hpos := h.present_iff.mp (by simpa using hpresent)
  omega

section

variable (h : Counted c)
include h

theorem acquire_counted (hlt : c.count < 2147483647) :
    Counted c.acquire ∧ c.acquire.count = c.count + 1 := by
  obtain ⟨hnonneg,-,hpresent,harmed⟩ := h
  have hcount : c.acquire.count = c.count + 1 := by
    exact Int.bmod_eq_of_le (by omega) (by omega)
  refine ⟨⟨by omega,by omega,?_,fun _ => by omega⟩,hcount⟩
  simp only [Counter.acquire,hpresent,decide_eq_true_eq] at hcount ⊢
  omega

theorem release_counted (hpos : 0 < c.count) :
    Counted c.release ∧ c.release.count = c.count - 1 := by
  obtain ⟨-,hsmall,hpresent,-⟩ := h
  have hcount : c.release.count = c.count - 1 := by
    exact Int.bmod_eq_of_le (by omega) (by omega)
  refine ⟨⟨by omega,by omega,?_,nofun⟩,hcount⟩
  simp only [Counter.release,hpresent,decide_eq_true_eq] at hcount ⊢
  omega

theorem arm_counted : Counted c.arm := by
  refine ⟨h.nonneg,h.small,h.present_iff,fun htimer => ?_⟩
  simp only [Counter.arm,decide_eq_true_eq] at htimer
  rcases htimer with htimer | hpresent
  · exact h.armed htimer
  · exact h.present_iff.mp hpresent

theorem expire_count : Counted (apply c .expire) ∧ (apply c .expire).count = c.count - c.pending ∧
      (apply c .expire).timer = false ∧ (apply c .expire).users = c.users := by
  simp only [apply,Counter.pending]
  split
  · rename_i htimer
    obtain ⟨hcounted,hcount⟩ := release_counted h (h.armed htimer)
    exact ⟨hcounted,by simpa using hcount,rfl,rfl⟩
  · rename_i htimer
    exact ⟨h,by simp,by simpa using htimer,rfl⟩

theorem leaveAfterExpiry_count (husers : c.users ≠ 0) : Counted (leaveAfterExpiry c) ∧
      (leaveAfterExpiry c).count = c.count - c.pending ∧ (leaveAfterExpiry c).users + 1 = c.users ∧
      ((leaveAfterExpiry c).timer = true ↔ 0 < c.count - c.pending) := by
  obtain ⟨hcounted,hcount,htimer,husers'⟩ := expire_count h
  unfold leaveAfterExpiry
  generalize apply c .expire = d at *
  have hleft : Counted { d with users := d.users - 1 } :=
    ⟨hcounted.nonneg,hcounted.small,hcounted.present_iff,hcounted.armed⟩
  rw [apply,if_neg (husers' ▸ husers)]
  refine ⟨arm_counted hleft,hcount,?_,?_⟩
  · simp only [Counter.arm]
    omega
  · simp only [Counter.arm,htimer,hcounted.present_iff,decide_eq_true_eq,Bool.false_eq_true,
      false_or,hcount]

theorem iterate_drained {n : Nat} (hn : c.users = n) :
    Counted (apply (leaveAfterExpiry^[n] c) .expire) ∧
      (apply (leaveAfterExpiry^[n] c) .expire).count = max 0 (c.count - c.pending - n) ∧
      (apply (leaveAfterExpiry^[n] c) .expire).timer = false ∧
      (apply (leaveAfterExpiry^[n] c) .expire).users = 0 := by
  induction n generalizing c with
  | zero =>
    obtain ⟨hcounted,hcount,htimer,husers⟩ := expire_count h
    have hnonneg := hcounted.nonneg
    refine ⟨hcounted,?_,htimer,husers.trans hn⟩
    rw [Function.iterate_zero_apply,hcount] at *
    omega
  | succ n ih =>
    obtain ⟨hcounted,hcount,husers,htimer⟩ := leaveAfterExpiry_count h (by omega)
    rw [Function.iterate_succ_apply]
    obtain ⟨hdrained,hmax,hrest⟩ := ih hcounted (by omega)
    refine ⟨hdrained,?_,hrest⟩
    rw [hmax,hcount]
    by_cases hpos : 0 < c.count - c.pending
    · rw [pending_armed (htimer.mpr hpos)]
      omega
    · have hidle : (leaveAfterExpiry c).timer = false := by simpa using mt htimer.mp hpos
      omega

theorem drain_inBalance_iff : InBalance (drain c) ↔ c.count ≤ c.users + c.pending := by
  obtain ⟨hcounted,hcount,htimer,husers⟩ := iterate_drained h rfl
  constructor
  · rintro ⟨-,-,hempty⟩
    have hzero := (hempty husers htimer).1
    have hzero' := hcount.symm.trans hzero
    omega
  intro hcovered
  have hheld : Held (drain c) := ⟨hcounted,by
    have hle : (drain c).count = 0 := hcount.trans (by omega)
    omega⟩
  exact inBalance_of_held hheld

end

theorem apply_held (h : Held c) (hcovered : Covered c a) : Held (apply c a) := by
  have hle := h.covered
  cases a with
  | idle => exact h
  | refuse =>
    have hpending := pending_le c
    exact ⟨arm_counted h.toCounted,by simp only [apply,Counter.arm] at hpending ⊢; omega⟩
  | enter =>
    obtain ⟨hcounted,hcount⟩ := acquire_counted h.toCounted hcovered
    refine ⟨⟨hcounted.nonneg,hcounted.small,hcounted.present_iff,hcounted.armed⟩,?_⟩
    have hpending : (apply c .enter).pending = c.pending := rfl
    have hcount' : (apply c .enter).count = c.count + 1 := hcount
    rw [hpending,hcount']
    simp only [apply]
    omega
  | renew =>
    obtain ⟨hlt,hless⟩ := hcovered
    obtain ⟨hcounted,hcount⟩ := acquire_counted h.toCounted hlt
    refine ⟨hcounted,?_⟩
    have hpending : (apply c .renew).pending = c.pending := rfl
    have husers : (apply c .renew).users = c.users := rfl
    have hcount' : (apply c .renew).count = c.count + 1 := hcount
    omega
  | reuse =>
    simp only [apply]
    split
    · exact h
    rename_i hnew
    rw [not_or,h.present_iff] at hnew
    obtain ⟨hcounted,hcount⟩ := acquire_counted h.toCounted (by omega)
    refine ⟨hcounted,?_⟩
    have husers : c.acquire.users = c.users := rfl
    omega
  | leave =>
    simp only [apply]
    split
    · exact h
    rename_i husers
    have hleft : Counted { c with users := c.users - 1 } :=
      ⟨h.nonneg,h.small,h.present_iff,h.armed⟩
    refine ⟨arm_counted hleft,?_⟩
    have hpresent := h.present_iff
    have hfull := hcovered husers
    simp only [Counter.arm]
    by_cases htimer : c.timer = true
    · rw [pending_armed (by simp [htimer])]
      have hcount := hfull htimer
      omega
    rw [pending_idle (by simpa using htimer)] at hle
    by_cases hshown : c.present = true
    · rw [pending_armed (by simp [hshown])]
      omega
    · rw [hpresent] at hshown
      omega
  | expire =>
    obtain ⟨hcounted,hcount,-,husers⟩ := expire_count h.toCounted
    refine ⟨hcounted,?_⟩
    omega

theorem covered_of_inBalance (h : Held c) (hbalanced : InBalance (apply c a))
    (hdrained : InBalance (drain (apply c a))) : Covered c a := by
  have hsmall := h.small
  have hwrap : c.count = 2147483647 → c.acquire.count = -2147483648 := by
    intro hcount
    simp only [Counter.acquire,hcount]
    decide
  have hless : 0 ≤ c.acquire.count → c.count < 2147483647 := by
    intro hnonneg
    by_contra hge
    omega
  cases a with
  | idle | refuse => trivial
  | enter => exact hless hbalanced.1
  | renew =>
    have hlt := hless hbalanced.1
    obtain ⟨hcounted,hcount⟩ := acquire_counted h.toCounted hlt
    have hle := (drain_inBalance_iff hcounted).mp hdrained
    have husers : c.acquire.users = c.users := rfl
    have hpending : c.acquire.pending = c.pending := rfl
    exact ⟨hlt,by omega⟩
  | reuse => trivial
  | leave =>
    intro husers htimer
    simp only [apply,if_neg husers] at hdrained
    have hleft : Counted { c with users := c.users - 1 } :=
      ⟨h.nonneg,h.small,h.present_iff,h.armed⟩
    have hle := (drain_inBalance_iff (arm_counted hleft)).mp hdrained
    simp only [Counter.arm,Counter.pending,htimer,true_or,decide_true,if_true] at hle
    omega
  | expire => trivial

end

end FuzzingTargets.DelayedRelease
