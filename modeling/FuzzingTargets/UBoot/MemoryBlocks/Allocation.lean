import FuzzingTargets.UBoot.MemoryBlocks.Regions

namespace FuzzingTargets.UBoot.MemoryBlocks
open Intervals List

section

variable {k : Nat} {addr align : UInt64}

theorem alignDown_le (addr align : UInt64) : (lmbAlignDown addr align).toNat ≤ addr.toNat :=
  Nat.and_le_left

theorem mask_testBit (hk : k < 64) (i : Nat) :
    (2 ^ 64 - 1 - (2 ^ k - 1)).testBit i = (decide (i < 64) && decide (k ≤ i)) := by
  have hpow : 2 ^ k ≤ 2 ^ 64 := Nat.pow_le_pow_right (by decide) (Nat.le_of_lt hk)
  have hform : 2 ^ 64 - 1 - (2 ^ k - 1) = 2 ^ 64 - ((2 ^ k - 1) + 1) := by omega
  rw [hform,Nat.testBit_two_pow_sub_succ (by omega),Nat.testBit_two_pow_sub_one]
  congr 1
  rw [← decide_not,decide_eq_decide]
  omega

theorem alignDown_pow (halign : align.toNat = 2 ^ k) :
    (lmbAlignDown addr align).toNat = addr.toNat / 2 ^ k * 2 ^ k := by
  have hlt := align.toNat_lt
  have hk : k < 64 := by
    rw [halign] at hlt
    exact (Nat.pow_lt_pow_iff_right (by decide)).mp hlt
  have hpos : 0 < 2 ^ k := Nat.two_pow_pos k
  have hone : (1 : UInt64) ≤ align := by
    rw [UInt64.le_iff_toNat_le,halign]
    exact hpos
  have hmask : (align - 1).toNat = 2 ^ k - 1 := by
    rw [UInt64.toNat_sub_of_le _ _ hone,halign]
    rfl
  have hnot : (~~~(align - 1)).toNat = 2 ^ 64 - 1 - (2 ^ k - 1) :=
    (UInt64.toNat_not _).trans (congrArg (fun m => 2 ^ 64 - 1 - m) hmask)
  unfold lmbAlignDown
  rw [UInt64.toNat_and,hnot]
  apply Nat.eq_of_testBit_eq
  intro i
  rw [Nat.testBit_and,mask_testBit hk,Nat.testBit_mul_two_pow,Nat.testBit_div_two_pow]
  rcases Nat.lt_or_ge i 64 with hi | hi
  · rcases Nat.lt_or_ge i k with hik | hik
    · simp [Nat.not_le.mpr hik]
    · simp [hi,hik]
  have hbig : addr.toNat < 2 ^ i :=
    Nat.lt_of_lt_of_le addr.toNat_lt (Nat.pow_le_pow_right (by decide) hi)
  have hzero := Nat.testBit_lt_two_pow hbig
  have hki : k ≤ i := by omega
  simp [hki,hzero]

theorem alignDown_dvd (halign : align.toNat = 2 ^ k) : align.toNat ∣ (lmbAlignDown addr align).toNat := by
  rw [alignDown_pow halign,halign]
  exact Nat.dvd_mul_left _ _

theorem le_alignDown {b : Nat} (halign : align.toNat = 2 ^ k) (hb : align.toNat ∣ b)
    (hle : b ≤ addr.toNat) : b ≤ (lmbAlignDown addr align).toNat := by
  rw [alignDown_pow halign]
  rw [halign] at hb
  obtain ⟨m,rfl⟩ := hb
  rw [Nat.mul_comm] at hle ⊢
  exact Nat.mul_le_mul_right _ ((Nat.le_div_iff_mul_le (Nat.two_pow_pos k)).mpr hle)

end

def Free (reserved : List Region) (base size : Nat) : Prop :=
  Clear Region.lo Region.hi reserved base (base + size)

variable {b : UInt64} {k : Nat}

section

variable {reserved : List Region} {r : Region} {lmbbase size align base : UInt64} {fuel : Nat}

theorem overlapsRegion_none (hres : ∀ r ∈ reserved, Stays r) (hnew : Stays ⟨base,size⟩) :
    lmbOverlapsRegion reserved base size = none ↔ Free reserved base.toNat size.toNat := by
  unfold lmbOverlapsRegion Free Clear
  rw [find?_eq_none]
  refine forall₂_congr fun r hr => ?_
  have hoverlap := overlap_iff hnew (hres r hr)
  dsimp only at hoverlap ⊢
  rw [hoverlap]
  unfold Region.lo Region.hi
  dsimp only
  omega

theorem overlapsRegion_some (h : lmbOverlapsRegion reserved base size = some r) :
    r ∈ reserved ∧ lmbAddrsOverlap base size r.base r.size = true :=
  ⟨mem_of_find?_eq_some h,@find?_some _ _ r reserved h⟩

theorem overlap_starts_below (h : lmbAddrsOverlap base size r.base r.size = true)
    (hpos : 0 < size.toNat) : r.lo < base.toNat + size.toNat := by
  have hle := (decide_eq_true_iff.mp h).2
  rw [UInt64.le_iff_toNat_le,UInt64.toNat_sub,UInt64.toNat_add,UInt64.toNat_one] at hle
  unfold Region.lo
  omega

def startingBelow (reserved : List Region) (e : Nat) : List Region :=
  reserved.filter fun r => r.lo < e

theorem startingBelow_lt {e e' : Nat} (hr : r ∈ reserved) (hout : e' ≤ r.lo) (hin : r.lo < e) :
    (startingBelow reserved e').length < (startingBelow reserved e).length := by
  have hfilter : startingBelow reserved e' =
      (startingBelow reserved e).filter fun r => r.lo < e' := by
    unfold startingBelow
    rw [filter_filter]
    apply filter_congr
    intro s _
    rw [← Bool.decide_and,decide_eq_decide]
    omega
  rw [hfilter,length_filter_lt_length_iff_exists]
  refine ⟨r,mem_filter.mpr ⟨hr,by simpa using hin⟩,?_⟩
  simpa using hout

theorem jump_end (hle : ¬r.base < size) :
    (lmbAlignDown (r.base - size) align).toNat + size.toNat ≤ r.lo := by
  have hsize : size ≤ r.base := UInt64.not_lt.mp hle
  have hdown := alignDown_le (r.base - size) align
  rw [UInt64.toNat_sub_of_le _ _ hsize] at hdown
  rw [UInt64.le_iff_toNat_le] at hsize
  unfold Region.lo
  omega

section

variable (hpos : 0 < size.toNat)
include hpos

theorem searchDown_returns
    (hfuel : (startingBelow reserved (base.toNat + size.toNat)).length < fuel) :
    searchDown reserved lmbbase size align fuel base ≠ .running := by
  induction fuel generalizing base with
  | zero => omega
  | succ fuel ih =>
    unfold searchDown
    split
    · split
      · exact Search.noConfusion
      rename_i r hfound
      obtain ⟨hr,hoverlap⟩ := overlapsRegion_some hfound
      split
      · exact Search.noConfusion
      rename_i hle
      have hless := startingBelow_lt hr (@jump_end r size align hle)
        (overlap_starts_below hoverlap hpos)
      exact ih (by omega)
    · exact Search.noConfusion

theorem searchDown_largest (hres : ∀ r ∈ reserved, Stays r) (halign : align.toNat = 2 ^ k)
    (hfuel : (startingBelow reserved (base.toNat + size.toNat)).length < fuel)
    (hin : base.toNat + size.toNat ≤ 2 ^ 64) (hne : b ≠ 0) (hlow : lmbbase ≤ b)
    (hle : b.toNat ≤ base.toNat) (hdvd : align.toNat ∣ b.toNat)
    (hfree : Free reserved b.toNat size.toNat) :
    ∃ b', searchDown reserved lmbbase size align fuel base = .found b' ∧ b.toNat ≤ b'.toNat := by
  induction fuel generalizing base with
  | zero => omega
  | succ fuel ih =>
    have hbne : base ≠ 0 := by
      rintro rfl
      apply hne
      rw [← UInt64.toNat_inj]
      exact Nat.le_zero.mp hle
    have hblow : lmbbase ≤ base := by
      exact Nat.le_trans hlow hle
    unfold searchDown
    rw [if_pos ⟨hbne,hblow⟩]
    split
    · exact ⟨base,rfl,hle⟩
    rename_i r hfound
    obtain ⟨hr,hoverlap⟩ := overlapsRegion_some hfound
    have hboth := (overlap_iff (stays_iff.mpr ⟨hpos,hin⟩) (hres r hr)).mp hoverlap
    have hbefore : b.toNat + size.toNat ≤ r.lo := by
      rcases hfree r hr with hside | hside
      · have hlt : base.toNat < r.hi := hboth.1
        omega
      · exact hside
    have hsize : ¬r.base < size := by
      rw [UInt64.not_lt,UInt64.le_iff_toNat_le]
      unfold Region.lo at hbefore
      omega
    rw [if_neg hsize]
    have hend := @jump_end r size align hsize
    have hstart := overlap_starts_below hoverlap hpos
    refine ih ?_ ?_ ?_
    · have hless := startingBelow_lt hr hend hstart
      omega
    · omega
    refine le_alignDown halign hdvd ?_
    rw [UInt64.toNat_sub_of_le _ _ (UInt64.not_lt.mp hsize)]
    unfold Region.lo at hbefore
    omega

end

theorem searchDown_found
    (h : searchDown reserved lmbbase size align fuel base = .found b) :
    b ≠ 0 ∧ lmbbase ≤ b ∧ lmbOverlapsRegion reserved b size = none ∧
      (b = base ∨ b.toNat + size.toNat < 2 ^ 64 ∧ ∃ a, b = lmbAlignDown a align) ∧
      (0 < size.toNat → b.toNat ≤ base.toNat) := by
  induction fuel generalizing base with
  | zero => cases h
  | succ fuel ih =>
    unfold searchDown at h
    split at h
    · rename_i hrange
      split at h
      · rename_i hnone
        cases h
        exact ⟨hrange.1,hrange.2,hnone,.inl rfl,fun _ => Nat.le_refl _⟩
      rename_i r hfound
      split at h
      · cases h
      rename_i hle
      have hend := @jump_end r size align hle
      have hlo : r.lo < 2 ^ 64 := r.base.toNat_lt
      obtain ⟨hne,hlow,hnone,haligned,hhigh⟩ := ih h
      refine ⟨hne,hlow,hnone,.inr (haligned.elim (fun h => ⟨by rw [h]; omega,_,h⟩) id),
        fun hpos => ?_⟩
      have hbelow := overlap_starts_below (overlapsRegion_some hfound).2 hpos
      have hless := hhigh hpos
      omega
    · cases h

end

def limit (r : Region) (maxAddr : UInt64) : Nat :=
  if maxAddr = 0 then r.hi else min r.hi maxAddr.toNat

structure Within (reserved : List Region) (size align maxAddr : UInt64) (r : Region) (b : UInt64) :
    Prop where
  nonzero : b ≠ 0
  aligned : align.toNat ∣ b.toNat
  starts : r.base ≤ b
  ends : b.toNat + size.toNat ≤ limit r maxAddr
  free : Free reserved b.toNat size.toNat

section

variable {reserved : List Region} {r : Region} {size align maxAddr : UInt64}

theorem topBelow_toNat (hr : Stays r) : (topBelow r maxAddr).toNat = min r.hi maxAddr.toNat := by
  have hmax := maxAddr.toNat_lt
  obtain ⟨hpos,hin⟩ := hr
  have hsum : (r.base + r.size).toNat = r.hi % 2 ^ 64 := UInt64.toNat_add _ _
  have hones : (-1 : UInt64).toNat = 2 ^ 64 - 1 := by decide
  have hmin (a b : UInt64) : (min a b).toNat = min a.toNat b.toNat := by
    have hdef : min a b = if a ≤ b then a else b := rfl
    rw [hdef]
    split <;> rename_i hle <;> rw [UInt64.le_iff_toNat_le] at hle <;> omega
  have hlo : r.base.toNat = r.lo := rfl
  have hhi : r.hi = r.base.toNat + r.size.toNat := rfl
  have hsize := r.size.toNat_lt
  unfold topBelow
  rw [hmin]
  split <;> rename_i hwrap <;> rw [UInt64.lt_iff_toNat_lt,hsum] at hwrap <;> omega

theorem firstCandidate_some (hr : Stays r) (hpos : 0 < size.toNat)
    (hfit : maxAddr = 0 ∨ size ≤ maxAddr) {base : UInt64}
    (h : firstCandidate r size align maxAddr = some base) :
    ∃ start : UInt64, base = lmbAlignDown start align ∧
      start.toNat + size.toNat = limit r maxAddr := by
  unfold firstCandidate at h
  split at h
  · cases h
  rename_i hsize
  rw [UInt64.lt_iff_toNat_lt] at hsize
  have hhi : r.hi = r.base.toNat + r.size.toNat := rfl
  have hin := hr.2
  split at h
  · rename_i hzero
    refine ⟨_,(Option.some.inj h).symm,?_⟩
    rw [limit,if_pos hzero,UInt64.toNat_sub,UInt64.toNat_add]
    omega
  rename_i hzero
  split at h
  · refine ⟨_,(Option.some.inj h).symm,?_⟩
    have hle : size.toNat ≤ maxAddr.toNat :=
      UInt64.le_iff_toNat_le.mp (hfit.resolve_left hzero)
    have htop := @topBelow_toNat r maxAddr hr
    have hsub : size ≤ topBelow r maxAddr := by
      rw [UInt64.le_iff_toNat_le,htop]
      omega
    rw [limit,if_neg hzero,UInt64.toNat_sub_of_le _ _ hsub,htop]
    omega
  · cases h

theorem firstCandidate_none (hpos : 0 < size.toNat) (h : firstCandidate r size align maxAddr = none)
    (b : UInt64) : ¬Within reserved size align maxAddr r b := by
  intro hb
  have hstart := UInt64.le_iff_toNat_le.mp hb.starts
  have hend := hb.ends
  have hhi : r.hi = r.base.toNat + r.size.toNat := rfl
  unfold firstCandidate at h
  unfold limit at hend
  split at h
  · rename_i hsize
    rw [UInt64.lt_iff_toNat_lt] at hsize
    split at hend <;> omega
  split at h
  · cases h
  rename_i hzero
  split at h
  · cases h
  rename_i hmax
  rw [UInt64.lt_iff_toNat_lt] at hmax
  rw [if_neg hzero] at hend
  omega

theorem limit_hi (r : Region) (maxAddr : UInt64) : limit r maxAddr ≤ r.hi := by
  unfold limit
  split
  · exact Nat.le_refl _
  · omega

theorem limit_le (hr : Stays r) : limit r maxAddr ≤ 2 ^ 64 := Nat.le_trans (limit_hi r maxAddr) hr.2

theorem fuel_enough (e : Nat) : (startingBelow reserved e).length < reserved.length + 1 :=
  Nat.lt_succ_of_le (length_filter_le _ _)

theorem searchRegion_returns (hpos : 0 < size.toNat) :
    searchRegion reserved size align maxAddr r ≠ .running := by
  unfold searchRegion
  split
  · exact Search.noConfusion
  · exact searchDown_returns hpos (fuel_enough _)

theorem searchRegion_nonzero
    (h : searchRegion reserved size align maxAddr r = .found b) : b ≠ 0 := by
  unfold searchRegion at h
  split at h
  · cases h
  · exact (searchDown_found h).1

variable (hpos : 0 < size.toNat) (hfit : maxAddr = 0 ∨ size ≤ maxAddr)
  (hres : ∀ r ∈ reserved, Stays r)
include hpos hfit hres

theorem searchRegion_found (hr : Stays r)
    (h : searchRegion reserved size align maxAddr r = .found b) :
    b ≠ 0 ∧ r.base ≤ b ∧ b.toNat + size.toNat ≤ limit r maxAddr ∧
      (∃ a, b = lmbAlignDown a align) ∧ Free reserved b.toNat size.toNat := by
  unfold searchRegion at h
  split at h
  · cases h
  rename_i base hcandidate
  obtain ⟨start,rfl,hstart⟩ := firstCandidate_some hr hpos hfit hcandidate
  have hdown := alignDown_le start align
  have hlimit := @limit_le r maxAddr hr
  obtain ⟨hne,hlow,hnone,haligned,hhigh⟩ := searchDown_found h
  have hle := hhigh hpos
  exact ⟨hne,hlow,by omega,haligned.elim (fun h => ⟨_,h⟩) fun h => h.2,
    (overlapsRegion_none hres (stays_iff.mpr ⟨hpos,by omega⟩)).mp hnone⟩

theorem searchRegion_largest (hr : Stays r) (halign : align.toNat = 2 ^ k) (hb : Within reserved size align maxAddr r b) :
    ∃ b', searchRegion reserved size align maxAddr r = .found b' ∧ b.toNat ≤ b'.toNat := by
  unfold searchRegion
  split
  · rename_i hcandidate
    exact absurd hb (firstCandidate_none hpos hcandidate b)
  rename_i base hcandidate
  obtain ⟨start,rfl,hstart⟩ := firstCandidate_some hr hpos hfit hcandidate
  have hdown := alignDown_le start align
  have hlimit := @limit_le r maxAddr hr
  have hend := hb.ends
  exact searchDown_largest hpos hres halign (fuel_enough _) (by omega) hb.nonzero hb.starts
    (le_alignDown halign hb.aligned (by omega)) hb.aligned hb.free

end

section

variable {reserved regions : List Region} {size align maxAddr : UInt64}

theorem searchMemory_returns (hpos : 0 < size.toNat) :
    searchMemory reserved size align maxAddr regions ≠ .running := by
  induction regions with
  | nil => exact Search.noConfusion
  | cons r below ih =>
    have hr := @searchRegion_returns reserved r size align maxAddr hpos
    unfold searchMemory
    split
    · exact ih
    · exact hr

theorem searchMemory_region
    (h : searchMemory reserved size align maxAddr regions = .found b) :
    ∃ r ∈ regions, searchRegion reserved size align maxAddr r = .found b := by
  induction regions with
  | nil => cases h
  | cons r below ih =>
    unfold searchMemory at h
    split at h
    · obtain ⟨s,hs,hfound⟩ := ih h
      exact ⟨s,.tail _ hs,hfound⟩
    · exact ⟨r,mem_cons_self,h⟩

theorem searchMemory_nothing (h : searchMemory reserved size align maxAddr regions = .nothing) :
    ∀ r ∈ regions, searchRegion reserved size align maxAddr r = .nothing := by
  induction regions with
  | nil => simp
  | cons r below ih =>
    unfold searchMemory at h
    split at h
    · rename_i hr
      exact forall_mem_cons.mpr ⟨hr,ih h⟩
    · rename_i hr
      exact absurd h hr

variable (hpos : 0 < size.toNat) (hfit : maxAddr = 0 ∨ size ≤ maxAddr)
  (hres : ∀ r ∈ reserved, Stays r) (hmem : ∀ r ∈ regions, Stays r)
include hpos hfit hres hmem

theorem searchMemory_largest (hdown : regions.Pairwise fun r s => s.hi ≤ r.lo)
    (halign : align.toNat = 2 ^ k) {r : Region} (hr : r ∈ regions) (hb : Within reserved size align maxAddr r b) :
    ∃ b', searchMemory reserved size align maxAddr regions = .found b' ∧ b.toNat ≤ b'.toNat := by
  induction regions with
  | nil => cases hr
  | cons s below ih =>
    obtain ⟨hbelow,hdown⟩ := pairwise_cons.mp hdown
    have hs := hmem s mem_cons_self
    have hreturns := @searchRegion_returns reserved s size align maxAddr hpos
    unfold searchMemory
    rcases mem_cons.mp hr with rfl | hr
    · obtain ⟨b',hfound,hle⟩ := searchRegion_largest hpos hfit hres hs halign hb
      exact ⟨b',by rw [hfound],hle⟩
    cases hfound : searchRegion reserved size align maxAddr s with
    | found b' =>
      refine ⟨b',rfl,?_⟩
      obtain ⟨-,hstart,-⟩ := searchRegion_found hpos hfit hres hs hfound
      have hle := hbelow r hr
      have hend := hb.ends
      have hlimit := limit_hi r maxAddr
      rw [UInt64.le_iff_toNat_le] at hstart
      unfold Region.lo at hle
      omega
    | nothing => exact ih (forall_mem_cons.mp hmem).2 hdown hr
    | running => exact absurd hfound hreturns

end

structure WellFormed (t : List Region) : Prop where
  count : t.length ≤ maxLmbRegions
  table : Table 0 t

theorem WellFormed.stays {t : List Region} (h : WellFormed t) (r : Region) (hr : r ∈ t) : Stays r :=
  table_stays h.table hr

structure Fits (lmb : Lmb) (size align maxAddr base : UInt64) : Prop where
  aligned : align.toNat ∣ base.toNat
  inside : ∃ r ∈ lmb.memory, r.lo ≤ base.toNat ∧ base.toNat + size.toNat ≤ r.hi
  below : maxAddr ≠ 0 → base.toNat + size.toNat ≤ maxAddr.toNat
  free : Free lmb.reserved base.toNat size.toNat

structure Allocated (lmb lmb' : Lmb) (size align maxAddr base : UInt64) : Prop where
  fits : Fits lmb size align maxAddr base
  largest : ∀ b, Fits lmb size align maxAddr b → b.toNat ≤ base.toNat
  reserved : ∀ x, Covers Region.lo Region.hi lmb'.reserved x ↔
    Covers Region.lo Region.hi lmb.reserved x ∨ base.toNat ≤ x ∧ x < base.toNat + size.toNat
  memory : lmb'.memory = lmb.memory

def Refused (lmb lmb' : Lmb) (size align maxAddr : UInt64) : Prop :=
  lmb' = lmb ∧ ((∀ b, b ≠ 0 → ¬Fits lmb size align maxAddr b) ∨
    lmb.reserved.length = maxLmbRegions)

def AllocatesHighest (lmb : Lmb) (size align maxAddr : UInt64) : Prop :=
  ∃ base lmb', lmbAllocBase lmb size align maxAddr = some (base,lmb') ∧
    (base ≠ 0 → Allocated lmb lmb' size align maxAddr base) ∧
    (base = 0 → Refused lmb lmb' size align maxAddr)

structure Strays (lmb : Lmb) (size align maxAddr base : UInt64) : Prop where
  nonzero : base ≠ 0
  aligned : align.toNat ∣ base.toNat
  above : ∃ r ∈ lmb.memory, r.lo < maxAddr.toNat ∧ size.toNat ≤ r.size.toNat ∧ r.lo ≤ base.toNat
  start : base.toNat + size.toNat ≤ 2 ^ 64 ∨
    base.toNat + size.toNat ≤ 2 ^ 64 + maxAddr.toNat ∧
      2 ^ 64 + maxAddr.toNat < base.toNat + size.toNat + align.toNat
  free : ∀ r ∈ lmb.reserved, r.hi ≤ base.toNat ∨ (base.toNat + size.toNat - 1) % 2 ^ 64 < r.lo

def Highest (P : UInt64 → Prop) (b : UInt64) : Prop := P b ∧ ∀ b', P b' → b'.toNat ≤ b.toNat

def NoRoom (t : List Region) (new : Region) : Prop :=
  t.length = maxLmbRegions ∧ ∀ r ∈ t, r.lo ≠ new.hi % 2 ^ 64 ∧ new.lo ≠ r.hi % 2 ^ 64

structure StaysInside (lmb : Lmb) (size align maxAddr : UInt64) : Prop where
  fitting : maxAddr = 0 ∨ size ≤ maxAddr → ∀ b, b ≠ 0 →
    Highest (Fits lmb size align maxAddr) b → ¬WrapsAround lmb.reserved ⟨b,size⟩
  short : ¬(maxAddr = 0 ∨ size ≤ maxAddr) → ∀ b,
    Highest (Strays lmb size align maxAddr) b → NoRoom lmb.reserved ⟨b,size⟩

variable {s : Region}

section

variable {lmb lmb' : Lmb} {t pre post : List Region} {r new : Region} {size align maxAddr : UInt64}
  {base b : UInt64} {reserved : List Region}

theorem joinNext_pos (pre : List Region) (r : Region) (post : List Region) :
    1 ≤ (joinNext pre r post).1 := by
  unfold joinNext
  split
  · exact Int.le_refl 1
  · split
    · exact (show (1 : Int) ≤ 2 by decide)
    · exact Int.le_refl 1

theorem joinNext_nonneg (pre : List Region) (r : Region) (post : List Region) :
    ¬(joinNext pre r post).1 < 0 := by
  have := joinNext_pos pre r post
  omega

theorem lmbAddRegion_negative (h : (lmbAddRegion t base size).1 < 0) :
    lmbAddRegion t base size = (-1,t) := by
  revert h
  have hzero : ¬(0 : Int) < 0 := Int.lt_irrefl 0
  unfold lmbAddRegion
  split
  · exact (absurd · hzero)
  split
  · exact (absurd · hzero)
  · exact (absurd · (joinNext_nonneg _ _ _))
  · exact (absurd · (joinNext_nonneg _ _ _))
  · exact fun _ => rfl
  split
  · exact fun _ => rfl
  · exact (absurd · hzero)

theorem joinNext_starts {x : Nat} (hall : ∀ s ∈ pre ++ r :: post, x < s.lo) :
    ∀ s ∈ (joinNext pre r post).2, x < s.lo := by
  unfold joinNext
  split
  · exact hall
  split
  · simp only [forall_mem_append,forall_mem_cons] at hall
    exact forall_mem_append.mpr ⟨hall.1,forall_mem_cons.mpr ⟨hall.2.1,hall.2.2.2⟩⟩
  · exact hall

theorem wraps_at_zero (ht : Table 0 t) (hnew : Stays new) (hne : new.lo ≠ 0)
    (htop : new.hi = 2 ^ 64) (hr : r ∈ t) (hzero : r.lo = 0) :
    1 ≤ (lmbAddRegion t new.base new.size).1 ∧ Covers Region.lo Region.hi t 0 ∧
      ¬Covers Region.lo Region.hi (lmbAddRegion t new.base new.size).2 0 := by
  obtain ⟨pre,post,rfl⟩ := append_of_mem hr
  obtain ⟨-,hstays,hbefore,hafter⟩ := table_split.mp ht
  have hpre : pre = [] := by
    apply eq_nil_iff_forall_not_mem.mpr
    intro p hp
    have hle := hbefore p hp
    have hpos := (table_stays ht (show p ∈ pre ++ r :: post by simp [hp])).1
    omega
  subst hpre
  have hadjacent : 0 < lmbAddrsAdjacent new.base new.size r.base r.size := by
    apply adjacent_pos.mpr
    rw [htop]
    exact hzero
  have hscan : scanRegions new.base new.size [] ([] ++ r :: post) = .before [] r post := by
    rw [nil_append,scanRegions,if_neg,if_pos hadjacent]
    rintro ⟨hbase,-⟩
    apply hne
    rw [Region.lo,← hbase]
    exact hzero
  have hrun : lmbAddRegion ([] ++ r :: post) new.base new.size =
      joinNext [] ⟨r.base - new.size,r.size + new.size⟩ post := by
    rw [lmbAddRegion_scan (by simp),hscan]
  rw [hrun]
  refine ⟨joinNext_pos _ _ _,⟨r,hr,by omega,by have := hstays.1; omega⟩,?_⟩
  rintro ⟨s,hs,hle,-⟩
  refine absurd hle (Nat.not_le.mpr (joinNext_starts (forall_mem_cons.mpr ⟨?_,fun q hq => ?_⟩) s hs))
  · have hpos := hnew.1
    unfold Region.lo Region.hi at *
    rw [UInt64.toNat_sub,hzero]
    omega
  · have hle := hafter q hq
    have hpos := hstays.1
    omega

theorem wraps_between (ht : Table 0 [r,s]) (hnew : Stays new) (hzero : r.lo = 0)
    (htop : s.hi = 2 ^ 64) (hmeet : new.lo = r.hi) (hbelow : new.hi ≠ 2 ^ 64) :
    1 ≤ (lmbAddRegion [r,s] new.base new.size).1 ∧ Covers Region.lo Region.hi [r,s] (2 ^ 64 - 1) ∧
      ¬Covers Region.lo Region.hi (lmbAddRegion [r,s] new.base new.size).2 (2 ^ 64 - 1) := by
  have hrpos := (table_stays ht (show r ∈ [r,s] by simp)).1
  have hnewin := hnew.2
  have hnewpos := hnew.1
  have hafter : s.lo < 2 ^ 64 := s.base.toNat_lt
  have hnotbefore : ¬0 < lmbAddrsAdjacent new.base new.size r.base r.size := by
    rw [adjacent_pos,Nat.mod_eq_of_lt (by omega)]
    omega
  have hadjacent : lmbAddrsAdjacent new.base new.size r.base r.size < 0 := by
    unfold lmbAddrsAdjacent at hnotbefore ⊢
    have hfirst : ¬r.base = new.base + new.size := by
      intro h
      rw [if_pos h] at hnotbefore
      exact hnotbefore (by decide)
    have hsecond : new.base = r.base + r.size := follows_iff.mpr (by
      rw [hmeet,Nat.mod_eq_of_lt (by omega)])
    rw [if_neg hfirst,if_pos hsecond]
    decide
  have hscan : scanRegions new.base new.size [] [r,s] = .after [] r [s] := by
    rw [scanRegions,if_neg,if_neg hnotbefore,if_pos hadjacent]
    rintro ⟨hbase,-⟩
    have hsame : r.lo = new.lo := congrArg UInt64.toNat hbase
    omega
  have hjoin : lmbRegionsAdjacent ⟨r.base,r.size + new.size⟩ s ≠ 0 := by
    unfold lmbRegionsAdjacent lmbAddrsAdjacent
    split
    · decide
    rw [if_pos]
    · decide
    · refine follows_iff.mpr ?_
      rw [htop]
      exact hzero
  have hrun : lmbAddRegion [r,s] new.base new.size =
      (2,[⟨r.base,r.size + new.size + s.size⟩]) := by
    rw [lmbAddRegion_scan (by simp),hscan]
    dsimp only
    rw [joinNext,if_pos hjoin]
    rfl
  rw [hrun]
  refine ⟨show (1 : Int) ≤ 2 by decide,⟨s,by simp,by omega,by omega⟩,?_⟩
  rintro ⟨q,hq,-,hlt⟩
  rw [mem_singleton.mp hq] at hlt
  have hsize := (r.size + new.size + s.size).toNat_lt
  unfold Region.hi at hlt
  unfold Region.lo at hzero
  dsimp only at hlt
  omega

theorem wrapsAround_breaks (ht : Table 0 t) (hnew : Stays new) (hne : new.lo ≠ 0)
    (hwrap : WrapsAround t new) : 1 ≤ (lmbAddRegion t new.base new.size).1 ∧
      ∃ x, Covers Region.lo Region.hi t x ∧
        ¬Covers Region.lo Region.hi (lmbAddRegion t new.base new.size).2 x := by
  rcases hwrap with ⟨htop,r,hr,hzero⟩ | ⟨hzero,-⟩ | ⟨r,s,rfl,hzero,htop,hmeet⟩
  · obtain ⟨hret,hbroken⟩ := wraps_at_zero ht hnew hne htop hr hzero
    exact ⟨hret,0,hbroken⟩
  · exact absurd hzero hne
  by_cases hfull : new.hi = 2 ^ 64
  · obtain ⟨hret,hbroken⟩ := wraps_at_zero ht hnew hne hfull (by simp) hzero
    exact ⟨hret,0,hbroken⟩
  · obtain ⟨hret,hbroken⟩ := wraps_between ht hnew hzero htop hmeet hfull
    exact ⟨hret,_,hbroken⟩

theorem fits_within (h : Fits lmb size align maxAddr b) (hne : b ≠ 0) :
    ∃ r ∈ lmb.memory, Within lmb.reserved size align maxAddr r b := by
  obtain ⟨r,hr,hstart,hend⟩ := h.inside
  refine ⟨r,hr,hne,h.aligned,UInt64.le_iff_toNat_le.mpr hstart,?_,h.free⟩
  unfold limit
  split
  · exact hend
  · rename_i hmax
    have hbelow := h.below hmax
    omega

section

variable {k : Nat} (hm : WellFormed lmb.memory) (hr : WellFormed lmb.reserved)
  (hpos : 0 < size.toNat) (hfit : maxAddr = 0 ∨ size ≤ maxAddr) (halign : align.toNat = 2 ^ k)
include hm hr hpos hfit halign

theorem fits_found (hb : Fits lmb size align maxAddr b) (hne : b ≠ 0) :
    ∃ b', searchMemory lmb.reserved size align maxAddr lmb.memory.reverse = .found b' ∧
      b.toNat ≤ b'.toNat := by
  obtain ⟨s,hs,hwithin⟩ := fits_within hb hne
  exact searchMemory_largest hpos hfit hr.stays
    (fun r h => table_stays hm.table (mem_reverse.mp h)) (pairwise_reverse.mpr hm.table.apart.2)
    halign (mem_reverse.mpr hs) hwithin

theorem searchMemory_fits
    (h : searchMemory lmb.reserved size align maxAddr lmb.memory.reverse = .found b) :
    b ≠ 0 ∧ Stays ⟨b,size⟩ ∧ Fits lmb size align maxAddr b ∧
      ∀ b', Fits lmb size align maxAddr b' → b'.toNat ≤ b.toNat := by
  have hmem (r : Region) (h : r ∈ lmb.memory.reverse) : Stays r :=
    table_stays hm.table (mem_reverse.mp h)
  obtain ⟨r,hrmem,hfound⟩ := searchMemory_region h
  obtain ⟨hne,hstart,hend,⟨a,haligned⟩,hfree⟩ :=
    searchRegion_found hpos hfit hr.stays (hmem r hrmem) hfound
  have hhi := limit_hi r maxAddr
  have hin := (hmem r hrmem).2
  refine ⟨hne,stays_iff.mpr ⟨hpos,by omega⟩,⟨?_,?_,?_,hfree⟩,?_⟩
  · rw [haligned]
    exact alignDown_dvd halign
  · exact ⟨r,mem_reverse.mp hrmem,UInt64.le_iff_toNat_le.mp hstart,by omega⟩
  · intro hmax
    rw [limit,if_neg hmax] at hend
    omega
  intro b' hb'
  by_cases hzero : b' = 0
  · rw [hzero]
    exact Nat.zero_le _
  obtain ⟨b'',hfound,hle⟩ := fits_found hm hr hpos hfit halign hb' hzero
  rw [h] at hfound
  cases hfound
  exact hle

end

section

variable {k : Nat} (hmax : ¬(maxAddr = 0 ∨ size ≤ maxAddr)) (halign : align.toNat = 2 ^ k)
include hmax

theorem short_lt : maxAddr.toNat < size.toNat :=
  UInt64.lt_iff_toNat_lt.mp (UInt64.not_le.mp fun h => hmax (.inr h))

theorem firstCandidate_short (hr : Stays r) : firstCandidate r size align maxAddr =
    if r.lo < maxAddr.toNat ∧ size.toNat ≤ r.size.toNat then
      some (lmbAlignDown (maxAddr - size) align) else none := by
  have hlt := short_lt hmax
  have hlo : r.lo = r.base.toNat := rfl
  have hhi : r.hi = r.base.toNat + r.size.toNat := rfl
  unfold firstCandidate
  simp only [UInt64.lt_iff_toNat_lt,if_neg fun h => hmax (.inl h)]
  by_cases hsize : r.size.toNat < size.toNat
  · rw [if_pos hsize,if_neg (by omega)]
  by_cases hstart : r.base.toNat < maxAddr.toNat
  · have htop : topBelow r maxAddr = maxAddr := by
      rw [← UInt64.toNat_inj,topBelow_toNat hr]
      omega
    rw [if_neg hsize,if_pos hstart,if_pos ⟨hstart,by omega⟩,htop]
  · rw [if_neg hsize,if_neg hstart,if_neg (by omega)]

include halign

theorem highestStart_bounds (hpos : 0 < size.toNat) :
    align.toNat ∣ (lmbAlignDown (maxAddr - size) align).toNat ∧
      (lmbAlignDown (maxAddr - size) align).toNat + size.toNat ≤ 2 ^ 64 + maxAddr.toNat ∧
      2 ^ 64 + maxAddr.toNat <
        (lmbAlignDown (maxAddr - size) align).toNat + size.toNat + align.toNat := by
  have hlt := short_lt hmax
  have hsize := size.toNat_lt
  have hsub : (maxAddr - size).toNat = 2 ^ 64 + maxAddr.toNat - size.toNat := by
    rw [UInt64.toNat_sub]
    omega
  have hdiv := Nat.div_add_mod (maxAddr - size).toNat (2 ^ k)
  have hmod := Nat.mod_lt (maxAddr - size).toNat (Nat.two_pow_pos k)
  rw [alignDown_pow halign,halign]
  rw [Nat.mul_comm] at hdiv
  exact ⟨Nat.dvd_mul_left _ _,by omega,by omega⟩

theorem strays_le (hpos : 0 < size.toNat) (hb : Strays lmb size align maxAddr b) :
    b.toNat ≤ (lmbAlignDown (maxAddr - size) align).toNat := by
  have hlt := short_lt hmax
  refine le_alignDown halign hb.aligned ?_
  rw [UInt64.toNat_sub]
  have hsize := size.toNat_lt
  rcases hb.start with hstart | ⟨hstart,-⟩ <;> omega

end

theorem overlap_wrapping (hpos : 0 < size.toNat) (hr : Stays r) :
    lmbAddrsOverlap b size r.base r.size = true ↔
      ¬(r.hi ≤ b.toNat ∨ (b.toNat + size.toNat - 1) % 2 ^ 64 < r.lo) := by
  obtain ⟨hrpos,hrin⟩ := stays_iff.mp hr
  have hlast : (b + size - 1).toNat = (b.toNat + size.toNat - 1) % 2 ^ 64 := by
    rw [UInt64.toNat_sub,UInt64.toNat_add,UInt64.toNat_one]
    omega
  unfold lmbAddrsOverlap Region.lo Region.hi
  rw [decide_eq_true_iff,UInt64.le_iff_toNat_le,UInt64.le_iff_toNat_le,hlast,
    last_toNat hrpos hrin]
  omega

theorem lmbOverlapsRegion_none (hpos : 0 < size.toNat) (hres : ∀ r ∈ reserved, Stays r) :
    lmbOverlapsRegion reserved b size = none ↔
      ∀ r ∈ reserved, r.hi ≤ b.toNat ∨ (b.toNat + size.toNat - 1) % 2 ^ 64 < r.lo := by
  rw [lmbOverlapsRegion,find?_eq_none]
  exact forall₂_congr fun r hr => (overlap_wrapping hpos (hres r hr)).not.trans not_not

theorem memory_unique (hm : WellFormed lmb.memory) (hr : r ∈ lmb.memory)
    (hs : s ∈ lmb.memory) (hrs : r.lo < s.hi) (hsr : s.lo < r.hi) : r = s := by
  obtain ⟨pre,post,hsplit⟩ := append_of_mem hr
  obtain ⟨-,-,hbefore,hafter⟩ := table_split.mp (hsplit ▸ hm.table)
  rw [hsplit,mem_append,mem_cons] at hs
  rcases hs with hs | rfl | hs
  · have hle := hbefore s hs
    omega
  · rfl
  · have hle := hafter s hs
    omega

section

variable {k : Nat} (hm : WellFormed lmb.memory) (hr : WellFormed lmb.reserved)
  (hpos : 0 < size.toNat) (hmax : ¬(maxAddr = 0 ∨ size ≤ maxAddr)) (halign : align.toNat = 2 ^ k)
include hm hr hpos hmax halign

theorem searchRegion_strays (hs : s ∈ lmb.memory)
    (h : searchRegion lmb.reserved size align maxAddr s = .found b) :
    (s.lo < maxAddr.toNat ∧ size.toNat ≤ s.size.toNat) ∧ Strays lmb size align maxAddr b := by
  rw [searchRegion,firstCandidate_short hmax (table_stays hm.table hs)] at h
  split at h
  · cases h
  rename_i base hstart
  split at hstart
  · rename_i hshort
    cases hstart
    obtain ⟨hne,hlow,hnone,haligned,-⟩ := searchDown_found h
    have hbounds := highestStart_bounds hmax halign hpos
    refine ⟨hshort,hne,?_,⟨s,hs,hshort.1,hshort.2,UInt64.le_iff_toNat_le.mp hlow⟩,?_,
      (lmbOverlapsRegion_none hpos hr.stays).mp hnone⟩
    · rcases haligned with rfl | ⟨-,a,rfl⟩
      · exact hbounds.1
      · exact alignDown_dvd halign
    · rcases haligned with rfl | ⟨hin,-⟩
      · exact .inr hbounds.2
      · exact .inl (Nat.le_of_lt hin)
  · cases hstart

theorem strays_searchRegion (hs : s ∈ lmb.memory)
    (hshort : s.lo < maxAddr.toNat ∧ size.toNat ≤ s.size.toNat)
    (hb : Strays lmb size align maxAddr b) (hlow : s.lo ≤ b.toNat) :
    ∃ b', searchRegion lmb.reserved size align maxAddr s = .found b' ∧ b.toNat ≤ b'.toNat := by
  have hlt := short_lt hmax
  have hres := hr.stays
  have hle := strays_le hmax halign hpos hb
  obtain ⟨hdvd,hupper,hlower⟩ := highestStart_bounds hmax halign hpos
  rw [searchRegion,firstCandidate_short hmax (table_stays hm.table hs),if_pos hshort]
  dsimp only
  generalize lmbAlignDown (maxAddr - size) align = start at hle hdvd hupper hlower
  by_cases hwrap : start.toNat + size.toNat ≤ 2 ^ 64
  · refine searchDown_largest hpos hres halign (fuel_enough _) hwrap hb.nonzero
      (UInt64.le_iff_toNat_le.mpr hlow) hle hb.aligned fun r hr => ?_
    have hfree := hb.free r hr
    unfold Region.lo Region.hi at *
    omega
  · have hne : start ≠ 0 := by
      rintro rfl
      exact hb.nonzero (UInt64.toNat_inj.mp (Nat.le_zero.mp hle))
    have hbelow : s.base ≤ start := UInt64.le_iff_toNat_le.mpr (Nat.le_trans hlow hle)
    rw [searchDown,if_pos ⟨hne,hbelow⟩]
    cases hoverlap : lmbOverlapsRegion lmb.reserved start size with
    | none => exact ⟨start,rfl,hle⟩
    | some q =>
      obtain ⟨hq,hover⟩ := overlapsRegion_some hoverlap
      have hover := (overlap_wrapping hpos (hres q hq)).mp hover
      have hfree := hb.free q hq
      have hstart : b = start := by
        refine UInt64.toNat_inj.mp (Nat.le_antisymm hle ?_)
        rcases hb.start with hin | ⟨-,hout⟩
        · omega
        · have hzero := Nat.eq_zero_of_dvd_of_lt (Nat.dvd_sub hdvd hb.aligned) (by omega)
          omega
      rw [hstart] at hfree
      exact absurd hfree hover

theorem searchMemory_highest
    (h : searchMemory lmb.reserved size align maxAddr lmb.memory.reverse = .found b) :
    Highest (Strays lmb size align maxAddr) b := by
  have hlt := short_lt hmax
  obtain ⟨s,hs,hfound⟩ := searchMemory_region h
  obtain ⟨hshort,hstrays⟩ := searchRegion_strays hm hr hpos hmax halign (mem_reverse.mp hs) hfound
  refine ⟨hstrays,fun b' hb' => ?_⟩
  obtain ⟨s',hs',hbase,hsize,hlow⟩ := hb'.above
  obtain rfl : s = s' := by
    refine memory_unique hm (mem_reverse.mp hs) hs' ?_ ?_ <;> unfold Region.lo Region.hi at * <;> omega
  obtain ⟨b'',hfound',hle⟩ := strays_searchRegion hm hr hpos hmax halign hs' hshort hb' hlow
  rw [hfound] at hfound'
  cases hfound'
  exact hle

theorem strays_found (hb : Strays lmb size align maxAddr b) :
    ∃ b', searchMemory lmb.reserved size align maxAddr lmb.memory.reverse = .found b' := by
  obtain ⟨s,hs,hbase,hsize,hlow⟩ := hb.above
  obtain ⟨b',hfound,-⟩ := strays_searchRegion hm hr hpos hmax halign hs ⟨hbase,hsize⟩ hb hlow
  cases hsearch : searchMemory lmb.reserved size align maxAddr lmb.memory.reverse with
  | found b => exact ⟨b,rfl⟩
  | running => exact absurd hsearch (searchMemory_returns hpos)
  | nothing =>
    rw [searchMemory_nothing hsearch s (mem_reverse.mpr hs)] at hfound
    cases hfound

end

theorem lmbAddRegion_noRoom (hpos : 0 < size.toNat) (hr : WellFormed lmb.reserved)
    (hb : Strays lmb size align maxAddr b) :
    (lmbAddRegion lmb.reserved b size).1 < 0 ↔ NoRoom lmb.reserved ⟨b,size⟩ := by
  have hres := hr.stays
  have hnone := (lmbOverlapsRegion_none hpos hres).mpr hb.free
  rw [lmbOverlapsRegion,find?_eq_none] at hnone
  by_cases hempty : lmb.reserved = []
  · simp [hempty,lmbAddRegion,NoRoom,maxLmbRegions]
  have hscan := @lmbAddRegion_scan lmb.reserved ⟨b,size⟩ hempty
  dsimp only at hscan
  rw [hscan]
  rcases scanRegions_cases ⟨b,size⟩ [] lmb.reserved with ⟨hclear,hall⟩ | ⟨mid,r,post,hsplit,-,hstop⟩
  · dsimp only at hclear
    rw [hclear]
    dsimp only
    have hapart : ∀ r ∈ lmb.reserved, r.lo ≠ (⟨b,size⟩ : Region).hi % 2 ^ 64 ∧
        (⟨b,size⟩ : Region).lo ≠ r.hi % 2 ^ 64 := fun r h => adjacent_zero (hall r h).1
    split
    · rename_i hfull
      exact iff_of_true (show (-1 : Int) < 0 by decide) ⟨Nat.le_antisymm hr.count hfull,hapart⟩
    · rename_i hfull
      refine iff_of_false (Int.lt_irrefl 0) fun h => hfull (Nat.le_of_eq h.1.symm)
  have hmem : r ∈ lmb.reserved := by
    rw [hsplit]
    simp
  have hadjacent : lmbAddrsAdjacent b size r.base r.size ≠ 0 →
      ¬NoRoom lmb.reserved ⟨b,size⟩ := by
    intro h hroom
    rcases adjacent_ne (r := ⟨b,size⟩) h with h | h
    · exact (hroom.2 r hmem).1 h
    · exact (hroom.2 r hmem).2 h
  dsimp only at hstop
  generalize scanRegions b size [] lmb.reserved = scan at hstop
  cases hstop with
  | present h =>
    have hself := (overlap_iff (hres r hmem) (hres r hmem)).mpr ⟨(hres r hmem).1,(hres r hmem).1⟩
    have hover := hnone r hmem
    rw [h] at hself hover
    exact absurd hself hover
  | before h => exact iff_of_false (joinNext_nonneg _ _ _) (hadjacent (by dsimp only at h; omega))
  | after h => exact iff_of_false (joinNext_nonneg _ _ _) (hadjacent (by dsimp only at h; omega))
  | overlaps h => exact absurd h (hnone r hmem)

theorem takeBlock_refuses (hret : (lmbAddRegion lmb.reserved b size).1 < 0) :
    takeBlock lmb b size = (0,lmb) := by
  unfold takeBlock
  rw [lmbAddRegion_negative hret]
  rfl

theorem takeBlock_takes (hret : ¬(lmbAddRegion lmb.reserved b size).1 < 0) :
    takeBlock lmb b size = (b,{ lmb with reserved := (lmbAddRegion lmb.reserved b size).2 }) :=
  if_neg hret

theorem lmbAllocBase_cases (h : lmbAllocBase lmb size align maxAddr = some (base,lmb')) :
    (base = 0 ∧ lmb' = lmb) ∨
      (base ≠ 0 ∧ searchMemory lmb.reserved size align maxAddr lmb.memory.reverse = .found base ∧
        lmb' = { lmb with reserved := (lmbAddRegion lmb.reserved base size).2 }) := by
  unfold lmbAllocBase at h
  split at h
  · rename_i b hfound
    by_cases hret : (lmbAddRegion lmb.reserved b size).1 < 0
    · rw [takeBlock_refuses hret] at h
      cases h
      exact .inl ⟨rfl,rfl⟩
    · rw [takeBlock_takes hret] at h
      cases h
      obtain ⟨r,-,hat⟩ := searchMemory_region hfound
      exact .inr ⟨searchRegion_nonzero hat,hfound,rfl⟩
  · cases h
    exact .inl ⟨rfl,rfl⟩
  · cases h

section

variable (hpos : 0 < size.toNat)
include hpos

theorem allocBase_returns :
    ∃ base lmb', lmbAllocBase lmb size align maxAddr = some (base,lmb') := by
  have hreturns := @searchMemory_returns lmb.reserved lmb.memory.reverse size align maxAddr hpos
  unfold lmbAllocBase
  split
  · exact ⟨_,_,rfl⟩
  · exact ⟨_,_,rfl⟩
  · rename_i hrunning
    exact absurd hrunning hreturns

section

variable (hm : WellFormed lmb.memory) (hr : WellFormed lmb.reserved)
  (hfit : maxAddr = 0 ∨ size ≤ maxAddr) {k : Nat} (halign : align.toNat = 2 ^ k)
include hm hr hfit halign

theorem allocates_fitting (hwrap : ∀ b, b ≠ 0 → Highest (Fits lmb size align maxAddr) b →
    ¬WrapsAround lmb.reserved ⟨b,size⟩) : AllocatesHighest lmb size align maxAddr := by
  cases hsearch : searchMemory lmb.reserved size align maxAddr lmb.memory.reverse with
  | running => exact absurd hsearch (searchMemory_returns hpos)
  | nothing =>
    refine ⟨0,lmb,by rw [lmbAllocBase,hsearch],fun h => absurd rfl h,fun _ => ⟨rfl,.inl ?_⟩⟩
    intro b hne hb
    obtain ⟨b',hfound,-⟩ := fits_found hm hr hpos hfit halign hb hne
    rw [hsearch] at hfound
    cases hfound
  | found b =>
    obtain ⟨hne,hstays,hfits,hlargest⟩ := searchMemory_fits hm hr hpos hfit halign hsearch
    have hrun : lmbAllocBase lmb size align maxAddr = some (takeBlock lmb b size) := by
      rw [lmbAllocBase,hsearch]
    have hclear : Clear Region.lo Region.hi lmb.reserved (⟨b,size⟩ : Region).lo
      (⟨b,size⟩ : Region).hi := hfits.free
    have hadded := lmbAddRegion_clear hstays (Nat.zero_le 1) hr.table hclear
      (hwrap b hne ⟨hfits,hlargest⟩)
    by_cases hret : (lmbAddRegion lmb.reserved b size).1 < 0
    · rw [takeBlock_refuses hret] at hrun
      refine ⟨0,lmb,hrun,fun h => absurd rfl h,fun _ => ⟨rfl,.inr ?_⟩⟩
      rcases hadded with ⟨hge,-⟩ | ⟨-,hfull,-⟩
      · dsimp only at hge
        omega
      · exact Nat.le_antisymm hr.count hfull
    · rw [takeBlock_takes hret] at hrun
      refine ⟨b,_,hrun,fun _ => ⟨hfits,hlargest,?_,rfl⟩,fun h => absurd h hne⟩
      rcases hadded with ⟨-,hext,-⟩ | ⟨hneg,-⟩
      · exact hext.covers
      · rw [hneg] at hret
        exact absurd (show (-1 : Int) < 0 by decide) hret

theorem fitting_of_allocates (h : AllocatesHighest lmb size align maxAddr) (hne : b ≠ 0)
    (hb : Highest (Fits lmb size align maxAddr) b) : ¬WrapsAround lmb.reserved ⟨b,size⟩ := by
  intro hwrap
  obtain ⟨b',hsearch,hle⟩ := fits_found hm hr hpos hfit halign hb.1 hne
  obtain ⟨-,hstays,hfits,-⟩ := searchMemory_fits hm hr hpos hfit halign hsearch
  obtain rfl : b' = b := UInt64.toNat_inj.mp (Nat.le_antisymm (hb.2 b' hfits) hle)
  have hlo : (⟨b',size⟩ : Region).lo ≠ 0 := fun h => hne (UInt64.toNat_inj.mp h)
  obtain ⟨hone,x,hbefore,hafter⟩ := wrapsAround_breaks hr.table hstays hlo hwrap
  have hrun : lmbAllocBase lmb size align maxAddr =
      some (b',{ lmb with reserved := (lmbAddRegion lmb.reserved b' size).2 }) := by
    rw [lmbAllocBase,hsearch,← takeBlock_takes (by dsimp only at hone; omega)]
  obtain ⟨base,lmb',hrun',hnonzero,-⟩ := h
  rw [hrun] at hrun'
  cases hrun'
  exact hafter (((hnonzero hne).reserved x).mpr (.inl hbefore))

end

section

variable (hm : WellFormed lmb.memory) (hr : WellFormed lmb.reserved)
  (hmax : ¬(maxAddr = 0 ∨ size ≤ maxAddr)) {k : Nat} (halign : align.toNat = 2 ^ k)
include hm hr hmax halign

theorem lmbAllocBase_short (h : AllocatesHighest lmb size align maxAddr ∨
    ∀ b, Highest (Strays lmb size align maxAddr) b → NoRoom lmb.reserved ⟨b,size⟩) :
    lmbAllocBase lmb size align maxAddr = some (0,lmb) := by
  cases hsearch : searchMemory lmb.reserved size align maxAddr lmb.memory.reverse with
  | running => exact absurd hsearch (searchMemory_returns hpos)
  | nothing => rw [lmbAllocBase,hsearch]
  | found b =>
    have hrun : lmbAllocBase lmb size align maxAddr = some (takeBlock lmb b size) := by
      rw [lmbAllocBase,hsearch]
    by_cases hret : (lmbAddRegion lmb.reserved b size).1 < 0
    · rw [hrun,takeBlock_refuses hret]
    have hhigh := searchMemory_highest hm hr hpos hmax halign hsearch
    rcases h with h | h
    · obtain ⟨base,lmb',hrun',hnonzero,-⟩ := h
      rw [hrun,takeBlock_takes hret] at hrun'
      cases hrun'
      have hend := (hnonzero hhigh.1.nonzero).fits.below fun h => hmax (.inl h)
      have hlt := short_lt hmax
      omega
    · exact absurd ((lmbAddRegion_noRoom hpos hr hhigh.1).mpr (h b hhigh)) hret

theorem allocates_short : AllocatesHighest lmb size align maxAddr ↔
    ∀ b, Highest (Strays lmb size align maxAddr) b → NoRoom lmb.reserved ⟨b,size⟩ := by
  constructor
  · intro h b hb
    have hrun := lmbAllocBase_short hpos hm hr hmax halign (.inl h)
    obtain ⟨b',hsearch⟩ := strays_found hm hr hpos hmax halign hb.1
    have hhigh := searchMemory_highest hm hr hpos hmax halign hsearch
    obtain rfl : b' = b :=
      UInt64.toNat_inj.mp (Nat.le_antisymm (hb.2 b' hhigh.1) (hhigh.2 b hb.1))
    refine (lmbAddRegion_noRoom hpos hr hb.1).mp ?_
    by_contra hret
    rw [lmbAllocBase,hsearch] at hrun
    dsimp only at hrun
    rw [takeBlock_takes hret] at hrun
    exact hb.1.nonzero (congrArg Prod.fst (Option.some.inj hrun))
  · intro h
    refine ⟨0,lmb,lmbAllocBase_short hpos hm hr hmax halign (.inr h),fun h => absurd rfl h,
      fun _ => ⟨rfl,.inl fun b _ hb => ?_⟩⟩
    have hend := hb.below fun h => hmax (.inl h)
    have hlt := short_lt hmax
    omega

end

end

end

theorem lmbAllocBase_highest (lmb : Lmb) (hm : WellFormed lmb.memory) (hr : WellFormed lmb.reserved)
    (size align maxAddr : UInt64) (hsize : 0 < size) (halign : ∃ k, align.toNat = 2 ^ k) :
    AllocatesHighest lmb size align maxAddr ↔ StaysInside lmb size align maxAddr := by
  have hpos : 0 < size.toNat := UInt64.lt_iff_toNat_lt.mp hsize
  obtain ⟨k,halign⟩ := halign
  by_cases hfit : maxAddr = 0 ∨ size ≤ maxAddr
  · constructor
    · exact fun h => ⟨fun _ b => fitting_of_allocates hpos hm hr hfit halign h,fun h => absurd hfit h⟩
    · exact fun h => allocates_fitting hpos hm hr hfit halign (h.fitting hfit)
  · rw [allocates_short hpos hm hr hfit halign]
    exact ⟨fun h => ⟨fun h => absurd h hfit,fun _ => h⟩,fun h => h.short hfit⟩

def oneBank : Lmb := ⟨[⟨0x1000,0x100000⟩],[⟨0x80000,0x1000⟩]⟩

theorem oneBank_memory : WellFormed oneBank.memory :=
  ⟨by decide,⟨⟨by decide,by decide⟩,by decide⟩⟩

theorem oneBank_reserved : WellFormed oneBank.reserved :=
  ⟨by decide,⟨⟨by decide,by decide⟩,by decide⟩⟩

theorem oneBank_allocates :
    lmbAllocBase oneBank 0x4000 0x1000 0x81000 =
      some (0x7c000,⟨[⟨0x1000,0x100000⟩],[⟨0x7c000,0x5000⟩]⟩) ∧
      AllocatesHighest oneBank 0x4000 0x1000 0x81000 := by
  refine ⟨by decide +kernel,(lmbAllocBase_highest oneBank oneBank_memory oneBank_reserved _ _ _ (by decide)
    ⟨12,by decide⟩).mpr ?_⟩
  refine ⟨fun _ b _ _ => ?_,fun h => absurd (.inr (by decide)) h⟩
  rintro (⟨-,hzero⟩ | ⟨-,htop⟩ | ⟨r,s,hlist,-⟩)
  · exact absurd hzero (by simp [oneBank,Region.lo])
  · exact absurd htop (by simp [oneBank,Region.hi])
  · simp [oneBank] at hlist

theorem oneBank_outside_memory :
    lmbAllocBase oneBank 0x4000 0x1000 0x2000 = some (0xffffffffffffe000,
      ⟨[⟨0x1000,0x100000⟩],[⟨0x80000,0x1000⟩,⟨0xffffffffffffe000,0x4000⟩]⟩) ∧
      ¬AllocatesHighest oneBank 0x4000 0x1000 0x2000 := by
  refine ⟨by decide +kernel,?_⟩
  rintro ⟨base,lmb',h,halloc,-⟩
  cases h
  have hend := (halloc (by decide)).fits.below (by decide)
  exact absurd hend (by decide)

end FuzzingTargets.UBoot.MemoryBlocks
