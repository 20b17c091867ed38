import FuzzingTargets.UBoot.Ext4.Extents
import Mathlib.Tactic.Linarith

namespace FuzzingTargets.UBoot.Ext4
open Checked Memory List

def Store.Within (s : Store) (n : Int) : Prop :=
  ∀ k : Int, s.offset ≤ k → k < s.offset + s.size → 0 ≤ k ∧ k < n

variable (v : Volume) (pos count : Nat) (numbers : List Nat) (j : Nat)

structure Exact (inode : Buffer) (pos len : Nat) (actread : Int) (stores : List Store) : Prop where
  count : actread = max 0 (min (len : Int) (inode.le32 4 - pos))
  bytes : ∀ (b : Buffer) (k : Nat), (k : Int) < actread → some (filled stores b k) = fileByte v inode (pos + k)
  bounds : ∀ s ∈ stores, s.Within actread

def sectorOf : Nat := v.toSector (numbers.getD j 0)

def source (pos : Nat) (numbers : List Nat) (k : Nat) : UInt8 :=
  let j := (pos + k) / v.blocksize - pos / v.blocksize
  let sector := sectorOf v numbers j
  if sector = 0 then 0
  else v.device.byte sector ((pos + k) % v.blocksize)

def TailHole : Prop :=
  1 < numbers.length ∧ sectorOf v numbers (numbers.length - 1) = 0 ∧
    (pos + count) % v.blocksize ≠ 0

structure Geometry : Prop where
  representable : v.log2BlockSize ≤ 30
  sectorFits : v.device.log2blksz ≤ v.log2BlockSize
  small : pos + count < 2 ^ 32
  length : numbers.length = (pos + count + v.blocksize - 1) / v.blocksize - pos / v.blocksize
  apart : v.blocksize - pos % v.blocksize < v.device.blksz → 1 < numbers.length →
    sectorOf v numbers 0 ≠ 0 → sectorOf v numbers 1 ≠ sectorOf v numbers 0

theorem ceil_bounds (n : Nat) {b : Nat} (hb : 0 < b) :
    n ≤ (n + b - 1) / b * b ∧ (n + b - 1) / b * b < n + b := by
  have hsplit := Nat.div_add_mod' (n + b - 1) b
  have hmod := Nat.mod_lt (n + b - 1) hb
  omega

def bufAt (pos j : Nat) : Nat := j * v.blocksize - pos % v.blocksize

def endAt (pos count j : Nat) : Nat := min (bufAt v pos (j + 1)) count

def firstSkip (pos j : Nat) : Nat := if j = 0 then pos % v.blocksize else 0

def exactRequest : Request :=
  ⟨pos,count,(pos + count + v.blocksize - 1) / v.blocksize⟩

section

variable {v : Volume} {pos count : Nat} {numbers : List Nat} {j : Nat}

variable (h : Geometry v pos count numbers)
include h

theorem block_bounds :
    512 ≤ v.blocksize ∧ v.blocksize ≤ 2 ^ 30 ∧ pos % v.blocksize < v.blocksize := by
  obtain ⟨hlow,hhigh⟩ := blocksize_bounds h.representable h.sectorFits
  exact ⟨hlow,hhigh,Nat.mod_lt pos (by omega)⟩

theorem length_bounds : pos % v.blocksize + count ≤ numbers.length * v.blocksize ∧
    numbers.length * v.blocksize < pos % v.blocksize + count + v.blocksize := by
  have hbs := block_bounds h
  have hceil := ceil_bounds (pos + count) (show 0 < v.blocksize by omega)
  have hsplit := Nat.div_add_mod' pos v.blocksize
  rw [h.length,Nat.sub_mul]
  omega

theorem bufAt_succ (j : Nat) :
    bufAt v pos (j + 1) = bufAt v pos j + (v.blocksize - firstSkip v pos j) := by
  have hbs := block_bounds h
  unfold bufAt firstSkip
  rw [Nat.succ_mul]
  rcases Nat.eq_zero_or_pos j with rfl | hj
  · simp
  · have hle := Nat.le_mul_of_pos_left v.blocksize hj
    rw [if_neg (by omega)]
    omega

theorem block_position (hj : j < numbers.length) : j * v.blocksize < pos % v.blocksize + count := by
  have hbounds := length_bounds h
  have hmul := Nat.mul_le_mul_right v.blocksize hj
  rw [Nat.succ_mul] at hmul
  omega

theorem last_position (hj : j < numbers.length) :
    if pos / v.blocksize + j + 1 = (pos + count + v.blocksize - 1) / v.blocksize then
      j + 1 = numbers.length ∧ pos % v.blocksize + count ≤ (j + 1) * v.blocksize
    else j + 1 < numbers.length ∧ (j + 1) * v.blocksize < pos % v.blocksize + count := by
  have hlength := h.length
  split
  · have hlast : j + 1 = numbers.length := by omega
    rw [hlast]
    exact ⟨rfl,(length_bounds h).1⟩
  · have hnext : j + 1 < numbers.length := by omega
    exact ⟨hnext,block_position h hnext⟩

theorem skipfirst_eq (j : Nat) :
    skipfirst v (exactRequest v pos count) (pos / v.blocksize + j) = firstSkip v pos j := by
  have hbs := block_bounds h
  have hfirst : isFirst v (exactRequest v pos count) (pos / v.blocksize + j) = decide (j = 0) := by
    unfold isFirst exactRequest
    dsimp only
    congr 1
    apply propext
    constructor
    · intro heq
      omega
    · rintro rfl
      norm_cast
  unfold skipfirst firstSkip
  rw [hfirst]
  rcases Nat.eq_zero_or_pos j with rfl | hj
  · have hrest : (pos : Int) - (v.blocksize : Int) * ((pos / v.blocksize + 0 : Nat) : Int) =
        ((pos % v.blocksize : Nat) : Int) := by
      push_cast
      linarith [Int.mul_ediv_add_emod pos v.blocksize]
    simp only [exactRequest,hrest,decide_true,if_true]
    exact signed_natCast (by omega)
  · have hne : j ≠ 0 := by omega
    rw [decide_eq_false hne,if_neg hne]
    simp

theorem blockend_eq (hj : j < numbers.length) :
    blockend v (exactRequest v pos count) (pos / v.blocksize + j) =
      (endAt v pos count j : Int) - bufAt v pos j := by
  have hbs := block_bounds h
  have hpos := block_position h hj
  have hlast := last_position h hj
  have hsucc := bufAt_succ h j
  have hrest : (count : Int) + pos - (v.blocksize : Int) * ((pos / v.blocksize + j : Nat) : Int) =
      (pos % v.blocksize + count : Nat) - (j * v.blocksize : Nat) := by
    push_cast
    linarith [Int.mul_ediv_add_emod pos v.blocksize]
  rw [Nat.add_mul,Nat.one_mul] at hlast
  unfold blockend endAt
  rw [skipfirst_eq h j,hsucc]
  simp only [exactRequest,hrest]
  have hfirst : j * v.blocksize = 0 ∧ firstSkip v pos j = pos % v.blocksize ∨
      v.blocksize ≤ j * v.blocksize ∧ firstSkip v pos j = 0 := by
    rcases Nat.eq_zero_or_pos j with rfl | hj
    · exact .inl ⟨Nat.zero_mul _,rfl⟩
    · exact .inr ⟨Nat.le_mul_of_pos_left v.blocksize hj,if_neg (by omega)⟩
  split at hlast
  · rename_i heq
    rw [if_pos heq,signed_of_le (by omega) (by omega),if_neg (by omega)]
    unfold bufAt
    omega
  rename_i hne
  rw [if_neg hne]
  unfold bufAt
  omega

end

def stride (pos r : Nat) : Nat :=
  if r = 0 then (v.blocksize - pos % v.blocksize) / v.device.blksz else 2 ^ v.sectorShift

structure RunAt (r j : Nat) (d : Delayed) : Prop where
  before : r < j
  start : d.start = sectorOf v numbers r
  skip : d.skipfirst = ((if r = 0 then pos % v.blocksize else 0 : Nat) : Int)
  extent : d.extent = (endAt v pos count (j - 1) : Int) - bufAt v pos r
  buf : d.buf = bufAt v pos r
  chain : ∀ i, r < i → i < j → sectorOf v numbers i =
    (sectorOf v numbers r + stride v pos r + (i - r - 1) * 2 ^ v.sectorShift) % 2 ^ 64
  live : ∀ i, r ≤ i → i < j → sectorOf v numbers i ≠ 0
  next : j < numbers.length → d.next =
    (sectorOf v numbers r + stride v pos r + (j - r - 1) * 2 ^ v.sectorShift) % 2 ^ 64

section

variable {v : Volume} {pos count : Nat} {numbers : List Nat} {r j k : Nat} {d : Delayed}

theorem shift_dvd (h : v.log2BlockSize ≤ 30) : 2 ^ v.sectorShift ∣ 2 ^ 64 :=
  Nat.pow_dvd_pow 2 (by unfold Volume.sectorShift; omega)

theorem sectorOf_dvd (h : v.log2BlockSize ≤ 30) (numbers : List Nat) (j : Nat) :
    2 ^ v.sectorShift ∣ sectorOf v numbers j :=
  (Nat.dvd_mod_iff (shift_dvd h)).mpr (Nat.dvd_mul_left _ _)

theorem sectorOf_lt (v : Volume) (numbers : List Nat) (j : Nat) : sectorOf v numbers j < 2 ^ 64 :=
  Nat.mod_lt _ (by decide)

theorem position_split (v : Volume) (pos k : Nat) (hbs : 0 < v.blocksize) :
    (pos + k) / v.blocksize - pos / v.blocksize = (pos % v.blocksize + k) / v.blocksize ∧
      (pos + k) % v.blocksize = (pos % v.blocksize + k) % v.blocksize := by
  have hsplit : pos + k = v.blocksize * (pos / v.blocksize) + (pos % v.blocksize + k) := by
    have := Nat.div_add_mod pos v.blocksize
    omega
  rw [hsplit,Nat.mul_add_div hbs,Nat.mul_add_mod]
  exact ⟨Nat.add_sub_cancel_left _ _,rfl⟩

theorem byte_blocks (h : v.device.log2blksz ≤ v.log2BlockSize) (sector n offset : Nat) :
    v.device.byte ((sector + n * 2 ^ v.sectorShift) % 2 ^ 64) offset =
      v.device.byte sector (n * v.blocksize + offset) := by
  rw [byte_mod,byte_add_sectors,blocksize_eq h,Nat.mul_assoc]

section

variable (h : Geometry v pos count numbers)
include h

theorem stride_zero (hskip : pos % v.blocksize ≠ 0)
    (hnext : sectorOf v numbers 1 = (sectorOf v numbers 0 + stride v pos 0) % 2 ^ 64) :
    stride v pos 0 = 0 ∧ v.blocksize - pos % v.blocksize < v.device.blksz := by
  have hblksz := blksz_pos v.device
  have hbs := block_bounds h
  have hdvd : 2 ^ v.sectorShift ∣ stride v pos 0 := by
    have hone := sectorOf_dvd h.representable numbers 1
    rw [hnext,Nat.dvd_mod_iff (shift_dvd h.representable)] at hone
    exact (Nat.dvd_add_right (sectorOf_dvd h.representable numbers 0)).mp hone
  have hlt : stride v pos 0 < 2 ^ v.sectorShift := by
    rw [stride,if_pos rfl,Nat.div_lt_iff_lt_mul hblksz,← blocksize_eq h.sectorFits]
    omega
  have hzero : stride v pos 0 = 0 := Nat.eq_zero_of_dvd_of_lt hdvd hlt
  refine ⟨hzero,?_⟩
  exact (Nat.div_eq_zero_iff.mp hzero).resolve_left (by omega)

theorem stride_full (hr : r ≠ 0 ∨ pos % v.blocksize = 0) : stride v pos r = 2 ^ v.sectorShift := by
  unfold stride
  split
  · rename_i hzero
    rw [hr.resolve_left (by omega),Nat.sub_zero,blocksize_eq h.sectorFits,
      Nat.mul_div_cancel _ (blksz_pos v.device)]
  · rfl

theorem run_source (hr : RunAt v pos count numbers r j d) (hj : j ≤ numbers.length) (hlow : bufAt v pos r ≤ k)
    (hhigh : k < bufAt v pos j) : v.device.byte (sectorOf v numbers r)
      ((if r = 0 then pos % v.blocksize else 0) + (k - bufAt v pos r)) =
        source v pos numbers k := by
  have hbs := block_bounds h
  obtain ⟨hblock,hrest⟩ := position_split v pos k (by omega)
  generalize ht : (pos % v.blocksize + k) / v.blocksize = t at hblock
  generalize hx : (pos % v.blocksize + k) % v.blocksize = x at hrest
  have hsum : t * v.blocksize + x = pos % v.blocksize + k := by
    rw [← ht,← hx]
    exact Nat.div_add_mod' _ _
  have hlt : t < j := by
    rw [← ht,Nat.div_lt_iff_lt_mul (by omega)]
    unfold bufAt at hhigh
    omega
  have hge : r ≤ t := by
    rw [← ht,Nat.le_div_iff_mul_le (by omega)]
    unfold bufAt at hlow
    omega
  have hoffset : (if r = 0 then pos % v.blocksize else 0) + (k - bufAt v pos r) =
      (t - r) * v.blocksize + x := by
    rw [Nat.sub_mul]
    have hmul := Nat.mul_le_mul_right v.blocksize hge
    unfold bufAt at hlow ⊢
    rcases Nat.eq_zero_or_pos r with rfl | hpos
    · rw [if_pos rfl]
      omega
    · have hle := Nat.le_mul_of_pos_left v.blocksize hpos
      rw [if_neg (by omega)]
      omega
  unfold source
  rw [hblock,hrest,hoffset]
  rw [if_neg (hr.live t hge hlt)]
  rcases Nat.eq_or_lt_of_le hge with rfl | hgt
  · rw [Nat.sub_self,Nat.zero_mul,Nat.zero_add]
  have hfull : r ≠ 0 ∨ pos % v.blocksize = 0 := by
    by_contra hpart
    obtain ⟨hr0,hpos⟩ := not_or.mp hpart
    obtain rfl := not_not.mp hr0
    have hone := hr.chain 1 (by omega) (by omega)
    rw [Nat.zero_mul,Nat.add_zero] at hone
    obtain ⟨hstride,hshort⟩ := stride_zero h hpos hone
    rw [hstride,Nat.add_zero,Nat.mod_eq_of_lt (sectorOf_lt v numbers 0)] at hone
    exact h.apart hshort (by omega) (hr.live 0 (by omega) (by omega)) hone
  have hsteps : stride v pos r + (t - r - 1) * 2 ^ v.sectorShift = (t - r) * 2 ^ v.sectorShift := by
    rw [stride_full h hfull]
    obtain ⟨n,hn⟩ := Nat.exists_eq_add_of_lt hgt
    rw [hn,show r + n + 1 - r - 1 = n by omega,show r + n + 1 - r = n + 1 by omega,
      Nat.succ_mul,Nat.add_comm]
  rw [hr.chain t hgt hlt,Nat.add_assoc,hsteps,byte_blocks h.sectorFits]

end

end

def Done (stores : List Store) (n : Nat) : Prop :=
  ∀ b k, k < n → k < count → filled stores b k = source v pos numbers k

inductive Pending (v : Volume) (pos count : Nat) (numbers : List Nat) (j : Nat) :
    Progress → Prop
  | none {buf : Int} {stores : List Store}
      (hdone : Done v pos count numbers stores (bufAt v pos j)) :
      Pending v pos count numbers j ⟨none,buf,stores⟩
  | some {buf : Int} {stores : List Store} {d : Delayed} {r : Nat}
      (hrun : RunAt v pos count numbers r j d)
      (hdone : Done v pos count numbers stores (bufAt v pos r)) :
      Pending v pos count numbers j ⟨some d,buf,stores⟩

structure Reached (s : Progress) : Prop where
  buf : s.buf = bufAt v pos j
  pending : Pending v pos count numbers j s
  bounds : (∀ st ∈ s.stores, st.Within count) ↔
    ¬(j = numbers.length ∧ TailHole v pos count numbers)

structure Advanced (s s' : Progress) : Prop where
  buf : s'.buf = s.buf
  pending : Pending v pos count numbers (j + 1) s'
  bounds : (∀ st ∈ s'.stores, st.Within count) ↔
    ¬(j + 1 = numbers.length ∧ TailHole v pos count numbers)

def transfer (v : Volume) (r : Request) :
    Nat → List Nat → Progress → Except Stop (Option Progress)
  | _, [], s => .ok (some s)
  | i, blknr :: rest, s => do
    match ← readStep v r i blknr s with
    | none => .ok none
    | some s => transfer v r (i + 1) rest s

section

variable {v : Volume} {pos count : Nat} {numbers : List Nat} {r j : Nat} {d : Delayed}
  {s s' : Progress} {store : Store} {stores : List Store}

theorem filled_append (stores : List Store) (store : Store) (b : Buffer) :
    filled (stores ++ [store]) b = store.put (filled stores b) := by
  unfold filled
  rw [foldl_append]
  rfl

theorem bufAt_mono (hr : r ≤ j) : bufAt v pos r ≤ bufAt v pos j :=
  Nat.sub_le_sub_right (Nat.mul_le_mul_right _ hr) _

theorem endAt_pred (hj : 0 < j) : endAt v pos count (j - 1) = min (bufAt v pos j) count := by
  unfold endAt
  rw [Nat.sub_add_cancel hj]

variable (h : Geometry v pos count numbers)
include h

theorem bufAt_le_count (hj : j < numbers.length) : bufAt v pos j ≤ count := by
  have := block_position h hj
  unfold bufAt
  omega

section

variable (hr : RunAt v pos count numbers r j d) (hj : j ≤ numbers.length)
  (hspill : spill v.device d = .ok (some store))
include hr hj hspill

theorem spill_run : store.offset = bufAt v pos r ∧
      bufAt v pos r + store.size = min (bufAt v pos j) count ∧
        ∀ k, bufAt v pos r ≤ k → k < bufAt v pos r + store.size →
          store.bytes (k - bufAt v pos r) = source v pos numbers k := by
  have hbefore := hr.before
  have hsmall := h.small
  have hle : bufAt v pos r ≤ min (bufAt v pos j) count :=
    Nat.le_min.mpr ⟨bufAt_mono hbefore.le,bufAt_le_count h (by omega)⟩
  generalize hn : min (bufAt v pos j) count - bufAt v pos r = n
  have hextent : d.extent = (n : Int) := by
    have := hr.extent
    rw [endAt_pred (by omega)] at this
    omega
  unfold spill at hspill
  rw [hr.start,hr.skip,hextent] at hspill
  split at hspill
  · cases hspill
  · cases hspill
  rename_i bytes hread
  have hbytes := fsDevread_bytes (by omega) hread
  have hstore := Option.some.inj (Except.ok.inj hspill)
  have hsize : unsigned 32 (n : Int) = n := unsigned_natCast (by omega)
  rw [← hstore,hbytes]
  refine ⟨hr.buf,by dsimp only; omega,?_⟩
  intro k hlow hhigh
  dsimp only at hhigh ⊢
  unfold Device.bytes
  rw [if_pos (by omega)]
  exact run_source h hr hj hlow (by omega)

theorem done_spilled (hdone : Done v pos count numbers stores (bufAt v pos r)) :
    Done v pos count numbers (stores ++ [store]) (bufAt v pos j) ∧ store.Within count := by
  obtain ⟨hoffset,hsize,hbytes⟩ := spill_run h hr hj hspill
  constructor
  · intro b k hk hcount
    rw [filled_append]
    unfold Store.put
    split
    · rename_i hin
      have := hbytes k (by omega) (by omega)
      rw [← this]
      congr 1
      omega
    · exact hdone b k (by omega) hcount
  · intro k hlow hhigh
    omega

end

theorem spillPending_done (hj : j ≤ numbers.length) (hp : Pending v pos count numbers j s)
    (hspill : spillPending v.device s = .ok (some s')) :
    s'.delayed = none ∧ s'.buf = s.buf ∧ Done v pos count numbers s'.stores (bufAt v pos j) ∧
      ((∀ st ∈ s'.stores, st.Within count) ↔ ∀ st ∈ s.stores, st.Within count) := by
  cases hp with
  | none hdone =>
    cases hspill
    exact ⟨rfl,rfl,hdone,Iff.rfl⟩
  | some hrun hdone =>
    obtain ⟨found,hfound,hspill⟩ := bind_eq_ok hspill
    cases found with
    | none => cases hspill
    | some store =>
      cases hspill
      obtain ⟨hdone',hwithin⟩ := done_spilled h hrun hj hfound hdone
      refine ⟨rfl,rfl,hdone',?_⟩
      simp only [forall_mem_append,forall_mem_singleton]
      exact and_iff_left hwithin

theorem skip_le : firstSkip v pos j ≤ v.blocksize := by
  have hbs := block_bounds h
  unfold firstSkip
  split <;> omega

theorem blockend_inner (hj : j + 1 < numbers.length) :
    blockend v (exactRequest v pos count) (pos / v.blocksize + j) / (v.device.blksz : Int) =
      (stride v pos j : Int) := by
  have hnext := bufAt_le_count h hj
  have hsucc := bufAt_succ h j
  have hend : (endAt v pos count j : Int) - bufAt v pos j =
      (v.blocksize - firstSkip v pos j : Nat) := by
    unfold endAt
    omega
  rw [blockend_eq h (by omega),hend,← Int.natCast_ediv]
  congr 1
  unfold stride firstSkip
  split
  · rfl
  · rw [Nat.sub_zero,blocksize_eq h.sectorFits,Nat.mul_div_cancel _ (blksz_pos v.device)]

theorem source_hole (hzero : sectorOf v numbers j = 0) {k : Nat} (hlow : bufAt v pos j ≤ k)
    (hhigh : k < bufAt v pos (j + 1)) : source v pos numbers k = 0 := by
  have hbs := block_bounds h
  have hblock : (pos + k) / v.blocksize - pos / v.blocksize = j := by
    rw [(position_split v pos k (by omega)).1]
    unfold bufAt at hlow hhigh
    rw [Nat.succ_mul] at hhigh
    rw [Nat.div_eq_iff (by omega)]
    omega
  unfold source
  rw [hblock]
  rw [if_pos hzero]

theorem hole_size (j : Nat) :
    (if (count : Int) < (v.blocksize : Int) -
        skipfirst v (exactRequest v pos count) (pos / v.blocksize + j) then signed 32 count
      else (v.blocksize : Int) - skipfirst v (exactRequest v pos count) (pos / v.blocksize + j)) =
      ((min count (bufAt v pos (j + 1) - bufAt v pos j) : Nat) : Int) := by
  have hbs := block_bounds h
  have hsucc := bufAt_succ h j
  rw [skipfirst_eq h j]
  have hle := @skip_le v pos count numbers j h
  split
  · rw [signed_natCast (by omega)]
    omega
  · omega

theorem tail_rest (hj : j + 1 = numbers.length) : (pos + count) % v.blocksize = 0 ↔
      pos % v.blocksize + count = (j + 1) * v.blocksize := by
  have hbs := block_bounds h
  have hpos := block_position h (show j < numbers.length by omega)
  have hlast := last_position h (show j < numbers.length by omega)
  have hle : pos % v.blocksize + count ≤ (j + 1) * v.blocksize := by
    split at hlast <;> omega
  rw [(position_split v pos count (by omega)).2]
  constructor
  · intro hmod
    obtain ⟨q,hq⟩ := Nat.dvd_of_mod_eq_zero hmod
    rw [Nat.mul_comm] at hq
    rw [hq] at hpos hle ⊢
    have hlow := Nat.lt_of_mul_lt_mul_right hpos
    have hhigh := Nat.le_of_mul_le_mul_right hle (by omega)
    rw [show q = j + 1 by omega]
  · intro heq
    rw [heq,Nat.mul_mod_left]

section

variable (hj : j < numbers.length)
include hj

theorem runAt_open (hlive : sectorOf v numbers j ≠ 0) :
    RunAt v pos count numbers j (j + 1) (openRun v (exactRequest v pos count)
      (pos / v.blocksize + j) (sectorOf v numbers j) (bufAt v pos j)) where
  before := Nat.lt_succ_self j
  start := rfl
  skip := skipfirst_eq h j
  extent := blockend_eq h hj
  buf := rfl
  chain i hlow hhigh := by omega
  live i hlow hhigh := by
    obtain rfl : i = j := by omega
    exact hlive
  next hnext := by
    unfold openRun
    rw [blockend_inner h hnext,show j + 1 - j - 1 = 0 by omega,Nat.zero_mul,Nat.add_zero,
      ← Int.natCast_add,unsigned_mod]

theorem runAt_extend (hr : RunAt v pos count numbers r j d) (hlive : sectorOf v numbers j ≠ 0)
    (hnext : d.next = sectorOf v numbers j) : RunAt v pos count numbers r (j + 1)
      (extendRun v (exactRequest v pos count) (pos / v.blocksize + j) d) where
  before := hr.before.trans (Nat.lt_succ_self j)
  start := hr.start
  skip := hr.skip
  extent := by
    have hbefore := hr.before
    have hextent := hr.extent
    have hle := bufAt_le_count h hj
    rw [endAt_pred (by omega)] at hextent
    unfold extendRun
    dsimp only
    rw [blockend_eq h hj,Nat.add_sub_cancel]
    omega
  buf := hr.buf
  chain i hlow hhigh := by
    rcases Nat.lt_or_ge i j with hlt | hge
    · exact hr.chain i hlow hlt
    · obtain rfl : i = j := by omega
      rw [← hnext]
      exact hr.next hj
  live i hlow hhigh := by
    rcases Nat.lt_or_ge i j with hlt | hge
    · exact hr.live i hlow hlt
    · obtain rfl : i = j := by omega
      exact hlive
  next hinner := by
    have hbefore := hr.before
    have hstride : stride v pos j = 2 ^ v.sectorShift := stride_full h (.inl (by omega))
    have hstep : j + 1 - r - 1 = j - r - 1 + 1 := by omega
    unfold extendRun
    rw [blockend_inner h hinner,hr.next hj,hstride,hstep,Nat.succ_mul,← Nat.add_assoc,
      ← Int.natCast_add,unsigned_mod,Nat.mod_add_mod]

theorem hole_within (hzero : sectorOf v numbers j = 0) :
    Store.Within ⟨bufAt v pos j,min count (bufAt v pos (j + 1) - bufAt v pos j),fun _ => 0⟩ count ↔
      ¬(j + 1 = numbers.length ∧ TailHole v pos count numbers) := by
  have hbs := block_bounds h
  have hcount := bufAt_le_count h hj
  constructor
  · rintro hin ⟨hlast,hmany,_,hrest⟩
    have hfirst : 0 < bufAt v pos j := by
      have := Nat.le_mul_of_pos_left v.blocksize (show 0 < j by omega)
      unfold bufAt
      omega
    have hshort : count < bufAt v pos (j + 1) := by
      have hne := (tail_rest h hlast).not.mp hrest
      have hend := last_position h hj
      unfold bufAt
      split at hend <;> omega
    have := hin count (by dsimp only; omega) (by dsimp only; omega)
    omega
  intro hnot k hlow hhigh
  dsimp only at hlow hhigh
  refine ⟨by omega,?_⟩
  rcases Nat.lt_or_ge (j + 1) numbers.length with hinner | hlast
  · have := bufAt_le_count h hinner
    omega
  rcases Nat.eq_zero_or_pos j with rfl | hpos
  · have hstart : bufAt v pos 0 = 0 := by simp [bufAt]
    omega
  have hlast : j + 1 = numbers.length := by omega
  have hrest : (pos + count) % v.blocksize = 0 := by
    by_contra hne
    refine hnot ⟨hlast,by omega,?_,hne⟩
    rw [← hlast,Nat.add_sub_cancel]
    exact hzero
  have heq := (tail_rest h hlast).mp hrest
  have : bufAt v pos (j + 1) = count := by
    unfold bufAt
    omega
  omega

section

variable (hs : Reached v pos count numbers j s)
include hs

theorem allocatedStep_reached (hlive : sectorOf v numbers j ≠ 0)
    (hstep : allocatedStep v (exactRequest v pos count) (pos / v.blocksize + j) (sectorOf v numbers j) s = .ok (some s')) :
    Advanced v pos count numbers j s s' := by
  obtain ⟨hbuf,hp,hbounds⟩ := hs
  have hwithin := hbounds.mpr (by omega)
  have hkept : ¬(j + 1 = numbers.length ∧ TailHole v pos count numbers) := by
    rintro ⟨hlast,_,hzero,_⟩
    rw [← hlast,Nat.add_sub_cancel] at hzero
    exact hlive hzero
  unfold allocatedStep at hstep
  cases hp with
  | none hdone =>
    cases hstep
    rw [hbuf]
    exact ⟨hbuf.symm,.some (runAt_open h hj hlive) hdone,iff_of_true hwithin hkept⟩
  | @some buf stores d r hrun hdone =>
    dsimp only at hstep hbuf
    split at hstep
    · rename_i hnext
      cases hstep
      exact ⟨rfl,.some (runAt_extend h hj hrun hlive hnext) hdone,iff_of_true hwithin hkept⟩
    rename_i hnext
    obtain ⟨found,hfound,hstep⟩ := bind_eq_ok hstep
    cases found with
    | none => cases hstep
    | some s1 =>
      cases hstep
      obtain ⟨_,hsame,hdone',hiff⟩ := spillPending_done h hj.le (.some hrun hdone) hfound
      rw [hsame,hbuf]
      exact ⟨rfl,.some (runAt_open h hj hlive) hdone',iff_of_true (hiff.mpr hwithin) hkept⟩

theorem holeStep_reached (hzero : sectorOf v numbers j = 0)
    (hstep : holeStep v (exactRequest v pos count) (pos / v.blocksize + j) s = .ok (some s')) :
    Advanced v pos count numbers j s s' := by
  obtain ⟨hbuf,hp,hbounds⟩ := hs
  have hwithin := hbounds.mpr (by omega)
  obtain ⟨found,hfound,hstep⟩ := bind_eq_ok hstep
  cases found with
  | none => cases hstep
  | some s1 =>
    obtain ⟨hnone,hsame,hdone,hiff⟩ := spillPending_done h hj.le hp hfound
    obtain ⟨delayed,buf,stores⟩ := s1
    dsimp only at hnone hsame hdone hiff
    subst hnone
    have hlen : (exactRequest v pos count).len = count := rfl
    dsimp only at hstep
    rw [hlen,hole_size h j,if_neg (by omega),hsame,hbuf,Int.toNat_natCast] at hstep
    cases hstep
    refine ⟨hbuf.symm,.none ?_,?_⟩
    · intro b k hk hcount
      rw [filled_append]
      unfold Store.put
      dsimp only
      split
      · rename_i hin
        exact (source_hole h hzero (by omega) hk).symm
      · rename_i hout
        exact hdone b k (by omega) hcount
    · simp only [forall_mem_append,forall_mem_singleton]
      rw [and_iff_right (hiff.mpr hwithin)]
      exact hole_within h hj hzero

theorem readStep_reached
    (hstep : readStep v (exactRequest v pos count) (pos / v.blocksize + j) numbers[j] s = .ok (some s')) :
    Reached v pos count numbers (j + 1) s' := by
  have hsector : v.toSector numbers[j] = sectorOf v numbers j := by simp [sectorOf,hj]
  have hbs := block_bounds h
  have hsucc := bufAt_succ h j
  have hle := @skip_le v pos count numbers j h
  have hbuf := hs.buf
  unfold readStep at hstep
  rw [hsector] at hstep
  obtain ⟨found,hfound,hstep⟩ := bind_eq_ok hstep
  cases found with
  | none => cases hstep
  | some s1 =>
    rw [skipfirst_eq h j] at hstep
    cases hstep
    obtain ⟨hsame,hp,hbounds⟩ : Advanced v pos count numbers j s s1 := by
      unfold blockStep at hfound
      split at hfound
      · exact holeStep_reached h hj hs (by assumption) hfound
      · exact allocatedStep_reached h hj hs (by assumption) hfound
    refine ⟨?_,?_,hbounds⟩
    · dsimp only
      omega
    · cases hp with
      | none hdone => exact .none hdone
      | some hrun hdone => exact .some hrun hdone

end

end

theorem transfer_reached (rest : List Nat) : ∀ {j : Nat} {s s' : Progress},
    numbers.drop j = rest → j ≤ numbers.length → Reached v pos count numbers j s →
    transfer v (exactRequest v pos count) (pos / v.blocksize + j) rest s = .ok (some s') →
    Reached v pos count numbers numbers.length s' := by
  induction rest with
  | nil =>
    intro j s s' hdrop hj hs ht
    cases ht
    rw [← hj.antisymm (List.drop_eq_nil_iff.mp hdrop)]
    exact hs
  | cons blknr rest ih =>
    intro j s s' hdrop hj hs ht
    have hlt : j < numbers.length := by
      by_contra hge
      rw [drop_eq_nil_of_le (by omega)] at hdrop
      cases hdrop
    rw [drop_eq_getElem_cons hlt] at hdrop
    obtain ⟨hhead,htail⟩ := cons.inj hdrop
    obtain ⟨found,hstep,ht⟩ := bind_eq_ok ht
    cases found with
    | none => cases ht
    | some s1 =>
      rw [← hhead] at hstep
      exact ih htail hlt (readStep_reached h hlt hs hstep) ht

theorem count_le_bufAt : count ≤ bufAt v pos numbers.length := by
  have hbounds := length_bounds h
  unfold bufAt
  omega

end

theorem readLoop_transfer {v : Volume} {stray : Stray} {fuel : Nat} {inode : Buffer} {r : Request}
    (ha : Addressed v) (n : Nat) : ∀ {i : Nat} {c c' : Caches} {s s' : Progress},
    Ready v inode c → (∀ j < n, Regular v inode (i + j)) →
    readLoop v stray fuel inode r n i c s = .ok (some s',c') →
    ∃ numbers, numbers.length = n ∧
      (∀ j (hj : j < numbers.length), formatBlock v inode (i + j) = some numbers[j]) ∧
        transfer v r i numbers s = .ok (some s') := by
  induction n with
  | zero =>
    intro i c c' s s' _ _ h
    cases h
    exact ⟨[],rfl,fun j hj => absurd hj (Nat.not_lt_zero j),rfl⟩
  | succ n ih =>
    intro i c c' s s' hc hregular h
    unfold readLoop at h
    split at h
    · cases h
    rename_i blknr c1 hfound
    obtain ⟨number,rfl,hformat,hc1⟩ :=
      readAllocatedBlock_regular ha (hregular 0 (Nat.succ_pos n)) hc hfound
    rw [if_neg (by omega)] at h
    obtain ⟨found,hstep,h⟩ := bind_eq_ok h
    cases found with
    | none => cases h
    | some s1 =>
      obtain ⟨numbers,hlength,hnumbers,htransfer⟩ := ih hc1 (fun j hj => by
        rw [Nat.add_right_comm,Nat.add_assoc]
        exact hregular (j + 1) (Nat.succ_lt_succ hj)) h
      refine ⟨number :: numbers,by rw [length_cons,hlength],fun j hj => ?_,?_⟩
      · cases j with
        | zero => exact hformat
        | succ j =>
          rw [← Nat.add_assoc,Nat.add_right_comm]
          exact hnumbers j (Nat.lt_of_succ_lt_succ hj)
      · unfold transfer
        rw [Int.toNat_natCast] at hstep
        rw [hstep,bind_ok]
        exact htransfer

theorem reached_start (v : Volume) (pos count : Nat) (numbers : List Nat) :
    Reached v pos count numbers 0 ⟨none,0,[]⟩ := by
  have hzero : bufAt v pos 0 = 0 := by simp [bufAt]
  refine ⟨by rw [hzero]; rfl,.none ?_,iff_of_true (by simp) ?_⟩
  · intro b k hk
    omega
  · rintro ⟨hlength,hmany,_⟩
    omega

end FuzzingTargets.UBoot.Ext4
