import FuzzingTargets.UBoot.Ext4.ReadRuns

namespace FuzzingTargets.UBoot.Ext4
open Checked Memory

def readCount (inode : Buffer) (pos len : Nat) : Nat := min len (inode.le32 4 - pos)

section

variable {d : Device} {v : Volume} {stray : Stray} {fuel : Nat} {c c' : Caches} {inode : Buffer}
  {pos len : Nat} {actread : Int} {stores : List Store} {count : Nat} {numbers : List Nat}

theorem request_eq (hpos : pos ≤ inode.le32 4) (hsum : pos + len < 2 ^ 63)
    (hlog : v.log2BlockSize ≤ 30) :
    request v inode pos len = exactRequest v pos (readCount inode pos len) := by
  have hsize := inode.le32_lt 4
  have hbs : v.blocksize ≤ 2 ^ 30 := Nat.pow_le_pow_right (by decide) hlog
  have hlen : (if (inode.le32 4 : Int) < signed 64 ((len : Int) + pos) then
      (inode.le32 4 : Int) - pos else len) = (readCount inode pos len : Int) := by
    unfold readCount
    rw [signed64_of_le (by omega) (by omega)]
    split <;> omega
  unfold request exactRequest
  dsimp only
  rw [hlen,signed64_of_le (by omega) (by omega)]
  have hcast : ((readCount inode pos len : Int) + pos + v.blocksize - 1) =
      ((pos + readCount inode pos len + v.blocksize - 1 : Nat) : Int) := by
    have := Nat.two_pow_pos v.log2BlockSize
    unfold Volume.blocksize
    omega
  rw [hcast,unsigned_natCast (by omega)]

theorem firstBlock_eq (hpos : pos < 2 ^ 32) (hbs : 512 ≤ v.blocksize) :
    firstBlock v pos = ((pos / v.blocksize : Nat) : Int) := by
  have hlt : pos / v.blocksize < 2 ^ 31 := by
    rw [Nat.div_lt_iff_lt_mul (by omega)]
    omega
  exact signed_natCast hlt

theorem blockCount_eq (hsum : pos + count < 2 ^ 32) (hbs : 512 ≤ v.blocksize) :
    blockCount v (exactRequest v pos count) =
      (pos + count + v.blocksize - 1) / v.blocksize - pos / v.blocksize := by
  have hblocks : (pos + count + v.blocksize - 1) / v.blocksize ≤ 2 ^ 31 := by
    have hceil := (ceil_bounds (pos + count) (show 0 < v.blocksize by omega)).2
    by_contra hgt
    have := Nat.mul_le_mul_right v.blocksize (show 2 ^ 31 + 1 ≤
      (pos + count + v.blocksize - 1) / v.blocksize by omega)
    omega
  unfold blockCount
  have hfirst : firstBlock v (exactRequest v pos count).pos = ((pos / v.blocksize : Nat) : Int) :=
    firstBlock_eq (by omega) hbs
  rw [hfirst,if_neg (Int.not_lt.mpr (Int.natCast_nonneg _)),Int.toNat_natCast]
  exact congrArg (· - _) (Nat.min_eq_left hblocks)

structure RegularFile (v : Volume) (c : Caches) (inode : Buffer) (pos count : Nat) : Prop where
  addressable : v.device.sectors ≤ 2 ^ 64
  caches : usesExtents inode = false → ValidCaches v c
  mapped : ∀ i, pos / v.blocksize ≤ i → i * v.blocksize < pos + count → Regular v inode i
  inside : ∀ x, pos ≤ x → x < pos + count → fileByte v inode x ≠ none
  distinct : v.blocksize - pos % v.blocksize < v.device.blksz →
    (pos / v.blocksize + 1) * v.blocksize < pos + count →
      ∀ b ≠ 0, formatBlock v inode (pos / v.blocksize) = some b →
        formatBlock v inode (pos / v.blocksize + 1) ≠ some b

def PartialTailHole (v : Volume) (inode : Buffer) (pos count : Nat) : Prop :=
  pos / v.blocksize < (pos + count - 1) / v.blocksize ∧
    formatBlock v inode ((pos + count - 1) / v.blocksize) = some 0 ∧
      (pos + count) % v.blocksize ≠ 0

structure Numbered (v : Volume) (inode : Buffer) (pos count : Nat) (numbers : List Nat) : Prop where
  length : numbers.length = (pos + count + v.blocksize - 1) / v.blocksize - pos / v.blocksize
  blocks : ∀ j (hj : j < numbers.length),
    formatBlock v inode (pos / v.blocksize + j) = some numbers[j]

section

variable (ha : Addressed v) (hr : RegularFile v c inode pos count)
  (hn : Numbered v inode pos count numbers)
include ha

theorem block_reached {j : Nat}
    (hj : j < (pos + count + v.blocksize - 1) / v.blocksize - pos / v.blocksize) :
    (pos / v.blocksize + j) * v.blocksize < pos + count := by
  have hbs := blocksize_bounds ha.representable ha.sectorFits
  have hceil := ceil_bounds (pos + count) (show 0 < v.blocksize by omega)
  have hmul := Nat.mul_le_mul_right v.blocksize
    (show pos / v.blocksize + j + 1 ≤ (pos + count + v.blocksize - 1) / v.blocksize by omega)
  rw [Nat.succ_mul] at hmul
  omega

include hn

theorem count_pos (hmany : 1 < numbers.length) : 0 < count := by
  have hbs := blocksize_bounds ha.representable ha.sectorFits
  have hreach := block_reached ha (hn.length ▸ hmany)
  have := Nat.lt_mul_div_succ pos (show 0 < v.blocksize by omega)
  rw [Nat.mul_comm] at this
  omega

include hr

section

variable {j : Nat} (hj : j < numbers.length)
include hj

omit ha in
theorem number_inside {x : Nat} (hx : x / v.blocksize = pos / v.blocksize + j) (hlow : pos ≤ x)
    (hhigh : x < pos + count) (hne : numbers[j] ≠ 0) :
    numbers[j] * v.blocksize + x % v.blocksize < v.device.size ∧
      fileByte v inode x = some (v.device.data (numbers[j] * v.blocksize + x % v.blocksize)) := by
  have hinside := hr.inside x hlow hhigh
  unfold fileByte at hinside ⊢
  rw [hx,hn.blocks j hj,Option.bind_some,if_neg hne] at hinside ⊢
  split at hinside
  · rename_i hlt
    exact ⟨hlt,if_pos hlt⟩
  · exact absurd rfl hinside

theorem sectorOf_number (hcount : 0 < count) : sectorOf v numbers j = numbers[j] * 2 ^ v.sectorShift := by
  have hbs := blocksize_bounds ha.representable ha.sectorFits
  have hget : numbers.getD j 0 = numbers[j] := by simp [hj]
  unfold sectorOf
  rw [hget]
  by_cases hzero : numbers[j] = 0
  · rw [hzero,Nat.zero_mul]
    unfold Volume.toSector
    rw [Nat.zero_mul,Nat.zero_mod]
  have hsplit := Nat.div_add_mod' pos v.blocksize
  rcases Nat.eq_zero_or_pos j with rfl | hpos
  · exact toSector_eq ha (number_inside hr hn hj (x := pos) rfl le_rfl (by omega) hzero).1
  · refine toSector_eq ha (number_inside hr hn hj (x := (pos / v.blocksize + j) * v.blocksize)
      (Nat.mul_div_cancel _ (by omega)) ?_ (block_reached ha (hn.length ▸ hj)) hzero).1
    have := Nat.le_mul_of_pos_left v.blocksize hpos
    have := Nat.mod_lt pos (show 0 < v.blocksize by omega)
    rw [Nat.add_mul]
    omega

end

theorem numbers_apart (hshort : v.blocksize - pos % v.blocksize < v.device.blksz)
    (hmany : 1 < numbers.length) (hlive : sectorOf v numbers 0 ≠ 0) :
    sectorOf v numbers 1 ≠ sectorOf v numbers 0 := by
  have hcount := count_pos ha hn hmany
  rw [sectorOf_number ha hr hn (j := 0) (by omega) hcount] at hlive ⊢
  rw [sectorOf_number ha hr hn hmany hcount]
  intro hsame
  have hfirst := hn.blocks 0 (by omega)
  have hsecond := hn.blocks 1 hmany
  rw [Nat.eq_of_mul_eq_mul_right (Nat.two_pow_pos _) hsame] at hsecond
  exact hr.distinct hshort (block_reached ha (hn.length ▸ hmany)) _
    (fun hzero => hlive (by rw [hzero,Nat.zero_mul])) hfirst hsecond

theorem source_fileByte {k : Nat} (hk : k < count) :
    some (source v pos numbers k) = fileByte v inode (pos + k) := by
  have hbs := blocksize_bounds ha.representable ha.sectorFits
  have hle : pos / v.blocksize ≤ (pos + k) / v.blocksize := Nat.div_le_div_right (by omega)
  have hj : (pos + k) / v.blocksize - pos / v.blocksize < numbers.length := by
    have hceil := ceil_bounds (pos + count) (show 0 < v.blocksize by omega)
    have hlt : (pos + k) / v.blocksize < (pos + count + v.blocksize - 1) / v.blocksize := by
      rw [Nat.div_lt_iff_lt_mul (by omega)]
      omega
    rw [hn.length]
    omega
  have hx : (pos + k) / v.blocksize =
      pos / v.blocksize + ((pos + k) / v.blocksize - pos / v.blocksize) := by omega
  unfold source
  dsimp only
  generalize (pos + k) / v.blocksize - pos / v.blocksize = j at hj hx ⊢
  by_cases hzero : numbers[j] = 0
  · unfold fileByte
    rw [sectorOf_number ha hr hn hj (by omega),hzero,Nat.zero_mul,if_pos rfl,hx,hn.blocks j hj,hzero,
      Option.bind_some,if_pos rfl]
  have hne : sectorOf v numbers j ≠ 0 := by
    rw [sectorOf_number ha hr hn hj (by omega)]
    exact (Nat.mul_pos (Nat.pos_of_ne_zero hzero) (Nat.two_pow_pos _)).ne'
  obtain ⟨hin,hbyte⟩ := number_inside hr hn hj hx (by omega) (by omega) hzero
  have hsector : sectorOf v numbers j = v.toSector numbers[j] := by simp [sectorOf,hj]
  rw [if_neg hne,hbyte,hsector,byte_inside ha hin]

theorem tailHole_iff : TailHole v pos count numbers ↔ PartialTailHole v inode pos count := by
  have hbs := blocksize_bounds ha.representable ha.sectorFits
  have hlength := hn.length
  rcases Nat.eq_zero_or_pos (pos + count) with hzero | hpos
  · have : (pos + count + v.blocksize - 1) / v.blocksize = 0 := Nat.div_eq_of_lt (by omega)
    have hnone : numbers.length = 0 := by rw [hlength,this,Nat.zero_sub]
    constructor
    · rintro ⟨hmany,_⟩
      omega
    · rintro ⟨hlt,_⟩
      rw [hzero] at hlt
      simp at hlt
  have hceil : (pos + count + v.blocksize - 1) / v.blocksize =
      (pos + count - 1) / v.blocksize + 1 := by
    rw [show pos + count + v.blocksize - 1 = pos + count - 1 + v.blocksize by omega,
      Nat.add_div_right _ (by omega)]
  have hlast : ∀ hmany : 1 < numbers.length,
      (sectorOf v numbers (numbers.length - 1) = 0 ↔
        formatBlock v inode ((pos + count - 1) / v.blocksize) = some 0) := by
    intro hmany
    have hj : numbers.length - 1 < numbers.length := by omega
    have hindex : pos / v.blocksize + (numbers.length - 1) = (pos + count - 1) / v.blocksize := by
      omega
    rw [← hindex,hn.blocks _ hj,sectorOf_number ha hr hn hj (count_pos ha hn hmany),
      Option.some.injEq,Nat.mul_eq_zero]
    have := Nat.two_pow_pos v.sectorShift
    omega
  constructor
  · rintro ⟨hmany,hsector,hrest⟩
    exact ⟨by omega,(hlast hmany).mp hsector,hrest⟩
  · rintro ⟨hlt,hformat,hrest⟩
    have hmany : 1 < numbers.length := by omega
    exact ⟨hmany,(hlast hmany).mpr hformat,hrest⟩

end

theorem read_run (hfits : v.device.log2blksz ≤ v.log2BlockSize)
    (hr : RegularFile v c inode pos (readCount inode pos len)) (hpos : pos ≤ inode.le32 4)
    (hsum : pos + len < 2 ^ 63)
    (h : ext4fsReadFile v stray fuel c inode pos len = .ok (some (actread,stores),c')) :
    actread = readCount inode pos len ∧
      (∀ b, ∀ k < readCount inode pos len, some (filled stores b k) = fileByte v inode (pos + k)) ∧
      ((∀ st ∈ stores, st.Within (readCount inode pos len)) ↔
        ¬PartialTailHole v inode pos (readCount inode pos len)) := by
  have hsize := inode.le32_lt 4
  have hcount : readCount inode pos len ≤ inode.le32 4 - pos := Nat.min_le_right _ _
  unfold ext4fsReadFile at h
  split at h
  · cases h
  rename_i hlog
  have hlog : v.log2BlockSize ≤ 30 := by omega
  have ha : Addressed v := ⟨hlog,hfits,hr.addressable⟩
  have hbs := blocksize_bounds hlog hfits
  have hready : Ready v inode { c with extent := none } := by
    unfold Ready
    split
    · exact fun _ _ heq => nomatch heq
    · rename_i hplain
      obtain ⟨h1,h2,h3⟩ := hr.caches (by simpa using hplain)
      exact ⟨h1,h2,h3⟩
  dsimp only at h
  rw [request_eq hpos hsum hlog,firstBlock_eq (by omega) hbs.1,
    blockCount_eq (by omega) hbs.1,Int.toNat_natCast] at h
  obtain ⟨⟨found,c1⟩,hloop,h⟩ := bind_eq_ok h
  cases found with
  | none => cases h
  | some s =>
    obtain ⟨numbers,hlength,hblocks,htransfer⟩ := readLoop_transfer ha _ hready (fun j hj =>
      hr.mapped _ (Nat.le_add_right _ _) (block_reached ha hj)) hloop
    have hn : Numbered v inode pos (readCount inode pos len) numbers := ⟨hlength,hblocks⟩
    have hg : Geometry v pos (readCount inode pos len) numbers :=
      ⟨hlog,hfits,by omega,hlength,numbers_apart ha hr hn⟩
    have hstart := reached_start v pos (readCount inode pos len) numbers
    have hreached := transfer_reached hg numbers List.drop_zero (Nat.zero_le _) hstart htransfer
    obtain ⟨spilled,hspill,h⟩ := bind_eq_ok h
    cases spilled with
    | none => cases h
    | some s1 =>
      cases h
      obtain ⟨_,_,hdone,hiff⟩ := spillPending_done hg le_rfl hreached.pending hspill
      refine ⟨rfl,fun b k hk => ?_,?_⟩
      · rw [hdone b k (hk.trans_le (count_le_bufAt hg)) hk]
        exact source_fileByte ha hr hn hk
      · rw [hiff,hreached.bounds,← tailHole_iff ha hr hn]
        simp

theorem mounted_root (hm : ext4fsMount d = .ok (some v)) :
    ext4fsReadInode v 2 = .ok (some v.root) := by
  obtain ⟨found,_,hm⟩ := bind_eq_ok hm
  cases found with
  | none => cases hm
  | some sblock =>
    dsimp only at hm
    split at hm
    · cases hm
    obtain ⟨r,hr,hm⟩ := bind_eq_ok hm
    cases r with
    | none => cases hm
    | some inode =>
      cases hm
      exact hr

theorem mounted_sectorFits (hm : ext4fsMount d = .ok (some v)) :
    v.device.log2blksz ≤ v.log2BlockSize := by
  obtain ⟨group,_,hr⟩ := bind_eq_ok (mounted_root hm)
  obtain ⟨found,hfound,_⟩ := bind_eq_ok hr
  obtain ⟨a,ha,_⟩ := bind_eq_ok hfound
  obtain ⟨_,_,ha⟩ := bind_eq_ok ha
  obtain ⟨_,_,ha⟩ := bind_eq_ok ha
  obtain ⟨_,_,ha⟩ := bind_eq_ok ha
  obtain ⟨_,hsector,_⟩ := bind_eq_ok ha
  exact sectorFits_of_toSectors hsector

theorem actread_eq (hlog : ¬31 ≤ v.log2BlockSize)
    (h : ext4fsReadFile v stray fuel c inode pos len = .ok (some (actread,stores),c')) :
    actread = (request v inode pos len).len := by
  unfold ext4fsReadFile at h
  rw [if_neg hlog] at h
  obtain ⟨⟨found,c1⟩,_,h⟩ := bind_eq_ok h
  cases found with
  | none => cases h
  | some s =>
    obtain ⟨spilled,_,h⟩ := bind_eq_ok h
    cases spilled with
    | none => cases h
    | some s1 =>
      have hsome := Option.some.inj (Prod.mk.inj (Except.ok.inj h)).1
      exact (Prod.mk.inj hsome).1.symm

theorem normal_of_count (hpos : pos < 2 ^ 63) (hlen : len < 2 ^ 63)
    (h : (request v inode pos len).len = max 0 (min (len : Int) (inode.le32 4 - pos))) :
    pos ≤ inode.le32 4 ∧ pos + len < 2 ^ 63 := by
  have hsize := inode.le32_lt 4
  unfold request at h
  dsimp only at h
  rcases Nat.lt_or_ge (pos + len) (2 ^ 63) with hlt | hge
  · rw [signed64_of_le (by omega) (by omega)] at h
    split at h <;> omega
  · rw [signed64_of_ge (by omega) (by omega),if_neg (by omega)] at h
    omega

end

def smallImage : Device :=
  ⟨9,32,fun k => match k with
    | 1044 => 1
    | 1064 => 8
    | 1080 => 0x53
    | 1081 => 0xEF
    | 2056 => 5
    | _ => 0,sector_wide,sector_narrow⟩

def smallFile (second : UInt8) : Buffer := fun k => match k with
  | 4 => 0xDC
  | 5 => 0x05
  | 40 => 7
  | 44 => second
  | _ => 0

def noCaches : Caches := ⟨none,none,none,none⟩

def extents (r : Except Stop (Option (Int × List Store) × Caches)) :
    Option (Int × List (Int × Nat)) :=
  match r with
  | .ok (some (actread,stores),_) => some (actread,stores.map fun s => (s.offset,s.size))
  | _ => none

theorem extents_eq_some {r : Except Stop (Option (Int × List Store) × Caches)} {actread : Int}
    {writes : List (Int × Nat)} (h : extents r = some (actread,writes)) :
    ∃ stores c', r = .ok (some (actread,stores),c') ∧
      stores.map (fun s => (s.offset,s.size)) = writes := by
  unfold extents at h
  split at h
  · cases h
    exact ⟨_,_,rfl,rfl⟩
  · cases h

def mounted (d : Device) : Volume :=
  match ext4fsMount d with
  | .ok (some v) => v
  | _ => openVolume d fun _ => 0

theorem mounted_eq {d : Device} (h : (match ext4fsMount d with
    | .ok (some _) => true
    | _ => false) = true) : ext4fsMount d = .ok (some (mounted d)) := by
  unfold mounted
  split at h
  · rename_i v hv
    rw [hv]
  · cases h

theorem smallFile_regular : RegularFile (mounted smallImage) noCaches (smallFile 8) 0 1500 := by
  have hsize : (mounted smallImage).blocksize = 1024 := by decide +kernel
  have hblocks : formatBlock (mounted smallImage) (smallFile 8) 0 = some 7 ∧
      formatBlock (mounted smallImage) (smallFile 8) 1 = some 8 := by decide +kernel
  have hdense : ∀ i < 2, (denseBlock (mounted smallImage) (smallFile 8) i).isSome := by decide +kernel
  have hplain : usesExtents (smallFile 8) = false := by decide +kernel
  have hslot : ValidSlot (mounted smallImage) none := nofun
  have hdevice : (mounted smallImage).device.size = 16384 := by decide +kernel
  refine ⟨by decide +kernel,fun _ => ⟨hslot,hslot,hslot⟩,?_,?_,?_⟩
  · intro i _ hi
    rw [hsize] at hi
    unfold Regular
    rw [hplain]
    exact ⟨hdense i (by omega),fun _ => by decide +kernel⟩
  · intro x _ hx
    unfold fileByte
    rw [hsize,hdevice]
    obtain hlow | hhigh : x / 1024 = 0 ∨ x / 1024 = 1 := by omega
    · rw [hlow,hblocks.1,Option.bind_some,if_neg (by decide),if_pos (by omega)]
      exact Option.some_ne_none _
    · rw [hhigh,hblocks.2,Option.bind_some,if_neg (by decide),if_pos (by omega)]
      exact Option.some_ne_none _
  intro _ _ b _ hfirst hsecond
  rw [Nat.zero_div,hblocks.1] at hfirst
  rw [Nat.zero_div,hblocks.2] at hsecond
  cases hfirst
  cases hsecond

structure Lookup where
  stray : Stray
  inode : Buffer
  fileblock : Nat

def readAllocatedBlocks (v : Volume) (fuel : Nat) : Caches → List Lookup → Option (List Int)
  | _, [] => some []
  | c, l :: ls =>
    match readAllocatedBlock v l.stray fuel c l.inode l.fileblock with
    | none => none
    | some (block,c) => (readAllocatedBlocks v fuel c ls).map (block :: ·)

def FromScratch (v : Volume) (ls : List Lookup) (blocks : List Int) : Prop :=
  List.Forall₂ (fun l block => (pointerBlock v l.inode l.fileblock).map Int.ofNat = some block) ls
    blocks

theorem readAllocatedBlocks_from_scratch {v : Volume} {c : Caches} (h : Usable v)
    (hc : ValidCaches v c) (fuel : Nat) (ls : List Lookup)
    (hplain : ∀ l ∈ ls, usesExtents l.inode = false)
    (hdense : ∀ l ∈ ls, (denseBlock v l.inode l.fileblock).isSome) :
    ∃ blocks, readAllocatedBlocks v fuel c ls = some blocks ∧ FromScratch v ls blocks := by
  induction ls generalizing c with
  | nil => exact ⟨[],rfl,.nil⟩
  | cons l ls ih =>
    obtain ⟨hplain0,hplain⟩ := List.forall_mem_cons.mp hplain
    obtain ⟨hdense0,hdense⟩ := List.forall_mem_cons.mp hdense
    obtain ⟨block,hblock⟩ := Option.isSome_iff_exists.mp hdense0
    obtain ⟨c',hread,hc'⟩ := readAllocatedBlock_dense h hc l.stray fuel hplain0 hblock
    obtain ⟨blocks,hrest,hscratch⟩ := ih hc' hplain hdense
    refine ⟨block :: blocks,?_,.cons ?_ hscratch⟩
    · simp only [readAllocatedBlocks,hread,hrest,Option.map_some]
    · rw [denseBlock_format hblock]
      rfl

def tableImage : Device :=
  { smallImage with
    data := fun k => match k with
      | 0 => 6
      | 9228 => 8
      | _ => smallImage.data k }

def tableFile : Buffer := fun k => match k with
  | 40 => 7
  | 88 => 9
  | _ => 0

def tableLookups : List Lookup :=
  [⟨fun _ _ => 0,tableFile,15⟩,⟨fun _ _ => 0,tableFile,0⟩,⟨fun _ _ => 0,smallFile 8,1⟩,
    ⟨fun _ _ => 0,tableFile,15⟩]

theorem tableLookups_from_scratch : ∃ blocks,
    readAllocatedBlocks (mounted tableImage) 0 noCaches tableLookups = some blocks ∧
      FromScratch (mounted tableImage) tableLookups blocks := by
  have hslot : ValidSlot (mounted tableImage) none := nofun
  exact readAllocatedBlocks_from_scratch ⟨by decide +kernel,by decide +kernel,by decide +kernel⟩
    ⟨hslot,hslot,hslot⟩ 0 tableLookups (by decide +kernel) (by decide +kernel)

theorem zero_pointer_followed :
    ext4fsMount tableImage = .ok (some (mounted tableImage)) ∧
      readAllocatedBlocks (mounted tableImage) 0 noCaches [⟨fun _ _ => 0,fun _ => 0,12⟩] =
        some [6] ∧
      ¬FromScratch (mounted tableImage) [⟨fun _ _ => 0,fun _ => 0,12⟩] [6] := by
  refine ⟨mounted_eq (by decide +kernel),by decide +kernel,fun h => ?_⟩
  cases h with
  | cons h _ => exact absurd h (by decide +kernel)

end FuzzingTargets.UBoot.Ext4
