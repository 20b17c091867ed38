import FuzzingTargets.Foundation.Checked
import FuzzingTargets.Foundation.Memory

namespace FuzzingTargets.UBoot.Ext4
open Checked Memory

inductive Fault where
  | divideByZero
  | badShift
  | negativeCopy
  | overread
  deriving DecidableEq

structure Device where
  log2blksz : Nat
  sectors : Nat
  data : Buffer
  wide : 9 ≤ log2blksz
  narrow : log2blksz < 31

theorem sector_wide : 9 ≤ 9 := Nat.le_refl 9

theorem sector_narrow : 9 < 31 := by decide

variable (d : Device)

def Device.blksz : Nat := 2 ^ d.log2blksz

def Device.byte (sector offset : Nat) : UInt8 :=
  d.data ((sector + offset / d.blksz) % 2 ^ 64 * d.blksz + offset % d.blksz)

def Device.bytes (sector offset n : Nat) : Buffer :=
  fun k => if k < n then d.byte sector (offset + k) else 0

def Device.aligned (sector byteLen : Nat) : Buffer :=
  let blockLen := byteLen / d.blksz * d.blksz
  if blockLen = 0 then d.bytes sector 0 byteLen
  else fun k =>
    if k < blockLen then d.byte sector k
    else d.bytes (sector + blockLen / d.blksz) 0 (byteLen - blockLen) (k - blockLen)

def fsDevread (sector : Nat) (byteOffset byteLen : Int) : Except Fault (Option Buffer) :=
  if d.sectors ≤ unsigned 64 (sector + signed 32 (byteOffset + byteLen - 1) / d.blksz) then .ok none
  else
    let sector := unsigned 64 (sector + byteOffset / d.blksz)
    let offset := (byteOffset % d.blksz).toNat
    if offset = 0 then .ok (some (d.aligned sector (unsigned 32 byteLen)))
    else
      let readlen := min ((d.blksz : Int) - offset) byteLen
      if readlen < 0 then .error .negativeCopy
      else .ok (some fun k =>
        if k < readlen.toNat then d.byte sector (offset + k)
        else d.aligned (sector + 1) (byteLen - readlen).toNat (k - readlen.toNat))

section

variable {d : Device} {sector : Nat}

theorem blksz_pos (d : Device) : 0 < d.blksz := Nat.two_pow_pos _

theorem byte_add_sectors (d : Device) (sector n offset : Nat) :
    d.byte (sector + n) offset = d.byte sector (n * d.blksz + offset) := by
  unfold Device.byte
  rw [Nat.mul_comm n,Nat.mul_add_div (blksz_pos d),Nat.mul_add_mod_self_left,Nat.add_assoc]

theorem byte_mod (d : Device) (sector offset : Nat) :
    d.byte (sector % 2 ^ 64) offset = d.byte sector offset := by
  unfold Device.byte
  rw [Nat.mod_add_mod]

theorem aligned_eq (d : Device) (sector byteLen : Nat) :
    d.aligned sector byteLen = d.bytes sector 0 byteLen := by
  unfold Device.aligned
  dsimp only
  split
  · rfl
  have hle : byteLen / d.blksz * d.blksz ≤ byteLen := Nat.div_mul_le_self _ _
  have hblocks : byteLen / d.blksz * d.blksz / d.blksz = byteLen / d.blksz :=
    Nat.mul_div_cancel _ (blksz_pos d)
  funext k
  unfold Device.bytes
  rw [hblocks,byte_add_sectors]
  split
  · rw [if_pos (by omega),Nat.zero_add]
  by_cases hk : k < byteLen
  · rw [if_pos (by omega),if_pos hk]
    congr 1
    omega
  · rw [if_neg (by omega),if_neg hk]

theorem fsDevread_bytes {byteOffset byteLen : Nat} {buf : Buffer} (hlen : byteLen < 2 ^ 32)
    (h : fsDevread d sector byteOffset (signed 32 byteLen) = .ok (some buf)) :
    buf = d.bytes sector byteOffset byteLen := by
  have hblksz : 0 < d.blksz := blksz_pos d
  have hsplit := Nat.div_add_mod' byteOffset d.blksz
  have hmod := Nat.mod_lt byteOffset hblksz
  have hstart : unsigned 64 ((sector : Int) + (byteOffset : Int) / (d.blksz : Int)) =
      (sector + byteOffset / d.blksz) % 2 ^ 64 := by
    exact_mod_cast unsigned_mod 64 _
  have hrest : ((byteOffset : Int) % (d.blksz : Int)).toNat = byteOffset % d.blksz := by
    exact_mod_cast Int.toNat_natCast _
  unfold fsDevread at h
  split at h
  · cases h
  simp only [hstart,hrest,unsigned_signed,unsigned_natCast hlen,aligned_eq] at h
  split at h
  · rename_i hzero
    rw [← Option.some.inj (Except.ok.inj h)]
    funext k
    unfold Device.bytes
    rw [byte_mod,byte_add_sectors]
    congr 2
    omega
  split at h
  · cases h
  rename_i hoff hread
  have hbuf := Option.some.inj (Except.ok.inj h)
  have hshort : byteLen < 2 ^ 31 := by
    by_contra hlong
    rw [signed_natCast_neg (by omega) hlen] at hread
    omega
  rw [signed_natCast hshort] at hbuf
  rw [← hbuf]
  funext k
  unfold Device.bytes
  rw [byte_mod,byte_add_sectors,byte_add_sectors,byte_mod,byte_add_sectors]
  split
  · rw [if_pos (by omega)]
    congr 1
    omega
  by_cases hk : k < byteLen
  · rw [if_pos (by omega),if_pos hk]
    congr 1
    omega
  · rw [if_neg (by omega),if_neg hk]

theorem fsDevread_runs (d : Device) (sector : Nat) (byteOffset : Int) {byteLen : Int}
    (h : 0 ≤ byteLen) : ∃ r, fsDevread d sector byteOffset byteLen = .ok r := by
  have hmod := Int.emod_lt_of_pos byteOffset (Int.natCast_pos.mpr (blksz_pos d))
  unfold fsDevread
  dsimp only
  split
  · exact ⟨_,rfl⟩
  split
  · exact ⟨_,rfl⟩
  · rw [if_neg (by omega)]
    exact ⟨_,rfl⟩

end

structure Volume where
  device : Device
  sblock : Buffer
  inodesz : Nat
  gdsize : Nat
  root : Buffer

namespace Volume

def log2BlockSize (v : Volume) : Nat := (v.sblock.le32 24 + 10) % 2 ^ 32

def firstDataBlock (v : Volume) : Nat := v.sblock.le32 20

def inodesPerGroup (v : Volume) : Nat := v.sblock.le32 40

end Volume

structure Address where
  sector : Nat
  blkoff : Nat
  deriving DecidableEq

def divide (a b : Nat) : Except Fault Nat :=
  if b = 0 then .error .divideByZero else .ok (a / b)

def ext2BlockSize (v : Volume) : Except Fault Int :=
  if v.log2BlockSize < 32 then .ok (signed 32 (2 ^ v.log2BlockSize)) else .error .badShift

def toSectors (v : Volume) (blkno : Nat) : Except Fault Nat :=
  let amount := unsigned 32 ((v.log2BlockSize : Int) - v.device.log2blksz)
  if amount < 64 then .ok (blkno * 2 ^ amount % 2 ^ 64) else .error .badShift

def descPerBlk (v : Volume) (blocksize : Int) : Except Fault Nat :=
  if v.gdsize = 0 then .error .divideByZero else .ok (unsigned 32 (blocksize.tdiv v.gdsize))

def groupAddress (v : Volume) (group : Int) : Except Fault Address := do
  let blocksize ← ext2BlockSize v
  let descPerBlk ← descPerBlk v blocksize
  let quotient ← divide (unsigned 32 group) descPerBlk
  let sector ← toSectors v ((v.firstDataBlock + 1 + quotient) % 2 ^ 32)
  .ok ⟨sector,unsigned 32 group % descPerBlk * v.gdsize % 2 ^ 32⟩

def ext4fsBlockgroup (v : Volume) (group : Int) : Except Fault (Option Buffer) := do
  let a ← groupAddress v group
  fsDevread v.device a.sector (signed 32 a.blkoff) v.gdsize

def ext4fsBgGetInodeTableId (v : Volume) (blkgrp : Buffer) : Nat :=
  if v.gdsize = 64 then blkgrp.le32 8 + blkgrp.le32 40 * 2 ^ 32 else blkgrp.le32 8

def inodeAddress (v : Volume) (blkgrp : Buffer) (ino : Int) : Except Fault Address := do
  let blocksize ← ext2BlockSize v
  let quotient ← divide (unsigned 32 blocksize) v.inodesz
  let inodesPerBlock := signed 32 quotient
  let index ← divide (unsigned 32 ino % v.inodesPerGroup) (unsigned 32 inodesPerBlock)
  let sector ← toSectors v ((ext4fsBgGetInodeTableId v blkgrp + index) % 2 ^ 64)
  .ok ⟨sector,unsigned 32 (ino.tmod inodesPerBlock * v.inodesz)⟩

def sizeofInode : Nat := 128

def groupOf (v : Volume) (ino : Int) : Except Fault Int := do
  let group ← divide (unsigned 32 (signed 32 (ino - 1))) v.inodesPerGroup
  .ok (signed 32 group)

def ext4fsReadInode (v : Volume) (ino : Int) : Except Fault (Option Buffer) := do
  let group ← groupOf v ino
  match ← ext4fsBlockgroup v group with
  | none => .ok none
  | some blkgrp =>
    let a ← inodeAddress v blkgrp (signed 32 (ino - 1))
    fsDevread v.device a.sector (signed 32 a.blkoff) sizeofInode

def ext4ReadSuperblock : Except Fault (Option Buffer) :=
  fsDevread d (1024 / d.blksz) (1024 % d.blksz) 1024

def openVolume (sblock : Buffer) : Volume :=
  if sblock.le32 76 = 0 then ⟨d,sblock,128,32,fun _ => 0⟩
  else ⟨d,sblock,sblock.le16 88,
    if sblock.le32 96 / 128 % 2 = 1 then sblock.le16 254 else 32,fun _ => 0⟩

def ext4fsMount : Except Fault (Option Volume) := do
  match ← ext4ReadSuperblock d with
  | none => .ok none
  | some sblock =>
    if sblock.le16 56 ≠ 0xEF53 then .ok none
    else
      match ← ext4fsReadInode (openVolume d sblock) 2 with
      | none => .ok none
      | some inode => .ok (some { openVolume d sblock with root := inode })

def Inside (v : Volume) (a : Address) (size : Nat) : Prop :=
  ∀ blocksize, ext2BlockSize v = .ok blocksize → (a.blkoff : Int) + size ≤ blocksize

structure SafeBlockgroup (v : Volume) (group : Int) : Prop where
  runs : ∃ r, ext4fsBlockgroup v group = .ok r
  copies : ∀ a, groupAddress v group = .ok a → Inside v a v.gdsize

structure SafeReadInode (v : Volume) (ino : Int) : Prop where
  runs : ∃ r, ext4fsReadInode v ino = .ok r
  descriptor : ∀ group, groupOf v ino = .ok group →
    ∀ a, groupAddress v group = .ok a → Inside v a v.gdsize
  copies : ∀ group blkgrp, groupOf v ino = .ok group → ext4fsBlockgroup v group = .ok (some blkgrp) →
    ∀ a, inodeAddress v blkgrp (signed 32 (ino - 1)) = .ok a → Inside v a sizeofInode

structure SafeLookups (ino group : Int) : Prop where
  mounts : ∃ r, ext4fsMount d = .ok r
  root : ∀ sblock, ext4ReadSuperblock d = .ok (some sblock) → sblock.le16 56 = 0xEF53 →
    SafeReadInode (openVolume d sblock) 2
  inode : ∀ v, ext4fsMount d = .ok (some v) → SafeReadInode v ino
  blockgroup : ∀ v, ext4fsMount d = .ok (some v) → SafeBlockgroup v group

structure SoundDescriptors (v : Volume) : Prop where
  representable : v.log2BlockSize ≤ 30
  sectorFits : v.device.log2blksz ≤ v.log2BlockSize
  nonempty : 0 < v.gdsize
  fits : v.gdsize ≤ 2 ^ v.log2BlockSize

structure SoundInode (v : Volume) (ino : Int) : Prop where
  nonempty : 0 < v.inodesz
  fits : v.inodesz ≤ 2 ^ v.log2BlockSize
  positive : 0 ≤ ino.tmod ((2 ^ v.log2BlockSize / v.inodesz : Nat) : Int)
  inside : ino.tmod ((2 ^ v.log2BlockSize / v.inodesz : Nat) : Int) * v.inodesz + sizeofInode ≤
    2 ^ v.log2BlockSize

structure SoundLookup (v : Volume) (ino : Int) : Prop where
  grouped : v.inodesPerGroup ≠ 0
  descriptors : SoundDescriptors v
  inode : ∀ group blkgrp, groupOf v ino = .ok group → ext4fsBlockgroup v group = .ok (some blkgrp) →
    SoundInode v (signed 32 (ino - 1))

structure SoundMount (ino : Int) : Prop where
  root : ∀ sblock, ext4ReadSuperblock d = .ok (some sblock) → sblock.le16 56 = 0xEF53 →
    SoundLookup (openVolume d sblock) 2
  mounted : ∀ v, ext4fsMount d = .ok (some v) → SoundLookup v ino

section

variable {v : Volume} {group ino : Int} {a : Address}

theorem blocksize_le (h : v.log2BlockSize ≤ 30) : 2 ^ v.log2BlockSize ≤ 2 ^ 30 :=
  Nat.pow_le_pow_right (by decide) h

theorem ext2BlockSize_eq (h : v.log2BlockSize ≤ 30) :
    ext2BlockSize v = .ok ((2 ^ v.log2BlockSize : Nat) : Int) := by
  have hpow := blocksize_le h
  have hsigned := signed_natCast (n := 2 ^ v.log2BlockSize) (by omega)
  unfold ext2BlockSize
  rw [if_pos (by omega),← hsigned]
  rfl

theorem ext2BlockSize_cases {blocksize : Int} (h : ext2BlockSize v = .ok blocksize) :
    v.log2BlockSize ≤ 30 ∨ v.log2BlockSize = 31 ∧ blocksize = -2 ^ 31 := by
  unfold ext2BlockSize at h
  split at h
  · rcases Nat.lt_or_ge v.log2BlockSize 31 with hlt | hge
    · exact .inl (by omega)
    · have heq : v.log2BlockSize = 31 := by omega
      rw [heq] at h
      exact .inr ⟨heq,(Except.ok.inj h).symm.trans (by decide)⟩
  · cases h

theorem toSectors_runs (h : v.log2BlockSize ≤ 30) (hd : v.device.log2blksz ≤ v.log2BlockSize)
    (blkno : Nat) : ∃ sector, toSectors v blkno = .ok sector := by
  have hamount : unsigned 32 ((v.log2BlockSize : Int) - v.device.log2blksz) =
      v.log2BlockSize - v.device.log2blksz := by
    rw [← Int.natCast_sub hd]
    exact unsigned_natCast (by omega)
  unfold toSectors
  rw [if_pos (by omega)]
  exact ⟨_,rfl⟩

theorem sectorFits_of_toSectors {blkno sector : Nat} (h : toSectors v blkno = .ok sector) :
    v.device.log2blksz ≤ v.log2BlockSize := by
  by_contra hlt
  have hnarrow := v.device.narrow
  have hamount : (unsigned 32 ((v.log2BlockSize : Int) - v.device.log2blksz) : Int) =
      v.log2BlockSize - v.device.log2blksz + 2 ^ 32 := unsigned_of_neg (by omega) (by omega)
  unfold toSectors at h
  rw [if_neg (by omega)] at h
  cases h

theorem divide_eq {m n : Nat} (h : 0 < n) : divide m n = .ok (m / n) := by
  unfold divide
  rw [if_neg (by omega)]

theorem divide_ok {m n q : Nat} (h : divide m n = .ok q) : 0 < n ∧ q = m / n := by
  unfold divide at h
  split at h
  · cases h
  · cases h
    exact ⟨by omega,rfl⟩

theorem descPerBlk_eq (h : SoundDescriptors v) :
    descPerBlk v ((2 ^ v.log2BlockSize : Nat) : Int) = .ok (2 ^ v.log2BlockSize / v.gdsize) := by
  have hpow := blocksize_le h.representable
  have hdiv := Nat.div_le_self (2 ^ v.log2BlockSize) v.gdsize
  unfold descPerBlk
  rw [if_neg (by have := h.nonempty; omega),← Int.ofNat_tdiv,unsigned_natCast (by omega)]

theorem groupAddress_eq (h : SoundDescriptors v) (group : Int) : ∃ sector, groupAddress v group =
      .ok ⟨sector,unsigned 32 group % (2 ^ v.log2BlockSize / v.gdsize) * v.gdsize⟩ := by
  have hpow := blocksize_le h.representable
  have hpos : 0 < 2 ^ v.log2BlockSize / v.gdsize := Nat.div_pos h.fits h.nonempty
  have hoff : unsigned 32 group % (2 ^ v.log2BlockSize / v.gdsize) * v.gdsize < 2 ^ 32 := by
    have hlt := Nat.mul_lt_mul_of_pos_right (Nat.mod_lt (unsigned 32 group) hpos) h.nonempty
    have hle := Nat.div_mul_le_self (2 ^ v.log2BlockSize) v.gdsize
    omega
  obtain ⟨sector,hsector⟩ := toSectors_runs h.representable h.sectorFits
    ((v.firstDataBlock + 1 + unsigned 32 group / (2 ^ v.log2BlockSize / v.gdsize)) % 2 ^ 32)
  refine ⟨sector,?_⟩
  unfold groupAddress
  rw [ext2BlockSize_eq h.representable,bind_ok,descPerBlk_eq h,bind_ok,divide_eq hpos,bind_ok,
    hsector,bind_ok,Nat.mod_eq_of_lt hoff]

theorem soundDescriptors_of_groupAddress (h : groupAddress v group = .ok a)
    (hin : Inside v a v.gdsize) : SoundDescriptors v := by
  obtain ⟨blocksize,hsize,h⟩ := bind_eq_ok h
  obtain ⟨perBlk,hdesc,h⟩ := bind_eq_ok h
  obtain ⟨quotient,hquotient,h⟩ := bind_eq_ok h
  obtain ⟨sector,hsector,h⟩ := bind_eq_ok h
  have hbound := hin blocksize hsize
  have hlog : v.log2BlockSize ≤ 30 := by
    rcases ext2BlockSize_cases hsize with hlog | ⟨_,hneg⟩
    · exact hlog
    · omega
  unfold descPerBlk at hdesc
  split at hdesc
  · cases hdesc
  rename_i hzero
  refine ⟨hlog,sectorFits_of_toSectors hsector,by omega,?_⟩
  rw [ext2BlockSize_eq hlog] at hsize
  cases hsize
  exact_mod_cast (show (v.gdsize : Int) ≤ ((2 ^ v.log2BlockSize : Nat) : Int) by omega)

theorem groupAddress_inside (h : SoundDescriptors v) (ha : groupAddress v group = .ok a) :
    Inside v a v.gdsize := by
  have hpos : 0 < 2 ^ v.log2BlockSize / v.gdsize := Nat.div_pos h.fits h.nonempty
  obtain ⟨sector,heq⟩ := groupAddress_eq h group
  rw [heq] at ha
  cases ha
  intro blocksize hsize
  rw [ext2BlockSize_eq h.representable] at hsize
  cases hsize
  have hlt := Nat.mod_lt (unsigned 32 group) hpos
  have hle := Nat.div_mul_le_self (2 ^ v.log2BlockSize) v.gdsize
  have hmul := Nat.mul_le_mul_right v.gdsize (Nat.succ_le_of_lt hlt)
  rw [Nat.succ_mul] at hmul
  exact_mod_cast hmul.trans hle

theorem safeBlockgroup_iff (v : Volume) (group : Int) :
    SafeBlockgroup v group ↔ SoundDescriptors v := by
  constructor
  · rintro ⟨⟨r,hr⟩,hcopies⟩
    obtain ⟨a,ha,_⟩ := bind_eq_ok hr
    exact soundDescriptors_of_groupAddress ha (hcopies a ha)
  intro h
  obtain ⟨sector,heq⟩ := groupAddress_eq h group
  refine ⟨?_,fun a ha => groupAddress_inside h ha⟩
  unfold ext4fsBlockgroup
  rw [heq,bind_ok]
  exact fsDevread_runs _ _ _ (by omega)

theorem inodesPerBlock_eq (hlog : v.log2BlockSize ≤ 30) :
    signed 32 ((2 ^ v.log2BlockSize / v.inodesz : Nat) : Int) =
      ((2 ^ v.log2BlockSize / v.inodesz : Nat) : Int) := by
  have hpow := blocksize_le hlog
  have hdiv := Nat.div_le_self (2 ^ v.log2BlockSize) v.inodesz
  exact signed_natCast (by omega)

theorem inodeAddress_cases {blkgrp : Buffer} (hlog : v.log2BlockSize ≤ 30)
    (h : inodeAddress v blkgrp ino = .ok a) : 0 < v.inodesz ∧ v.inodesz ≤ 2 ^ v.log2BlockSize ∧
      a.blkoff =
        unsigned 32 (ino.tmod ((2 ^ v.log2BlockSize / v.inodesz : Nat) : Int) * v.inodesz) := by
  have hpow := blocksize_le hlog
  unfold inodeAddress at h
  rw [ext2BlockSize_eq hlog,bind_ok,unsigned_natCast (by omega)] at h
  obtain ⟨quotient,hquotient,h⟩ := bind_eq_ok h
  obtain ⟨index,hindex,h⟩ := bind_eq_ok h
  obtain ⟨sector,_,h⟩ := bind_eq_ok h
  obtain ⟨hpos,rfl⟩ := divide_ok hquotient
  cases h
  have hdiv := Nat.div_le_self (2 ^ v.log2BlockSize) v.inodesz
  rw [inodesPerBlock_eq hlog,unsigned_natCast (by omega)] at hindex
  have hfits := Nat.div_pos_iff.mp (divide_ok hindex).1
  rw [inodesPerBlock_eq hlog]
  exact ⟨hpos,hfits.2,rfl⟩

theorem inodeAddress_runs (hd : SoundDescriptors v) (hpos : 0 < v.inodesz)
    (hfits : v.inodesz ≤ 2 ^ v.log2BlockSize) (blkgrp : Buffer) (ino : Int) :
    ∃ a, inodeAddress v blkgrp ino = .ok a := by
  have hpow := blocksize_le hd.representable
  have hdiv := Nat.div_le_self (2 ^ v.log2BlockSize) v.inodesz
  obtain ⟨sector,hsector⟩ := toSectors_runs hd.representable hd.sectorFits
    ((ext4fsBgGetInodeTableId v blkgrp + unsigned 32 ino % v.inodesPerGroup /
      (2 ^ v.log2BlockSize / v.inodesz)) % 2 ^ 64)
  unfold inodeAddress
  rw [ext2BlockSize_eq hd.representable,bind_ok,unsigned_natCast (by omega),divide_eq hpos,
    bind_ok,inodesPerBlock_eq hd.representable]
  dsimp only
  rw [unsigned_natCast (by omega),divide_eq (Nat.div_pos hfits hpos),bind_ok,hsector,bind_ok]
  exact ⟨_,rfl⟩

theorem inside_iff {blkgrp : Buffer} (hlog : v.log2BlockSize ≤ 30)
    (h : inodeAddress v blkgrp ino = .ok a) : Inside v a sizeofInode ↔ SoundInode v ino := by
  obtain ⟨hpos,hfits,hoff⟩ := inodeAddress_cases hlog h
  have hpow := blocksize_le hlog
  have hperBlock : 0 < 2 ^ v.log2BlockSize / v.inodesz := Nat.div_pos hfits hpos
  generalize hr : ino.tmod ((2 ^ v.log2BlockSize / v.inodesz : Nat) : Int) = r at hoff
  have hsize : Inside v a sizeofInode ↔
      (a.blkoff : Int) + sizeofInode ≤ ((2 ^ v.log2BlockSize : Nat) : Int) := by
    unfold Inside
    rw [ext2BlockSize_eq hlog]
    exact ⟨fun h => h _ rfl,fun h _ he => by cases he; exact h⟩
  have hbound : r.natAbs * v.inodesz ≤ 2 ^ v.log2BlockSize := by
    have hlt : r.natAbs ≤ 2 ^ v.log2BlockSize / v.inodesz := by
      rw [← hr,Int.natAbs_tmod,Int.natAbs_natCast]
      exact (Nat.mod_lt _ hperBlock).le
    exact (Nat.mul_le_mul_right _ hlt).trans (Nat.div_mul_le_self _ _)
  have hcast : ((r.natAbs * v.inodesz : Nat) : Int) = r.natAbs * v.inodesz := Int.natCast_mul _ _
  rw [hsize,hoff]
  rcases Int.lt_or_le r 0 with hneg | hnonneg
  · have hproduct : r * v.inodesz = -((r.natAbs * v.inodesz : Nat) : Int) := by
      rw [hcast,Int.ofNat_natAbs_of_nonpos hneg.le,Int.neg_mul,Int.neg_neg]
    have hstrict : 0 < r.natAbs * v.inodesz := Nat.mul_pos (by omega) hpos
    have hwrap : (unsigned 32 (r * v.inodesz) : Int) = r * v.inodesz + 2 ^ 32 :=
      unsigned_of_neg (by omega) (by omega)
    constructor
    · intro hin
      omega
    · rintro ⟨_,_,hpositive,_⟩
      omega
  have hproduct : r * v.inodesz = ((r.natAbs * v.inodesz : Nat) : Int) := by
    rw [hcast,Int.natAbs_of_nonneg hnonneg]
  have hsame : (unsigned 32 (r * v.inodesz) : Int) = r * v.inodesz :=
    unsigned_of_nonneg (by omega) (by omega)
  constructor
  · intro hin
    refine ⟨hpos,hfits,by rwa [hr],?_⟩
    rw [hr]
    push_cast at hin
    omega
  rintro ⟨_,_,_,hinside⟩
  rw [hr] at hinside
  push_cast
  omega

theorem safeReadInode_iff (v : Volume) (ino : Int) : SafeReadInode v ino ↔ SoundLookup v ino := by
  constructor
  · rintro ⟨⟨r,hr⟩,hdescriptor,hcopies⟩
    obtain ⟨group,hgroup,hr⟩ := bind_eq_ok hr
    obtain ⟨found,hfound,hr⟩ := bind_eq_ok hr
    obtain ⟨a,ha,_⟩ := bind_eq_ok hfound
    have hd := soundDescriptors_of_groupAddress ha (hdescriptor group hgroup a ha)
    obtain ⟨_,hquotient,_⟩ := bind_eq_ok hgroup
    refine ⟨(divide_ok hquotient).1.ne',hd,?_⟩
    intro group' blkgrp hgroup' hblkgrp
    rw [hgroup] at hgroup'
    cases hgroup'
    rw [hfound] at hblkgrp
    cases hblkgrp
    obtain ⟨a',ha',_⟩ := bind_eq_ok hr
    exact (inside_iff hd.representable ha').mp (hcopies group blkgrp hgroup hfound a' ha')
  rintro ⟨hgrouped,hd,hinode⟩
  have hquotient := divide_eq (m := unsigned 32 (signed 32 (ino - 1)))
    (Nat.pos_of_ne_zero hgrouped)
  obtain ⟨group,hgroup⟩ : ∃ group, groupOf v ino = .ok group := by
    unfold groupOf
    rw [hquotient,bind_ok]
    exact ⟨_,rfl⟩
  obtain ⟨found,hfound⟩ := ((safeBlockgroup_iff v group).mpr hd).runs
  refine ⟨?_,fun group' _ a ha => groupAddress_inside hd ha,?_⟩
  · unfold ext4fsReadInode
    rw [hgroup,bind_ok,hfound,bind_ok]
    cases found with
    | none => exact ⟨_,rfl⟩
    | some blkgrp =>
      have hs := hinode group blkgrp hgroup hfound
      obtain ⟨a,ha⟩ := inodeAddress_runs hd hs.nonempty hs.fits blkgrp (signed 32 (ino - 1))
      dsimp only
      rw [ha,bind_ok]
      exact fsDevread_runs _ _ _ (by decide)
  · intro group' blkgrp hgroup' hblkgrp a ha
    exact (inside_iff hd.representable ha).mpr (hinode group' blkgrp hgroup' hblkgrp)

end

theorem ext4fsMount_runs {d : Device} (h : ∀ sblock, ext4ReadSuperblock d = .ok (some sblock) →
    sblock.le16 56 = 0xEF53 → SafeReadInode (openVolume d sblock) 2) :
    ∃ r, ext4fsMount d = .ok r := by
  obtain ⟨found,hfound⟩ : ∃ r, ext4ReadSuperblock d = .ok r := fsDevread_runs _ _ _ (by decide)
  unfold ext4fsMount
  rw [hfound,bind_ok]
  cases found with
  | none => exact ⟨_,rfl⟩
  | some sblock =>
    dsimp only
    split
    · exact ⟨_,rfl⟩
    rename_i hmagic
    obtain ⟨r,hr⟩ := (h sblock hfound (not_not.mp hmagic)).runs
    rw [hr,bind_ok]
    cases r with
    | none | some inode => exact ⟨_,rfl⟩

theorem lookups_safe_iff (d : Device) (ino group : Int) :
    SafeLookups d ino group ↔ SoundMount d ino := by
  constructor
  · intro h
    exact ⟨fun sblock hs hm => (safeReadInode_iff _ _).mp (h.root sblock hs hm),
      fun v hv => (safeReadInode_iff _ _).mp (h.inode v hv)⟩
  intro h
  have hroot := fun sblock hs hm => (safeReadInode_iff _ _).mpr (h.root sblock hs hm)
  exact ⟨ext4fsMount_runs hroot,hroot,fun v hv => (safeReadInode_iff _ _).mpr (h.mounted v hv),
    fun v hv => (safeBlockgroup_iff _ _).mpr (h.mounted v hv).descriptors⟩

def noInodesPerGroup : Device :=
  ⟨9,8,fun k => if k = 1080 then 0x53 else if k = 1081 then 0xEF else 0,sector_wide,
    sector_narrow⟩

theorem mount_divides_by_zero :
    ext4fsMount noInodesPerGroup = .error .divideByZero ∧
      ∀ ino group, ¬SafeLookups noInodesPerGroup ino group := by
  have hfault : ext4fsMount noInodesPerGroup = .error .divideByZero :=
    eq_error_of_failure (by decide +kernel)
  refine ⟨hfault,?_⟩
  rintro ino group ⟨⟨r,hr⟩,_,_,_⟩
  cases hr

end FuzzingTargets.UBoot.Ext4
