import FuzzingTargets.UBoot.Ext4.Mount
import Mathlib.Data.Nat.Find

namespace FuzzingTargets.UBoot.Ext4
open Checked Memory

namespace Volume

def blocksize (v : Volume) : Nat := 2 ^ v.log2BlockSize

def perBlock (v : Volume) : Nat := v.blocksize / 4

def sectorShift (v : Volume) : Nat := v.log2BlockSize - v.device.log2blksz

def toSector (v : Volume) (block : Nat) : Nat := block * 2 ^ v.sectorShift % 2 ^ 64

def readSectors (v : Volume) (sector : Nat) : Option Buffer :=
  match fsDevread v.device sector 0 v.blocksize with
  | .ok found => found
  | .error _ => none

end Volume

abbrev Stray := Nat → Buffer

def behind (content : Buffer) (size : Nat) (stray : Buffer) : Buffer :=
  fun k => if k < size then content k else stray k

abbrev ExtCache := Option (Nat × Buffer)

def extCacheRead (v : Volume) (cache : ExtCache) (sector : Nat) : Option Buffer :=
  match cache with
  | some (block,content) => if block = sector then some content else v.readSectors sector
  | none => v.readSectors sector

def indexScan (block : Buffer) (fileblock : Nat) : Nat → Nat → Nat
  | 0, i => i
  | n + 1, i =>
    if block.le32 (12 + 12 * i) ≤ fileblock then indexScan block fileblock n (i + 1) else i

def indexChild (block : Buffer) (fileblock : Nat) : Nat :=
  let i := indexScan block fileblock (block.le16 2) 0 - 1
  block.le16 (12 + 12 * i + 8) * 2 ^ 32 + block.le32 (12 + 12 * i + 4)

def ext4fsGetExtentBlock (v : Volume) (stray : Stray) (fileblock : Nat) :
    Nat → ExtCache → Buffer → Option (Option (Buffer × ExtCache))
  | 0, _, _ => none
  | fuel + 1, cache, block =>
    if block.le16 0 ≠ 0xf30a then some none
    else if block.le16 6 = 0 then some (some (block,cache))
    else
      let sector := v.toSector (indexChild block fileblock)
      match extCacheRead v cache sector with
      | none => some none
      | some content =>
        ext4fsGetExtentBlock v stray fileblock fuel (some (sector,content))
          (behind content v.blocksize (stray sector))

def leafScan (block : Buffer) (fileblock : Nat) : Nat → Nat → Nat
  | 0, _ => 0
  | n + 1, i =>
    let startblock := block.le32 (12 + 12 * i)
    if fileblock < startblock then 0
    else if fileblock < startblock + block.le16 (12 + 12 * i + 4) then
      fileblock - startblock +
        (block.le16 (12 + 12 * i + 6) * 2 ^ 32 + block.le32 (12 + 12 * i + 8))
    else leafScan block fileblock n (i + 1)

structure Indirect where
  size : Nat
  blkno : Nat
  content : Buffer

def Indirect.fresh (v : Volume) : Indirect := ⟨v.blocksize,2 ^ 32 - 1,fun _ => 0⟩

def Indirect.prepare (v : Volume) : Option Indirect → Indirect
  | none => .fresh v
  | some block => if v.blocksize = block.size then block else .fresh v

def Volume.blkno (v : Volume) (pointer : Nat) : Nat := pointer * 2 ^ v.sectorShift % 2 ^ 32

def loadIndirect (v : Volume) (slot : Option Indirect) (compared pointer : Nat) :
    Indirect × Bool :=
  let block := Indirect.prepare v slot
  if v.blkno compared = block.blkno then (block,true)
  else
    match v.readSectors (v.toSector pointer) with
    | none => (block,false)
    | some content => (⟨block.size,v.blkno pointer,content⟩,true)

def Indirect.word (block : Indirect) (i : Nat) : Nat := block.content.le32 (4 * i)

structure Caches where
  indir1 : Option Indirect
  indir2 : Option Indirect
  indir3 : Option Indirect
  extent : ExtCache

def indirectBlock (v : Volume) (c : Caches) (inode : Buffer) (rblock : Nat) : Int × Caches :=
  let (one,read) := loadIndirect v c.indir1 (inode.le32 88) (inode.le32 88)
  let c := { c with indir1 := some one }
  if read then (one.word rblock,c) else (-1,c)

def doubleIndirectBlock (v : Volume) (c : Caches) (inode : Buffer) (rblock : Nat) :
    Int × Caches :=
  let (one,read) := loadIndirect v c.indir1 (inode.le32 92) (inode.le32 92)
  let c := { c with indir1 := some one }
  if read then
    let pointer := one.word (rblock / v.perBlock)
    let (two,read) := loadIndirect v c.indir2 pointer pointer
    let c := { c with indir2 := some two }
    if read then (two.word (rblock % v.perBlock),c) else (-1,c)
  else (-1,c)

def tripleIndirectBlock (v : Volume) (stray : Stray) (c : Caches) (inode : Buffer)
    (rblock : Nat) : Int × Caches :=
  let (one,read) := loadIndirect v c.indir1 (inode.le32 96) (inode.le32 96)
  let c := { c with indir1 := some one }
  if read then
    let parent := one.word (rblock / (v.perBlock * v.perBlock))
    let (two,read) := loadIndirect v c.indir2 parent parent
    let c := { c with indir2 := some two }
    if read then
      let unreduced := behind two.content v.blocksize (stray two.blkno)
      let (three,read) := loadIndirect v c.indir3 (unreduced.le32 (4 * (rblock / v.perBlock)))
        (two.word (rblock / v.perBlock % v.perBlock))
      let c := { c with indir3 := some three }
      if read then (three.word (rblock % v.perBlock),c) else (-1,c)
    else (-1,c)
  else (-1,c)

def usesExtents (inode : Buffer) : Bool := inode.le32 32 / 0x80000 % 2 = 1

def inodeBlocks (inode : Buffer) (stray : Stray) : Buffer :=
  behind (fun k => inode (40 + k)) (sizeofInode - 40) (stray 0)

def readAllocatedBlock (v : Volume) (stray : Stray) (fuel : Nat) (c : Caches) (inode : Buffer)
    (fileblock : Nat) : Option (Int × Caches) :=
  if usesExtents inode then
    match ext4fsGetExtentBlock v stray fileblock fuel c.extent (inodeBlocks inode stray) with
    | none => none
    | some none => some (-22,c)
    | some (some (block,cache)) =>
      some (leafScan block fileblock (block.le16 2) 0,{ c with extent := cache })
  else if fileblock < 12 then some (inode.le32 (40 + 4 * fileblock),c)
  else if fileblock < 12 + v.perBlock then some (indirectBlock v c inode (fileblock - 12))
  else if fileblock < 12 + v.perBlock * (v.perBlock + 1) then
    some (doubleIndirectBlock v c inode (fileblock - (12 + v.perBlock)))
  else
    some (tripleIndirectBlock v stray c inode
      (fileblock - (12 + v.perBlock + v.perBlock * v.perBlock)))

inductive Stop where
  | running
  | fault (cause : Fault)
  deriving DecidableEq

structure Store where
  offset : Int
  size : Nat
  bytes : Buffer

def Store.put (s : Store) (b : Buffer) : Buffer :=
  fun k => if s.offset ≤ k ∧ (k : Int) < s.offset + s.size then s.bytes (k - s.offset).toNat else b k

def filled (stores : List Store) (b : Buffer) : Buffer := stores.foldl (fun b s => s.put b) b

structure Delayed where
  start : Nat
  skipfirst : Int
  extent : Int
  buf : Int
  next : Nat

structure Progress where
  delayed : Option Delayed
  buf : Int
  stores : List Store

def spill (d : Device) (run : Delayed) : Except Stop (Option Store) :=
  match fsDevread d run.start run.skipfirst (signed 32 run.extent) with
  | .error cause => .error (.fault cause)
  | .ok none => .ok none
  | .ok (some bytes) => .ok (some ⟨run.buf,unsigned 32 run.extent,bytes⟩)

def spillPending (d : Device) (s : Progress) : Except Stop (Option Progress) :=
  match s.delayed with
  | none => .ok (some s)
  | some run => do
    match ← spill d run with
    | none => .ok none
    | some store => .ok (some { s with delayed := none, stores := s.stores ++ [store] })

structure Request where
  pos : Int
  len : Int
  blockcnt : Nat

section

variable (v : Volume) (r : Request) (i : Nat)

def isFirst : Bool := (i : Int) = r.pos / v.blocksize

def skipfirst : Int := if isFirst v r i then signed 32 (r.pos - v.blocksize * i) else 0

def blockend : Int :=
  let whole : Int :=
    if i + 1 = r.blockcnt then
      let last := signed 32 (r.len + r.pos - v.blocksize * i)
      if last = 0 then v.blocksize else last
    else v.blocksize
  whole - skipfirst v r i

def openRun (sector : Nat) (buf : Int) : Delayed :=
  ⟨sector,skipfirst v r i,blockend v r i,buf,
    unsigned 64 (sector + blockend v r i / v.device.blksz)⟩

def extendRun (run : Delayed) : Delayed :=
  { run with
    extent := run.extent + blockend v r i
    next := unsigned 64 (run.next + blockend v r i / v.device.blksz) }

def allocatedStep (sector : Nat) (s : Progress) : Except Stop (Option Progress) :=
  match s.delayed with
  | none => .ok (some { s with delayed := some (openRun v r i sector s.buf) })
  | some run =>
    if run.next = sector then .ok (some { s with delayed := some (extendRun v r i run) })
    else do
      match ← spillPending v.device s with
      | none => .ok none
      | some s => .ok (some { s with delayed := some (openRun v r i sector s.buf) })

def holeStep (s : Progress) : Except Stop (Option Progress) := do
  match ← spillPending v.device s with
  | none => .ok none
  | some s =>
    let rest := (v.blocksize : Int) - skipfirst v r i
    let n := if r.len < rest then signed 32 r.len else rest
    if n < 0 then .error (.fault .negativeCopy)
    else .ok (some { s with stores := s.stores ++ [⟨s.buf,n.toNat,fun _ => 0⟩] })

def blockStep (sector : Nat) (s : Progress) : Except Stop (Option Progress) :=
  if sector = 0 then holeStep v r i s else allocatedStep v r i sector s

def readStep (blknr : Nat) (s : Progress) : Except Stop (Option Progress) := do
  match ← blockStep v r i (v.toSector blknr) s with
  | none => .ok none
  | some s => .ok (some { s with buf := s.buf + (v.blocksize - skipfirst v r i) })

end

def readLoop (v : Volume) (stray : Stray) (fuel : Nat) (inode : Buffer) (r : Request) :
    Nat → Nat → Caches → Progress → Except Stop (Option Progress × Caches)
  | 0, _, c, s => .ok (some s,c)
  | n + 1, i, c, s =>
    match readAllocatedBlock v stray fuel c inode i with
    | none => .error .running
    | some (blknr,c) =>
      if blknr < 0 then .ok (none,c)
      else do
        match ← readStep v r i blknr.toNat s with
        | none => .ok (none,c)
        | some s => readLoop v stray fuel inode r n (i + 1) c s

def request (v : Volume) (inode : Buffer) (pos len : Int) : Request :=
  let filesize := inode.le32 4
  let len := if (filesize : Int) < signed 64 (len + pos) then filesize - pos else len
  ⟨pos,len,unsigned 64 (signed 64 (len + pos) + v.blocksize - 1) / v.blocksize⟩

def firstBlock (v : Volume) (pos : Int) : Int := signed 32 (pos / v.blocksize)

def blockCount (v : Volume) (r : Request) : Nat :=
  if firstBlock v r.pos < 0 then 0 else min r.blockcnt (2 ^ 31) - (firstBlock v r.pos).toNat

def ext4fsReadFile (v : Volume) (stray : Stray) (fuel : Nat) (c : Caches) (inode : Buffer)
    (pos len : Int) : Except Stop (Option (Int × List Store) × Caches) := do
  if 31 ≤ v.log2BlockSize then .ok (none,c)
  else
    let r := request v inode pos len
    match ← readLoop v stray fuel inode r (blockCount v r) (firstBlock v pos).toNat
        { c with extent := none } ⟨none,0,[]⟩ with
    | (none,c) => .ok (none,c)
    | (some s,c) =>
      match ← spillPending v.device s with
      | none => .ok (none,c)
      | some s => .ok (some (r.len,s.stores),c)

def Device.size (d : Device) : Nat := d.sectors * d.blksz

variable (v : Volume) (inode : Buffer)

def Volume.blockAt (block : Nat) : Option Buffer :=
  if (block + 1) * v.blocksize ≤ v.device.size then
    some fun k => v.device.data (block * v.blocksize + k)
  else none

def treeBlock (v : Volume) : Nat → Nat → Nat → Option Nat
  | 0, pointer, _ => some pointer
  | height + 1, pointer, i =>
    if pointer = 0 then some 0
    else
      match v.blockAt pointer with
      | none => none
      | some table =>
        treeBlock v height (table.le32 (4 * (i / v.perBlock ^ height))) (i % v.perBlock ^ height)

def pointerBlock (i : Nat) : Option Nat :=
  let p := v.perBlock
  if i < 12 then some (inode.le32 (40 + 4 * i))
  else if i < 12 + p then treeBlock v 1 (inode.le32 88) (i - 12)
  else if i < 12 + p + p ^ 2 then treeBlock v 2 (inode.le32 92) (i - (12 + p))
  else treeBlock v 3 (inode.le32 96) (i - (12 + p + p ^ 2))

namespace Extent

variable (block : Buffer) (j i : Nat)

def entries : Nat := block.le16 2

def first : Nat := block.le32 (12 + 12 * j)

def rawLength : Nat := block.le16 (12 + 12 * j + 4)

def unwritten : Bool := 32768 < rawLength block j

def length : Nat := if unwritten block j then rawLength block j - 32768 else rawLength block j

def start : Nat := block.le16 (12 + 12 * j + 6) * 2 ^ 32 + block.le32 (12 + 12 * j + 8)

def covers : Bool := first block j ≤ i ∧ i < first block j + length block j

def placed : Nat := if unwritten block j then 0 else i - first block j + start block j

def child : Nat := block.le16 (12 + 12 * j + 8) * 2 ^ 32 + block.le32 (12 + 12 * j + 4)

def indexOf (i : Nat) : Nat := Nat.findGreatest (fun j => first block j ≤ i) (entries block - 1)

end Extent

def leafBlock (block : Buffer) (i : Nat) : Nat :=
  ((List.range (Extent.entries block)).find? (Extent.covers block · i)).elim 0
    (Extent.placed block · i)

def Extent.headed (height size : Nat) (block : Buffer) : Bool :=
  block.le16 0 = 0xf30a ∧ block.le16 6 = height ∧ 12 + 12 * entries block ≤ size

def extentBlock (v : Volume) : Nat → Nat → Buffer → Nat → Option Nat
  | 0, size, block, i => if Extent.headed 0 size block then some (leafBlock block i) else none
  | height + 1, size, block, i =>
    if Extent.headed (height + 1) size block then
      if Extent.entries block = 0 ∨ i < Extent.first block 0 then some 0
      else (v.blockAt (Extent.child block (Extent.indexOf block i))).bind fun content =>
        extentBlock v height v.blocksize content i
    else none

def formatBlock (i : Nat) : Option Nat :=
  if usesExtents inode then extentBlock v (inode.le16 46) 60 (fun k => inode (40 + k)) i
  else pointerBlock v inode i

def fileByte (x : Nat) : Option UInt8 :=
  (formatBlock v inode (x / v.blocksize)).bind fun block =>
    if block = 0 then some 0
    else if block * v.blocksize + x % v.blocksize < v.device.size then
      some (v.device.data (block * v.blocksize + x % v.blocksize))
    else none

theorem blocksize_eq {v : Volume} (h : v.device.log2blksz ≤ v.log2BlockSize) :
    v.blocksize = 2 ^ v.sectorShift * v.device.blksz := by
  unfold Volume.blocksize Volume.sectorShift Device.blksz
  rw [← Nat.pow_add,Nat.sub_add_cancel h]

theorem blocksize_bounds {v : Volume} (hlog : v.log2BlockSize ≤ 30)
    (h : v.device.log2blksz ≤ v.log2BlockSize) : 512 ≤ v.blocksize ∧ v.blocksize ≤ 2 ^ 30 := by
  have hwide := v.device.wide
  have hlow : 2 ^ 9 ≤ v.blocksize := Nat.pow_le_pow_right (by decide) (by omega)
  exact ⟨hlow,Nat.pow_le_pow_right (by decide) hlog⟩

structure Addressed : Prop where
  representable : v.log2BlockSize ≤ 30
  sectorFits : v.device.log2blksz ≤ v.log2BlockSize
  addressable : v.device.sectors ≤ 2 ^ 64

structure Usable : Prop where
  representable : v.log2BlockSize ≤ 30
  sectorFits : v.device.log2blksz ≤ v.log2BlockSize
  addressable : v.device.sectors < 2 ^ 32

theorem Usable.addressed {v : Volume} (h : Usable v) : Addressed v :=
  ⟨h.representable,h.sectorFits,h.addressable.le.trans (by decide)⟩

def Volume.Inside (block : Nat) : Prop := (block + 1) * v.blocksize ≤ v.device.size

def denseTree (v : Volume) : Nat → Nat → Nat → Option Nat
  | 0, pointer, _ => some pointer
  | height + 1, pointer, i =>
    if pointer = 0 then none
    else
      match v.blockAt pointer with
      | none => none
      | some table =>
        denseTree v height (table.le32 (4 * (i / v.perBlock ^ height))) (i % v.perBlock ^ height)

def denseBlock (i : Nat) : Option Nat :=
  let p := v.perBlock
  if i < 12 then some (inode.le32 (40 + 4 * i))
  else if i < 12 + p then denseTree v 1 (inode.le32 88) (i - 12)
  else if i < 12 + p + p ^ 2 then denseTree v 2 (inode.le32 92) (i - (12 + p))
  else if i < 12 + p + 2 * p ^ 2 then denseTree v 3 (inode.le32 96) (i - (12 + p + p ^ 2))
  else none

def Holds (block : Nat) (content : Buffer) : Prop :=
  ∀ k < v.blocksize, content k = v.device.data (block * v.blocksize + k)

def ValidSlot (slot : Option Indirect) : Prop :=
  ∀ s, slot = some s → s.size = v.blocksize → s.blkno ≠ 2 ^ 32 - 1 →
    ∃ block, s.blkno = block * 2 ^ v.sectorShift ∧ Holds v block s.content

structure ValidCaches (c : Caches) : Prop where
  indir1 : ValidSlot v c.indir1
  indir2 : ValidSlot v c.indir2
  indir3 : ValidSlot v c.indir3

section

variable {v : Volume} {block : Nat}

theorem denseTree_format {height : Nat} : ∀ {pointer i b : Nat},
    denseTree v height pointer i = some b → treeBlock v height pointer i = some b := by
  induction height with
  | zero => exact fun h => h
  | succ height ih =>
    intro pointer i b h
    unfold denseTree at h
    unfold treeBlock
    split at h
    · cases h
    rename_i hpointer
    rw [if_neg hpointer]
    cases htable : v.blockAt pointer with
    | none =>
      rw [htable] at h
      cases h
    | some table =>
      rw [htable] at h
      exact ih h

theorem denseBlock_format {inode : Buffer} {i b : Nat} (h : denseBlock v inode i = some b) :
    pointerBlock v inode i = some b := by
  unfold denseBlock at h
  unfold pointerBlock
  dsimp only at h ⊢
  split_ifs at h ⊢
  · exact h
  · exact denseTree_format h
  · exact denseTree_format h
  · exact denseTree_format h

section

variable (h : Addressed v) {k : Nat} (hin : block * v.blocksize + k < v.device.size)
include h hin

theorem sector_lt : block * 2 ^ v.sectorShift + k / v.device.blksz < v.device.sectors := by
  have hsplit := Nat.div_mul_le_self k v.device.blksz
  unfold Device.size at hin
  rw [blocksize_eq h.sectorFits,← Nat.mul_assoc] at hin
  refine Nat.lt_of_mul_lt_mul_right (a := v.device.blksz) ?_
  rw [Nat.add_mul]
  omega

theorem toSector_eq : v.toSector block = block * 2 ^ v.sectorShift :=
  Nat.mod_eq_of_lt ((Nat.le_add_right _ _).trans_lt ((sector_lt h hin).trans_le h.addressable))

theorem byte_inside :
    v.device.byte (v.toSector block) k = v.device.data (block * v.blocksize + k) := by
  have hlt := sector_lt h hin
  have haddr := h.addressable
  have hsplit := Nat.div_add_mod' k v.device.blksz
  rw [toSector_eq h hin]
  unfold Device.byte
  rw [Nat.mod_eq_of_lt (by omega),Nat.add_mul,blocksize_eq h.sectorFits,Nat.mul_assoc,
    Nat.add_assoc,hsplit]

end

theorem inside_byte (hin : v.Inside block) {k : Nat} (hk : k < v.blocksize) :
    block * v.blocksize + k < v.device.size := by
  unfold Volume.Inside at hin
  rw [Nat.succ_mul] at hin
  omega

theorem readSectors_inside (h : Addressed v) (hin : v.Inside block) :
    ∃ content, v.readSectors (v.toSector block) = some content ∧ Holds v block content := by
  have hbs := blocksize_bounds h.representable h.sectorFits
  have hlast := sector_lt h (inside_byte hin (show v.blocksize - 1 < v.blocksize by omega))
  have haddr := h.addressable
  have hcheck : ¬v.device.sectors ≤ unsigned 64 ((v.toSector block : Int) +
      signed 32 ((0 : Int) + v.blocksize - 1) / v.device.blksz) := by
    have hlen : (0 : Int) + v.blocksize - 1 = ((v.blocksize - 1 : Nat) : Int) := by omega
    rw [hlen,signed_natCast (by omega),← Int.natCast_ediv,← Int.natCast_add,unsigned_mod,
      toSector_eq h (inside_byte hin (show 0 < _ by omega)),Nat.mod_eq_of_lt (by omega)]
    omega
  have hread : ∃ content, fsDevread v.device (v.toSector block) ((0 : Nat) : Int)
      (signed 32 v.blocksize) = .ok (some content) := by
    rw [signed_natCast (by omega)]
    unfold fsDevread
    rw [if_neg (by exact_mod_cast hcheck)]
    exact ⟨_,rfl⟩
  obtain ⟨content,hcontent⟩ := hread
  have hbytes := fsDevread_bytes (by omega) hcontent
  rw [signed_natCast (by omega)] at hcontent
  refine ⟨content,?_,?_⟩
  · unfold Volume.readSectors
    rw [show (0 : Int) = ((0 : Nat) : Int) from rfl,hcontent]
  intro k hk
  rw [hbytes]
  unfold Device.bytes
  rw [if_pos hk,Nat.zero_add]
  exact byte_inside h (inside_byte hin hk)

theorem inside_sector (h : Addressed v) (hin : v.Inside block) :
    v.toSector block = block * 2 ^ v.sectorShift ∧ block * 2 ^ v.sectorShift < v.device.sectors := by
  have hbs := blocksize_bounds h.representable h.sectorFits
  have hbyte := inside_byte hin (show 0 < v.blocksize by omega)
  have hlt := sector_lt h hbyte
  rw [Nat.zero_div] at hlt
  exact ⟨toSector_eq h hbyte,hlt⟩

theorem blkno_eq (h : Usable v) (hin : v.Inside block) :
    v.blkno block = block * 2 ^ v.sectorShift ∧ v.blkno block < 2 ^ 32 - 1 := by
  have hlt := (inside_sector h.addressed hin).2
  have := h.addressable
  unfold Volume.blkno
  rw [Nat.mod_eq_of_lt (by omega)]
  exact ⟨rfl,by omega⟩

theorem word_eq {s : Indirect} {i : Nat} (hcontent : Holds v block s.content) (hi : i < v.perBlock) :
    s.word i = Buffer.le32 (fun k => v.device.data (block * v.blocksize + k)) (4 * i) := by
  have hlt : 4 * i + 3 < v.blocksize := by
    unfold Volume.perBlock at hi
    omega
  unfold Indirect.word Buffer.le32 Buffer.le16
  rw [hcontent _ (by omega),hcontent _ (by omega),hcontent _ (by omega),hcontent _ (by omega)]

theorem blockAt_eq_some {table : Buffer} (h : v.blockAt block = some table) :
    v.Inside block ∧ table = fun k => v.device.data (block * v.blocksize + k) := by
  unfold Volume.blockAt at h
  split at h
  · rename_i hin
    exact ⟨hin,(Option.some.inj h).symm⟩
  · cases h

section

variable {slot : Option Indirect} (hslot : ValidSlot v slot)
include hslot

theorem prepare_valid :
    (Indirect.prepare v slot).size = v.blocksize ∧ ValidSlot v (some (Indirect.prepare v slot)) := by
  have hfresh : ValidSlot v (some (Indirect.fresh v)) := by
    intro s hs _ hne
    cases hs
    exact absurd rfl hne
  unfold Indirect.prepare
  cases slot with
  | none => exact ⟨rfl,hfresh⟩
  | some s =>
    dsimp only
    split
    · rename_i hsize
      exact ⟨hsize.symm,hslot⟩
    · exact ⟨rfl,hfresh⟩

theorem loadIndirect_inside (h : Usable v) (hin : v.Inside block) :
    ∃ s, loadIndirect v slot block block = (s,true) ∧
      Holds v block s.content ∧ ValidSlot v (some s) := by
  obtain ⟨hkey,hlt⟩ := blkno_eq h hin
  obtain ⟨hsize,hvalid⟩ := prepare_valid hslot
  unfold loadIndirect
  dsimp only
  split
  · rename_i hsame
    refine ⟨_,rfl,?_,hvalid⟩
    obtain ⟨held,hheld,hcontent⟩ := hvalid _ rfl hsize (by omega)
    have heq : held = block := by
      rw [← hsame,hkey] at hheld
      exact (Nat.eq_of_mul_eq_mul_right (Nat.two_pow_pos _) hheld).symm
    rw [← heq]
    exact hcontent
  obtain ⟨content,hread,hcontent⟩ := readSectors_inside h.addressed hin
  rw [hread]
  refine ⟨_,rfl,hcontent,?_⟩
  intro s hs _ _
  cases hs
  exact ⟨block,hkey,hcontent⟩

theorem denseTree_load (h : Usable v) {height pointer i b : Nat}
    (hi : i / v.perBlock ^ height < v.perBlock)
    (hdense : denseTree v (height + 1) pointer i = some b) :
    ∃ s, loadIndirect v slot pointer pointer = (s,true) ∧ ValidSlot v (some s) ∧
      denseTree v height (s.word (i / v.perBlock ^ height)) (i % v.perBlock ^ height) = some b := by
  unfold denseTree at hdense
  split at hdense
  · cases hdense
  split at hdense
  · cases hdense
  rename_i table htable
  obtain ⟨hin,rfl⟩ := blockAt_eq_some htable
  obtain ⟨s,hload,hcontent,hvalid⟩ := loadIndirect_inside hslot h hin
  rw [← word_eq hcontent hi] at hdense
  exact ⟨s,hload,hvalid,hdense⟩

end

section

variable {a b : Buffer} {size o : Nat} (h : ∀ k < size, a k = b k)
include h

theorem le16_congr (ho : o + 1 < size) : a.le16 o = b.le16 o := by
  unfold Buffer.le16
  rw [h _ (by omega),h _ (by omega)]

theorem le32_congr (ho : o + 3 < size) : a.le32 o = b.le32 o := by
  unfold Buffer.le32
  rw [le16_congr h (by omega),le16_congr h (by omega)]

end

theorem behind_congr (content stray : Buffer) (size : Nat) :
    ∀ k < size, behind content size stray k = content k := fun _ hk => if_pos hk

section

variable {c : Caches} {inode : Buffer} {i b : Nat}

section

variable (hi : i < v.perBlock ^ 2)
include hi

theorem perBlock_pos : 0 < v.perBlock := Nat.pos_of_ne_zero fun hzero => by
  rw [hzero] at hi
  omega

theorem quotient_lt : i / v.perBlock < v.perBlock := by
  rw [Nat.div_lt_iff_lt_mul (perBlock_pos hi),← Nat.pow_two]
  exact hi

theorem remainder_lt : i % v.perBlock / v.perBlock ^ 0 < v.perBlock := by
  rw [Nat.pow_zero,Nat.div_one]
  exact Nat.mod_lt i (perBlock_pos hi)

end

variable (h : Usable v) (hc : ValidCaches v c)
include h hc

theorem indirectBlock_dense (hi : i < v.perBlock)
    (hdense : denseTree v 1 (inode.le32 88) i = some b) :
    ∃ c', indirectBlock v c inode i = ((b : Int),c') ∧ ValidCaches v c' := by
  obtain ⟨one,hone,hvalid,hleaf⟩ := denseTree_load hc.indir1 h (by simpa using hi) hdense
  rw [Nat.pow_zero,Nat.div_one] at hleaf
  unfold indirectBlock
  rw [hone]
  dsimp only
  rw [if_pos rfl,Option.some.inj hleaf]
  exact ⟨_,rfl,hvalid,hc.indir2,hc.indir3⟩

theorem doubleIndirectBlock_dense (hi : i < v.perBlock ^ 2)
    (hdense : denseTree v 2 (inode.le32 92) i = some b) :
    ∃ c', doubleIndirectBlock v c inode i = ((b : Int),c') ∧ ValidCaches v c' := by
  obtain ⟨one,hone,hvalid,hrest⟩ := denseTree_load hc.indir1 h
    (by rw [Nat.pow_one]; exact quotient_lt hi) hdense
  rw [Nat.pow_one] at hrest
  obtain ⟨two,htwo,hvalid',hleaf⟩ := denseTree_load hc.indir2 h (remainder_lt hi) hrest
  rw [Nat.pow_zero,Nat.div_one] at hleaf
  unfold doubleIndirectBlock
  rw [hone]
  dsimp only
  rw [if_pos rfl,htwo]
  rw [if_pos rfl,Option.some.inj hleaf]
  exact ⟨_,rfl,hvalid,hvalid',hc.indir3⟩

theorem tripleIndirectBlock_dense (stray : Stray) (hi : i < v.perBlock ^ 2)
    (hdense : denseTree v 3 (inode.le32 96) i = some b) :
    ∃ c', tripleIndirectBlock v stray c inode i = ((b : Int),c') ∧ ValidCaches v c' := by
  have hquot := quotient_lt hi
  have hinner : 4 * (i / v.perBlock) + 3 < v.blocksize := by
    have : v.perBlock * 4 ≤ v.blocksize := Nat.div_mul_le_self _ _
    omega
  obtain ⟨one,hone,hvalid,hrest⟩ := denseTree_load hc.indir1 h
    (by rw [Nat.div_eq_of_lt hi]; exact perBlock_pos hi) hdense
  rw [Nat.div_eq_of_lt hi,Nat.mod_eq_of_lt hi] at hrest
  obtain ⟨two,htwo,hvalid',hrest'⟩ := denseTree_load hc.indir2 h
    (by rwa [Nat.pow_one]) hrest
  rw [Nat.pow_one] at hrest'
  obtain ⟨three,hthree,hvalid'',hleaf⟩ := denseTree_load hc.indir3 h (remainder_lt hi) hrest'
  rw [Nat.pow_zero,Nat.div_one] at hleaf
  unfold tripleIndirectBlock
  rw [hone]
  dsimp only
  rw [if_pos rfl,← Nat.pow_two,Nat.div_eq_of_lt hi,htwo]
  rw [if_pos rfl,Nat.mod_eq_of_lt hquot,le32_congr (behind_congr _ _ _) hinner,← Indirect.word,hthree]
  rw [if_pos rfl,Option.some.inj hleaf]
  exact ⟨_,rfl,hvalid,hvalid',hvalid''⟩

theorem readAllocatedBlock_dense (stray : Stray) (fuel : Nat)
    (hplain : usesExtents inode = false) (hdense : denseBlock v inode i = some b) :
    ∃ c', readAllocatedBlock v stray fuel c inode i = some ((b : Int),c') ∧ ValidCaches v c' := by
  have hsquare : 12 + v.perBlock * (v.perBlock + 1) = 12 + v.perBlock + v.perBlock ^ 2 := by
    rw [Nat.mul_succ,Nat.pow_two]
    omega
  unfold denseBlock at hdense
  unfold readAllocatedBlock
  dsimp only at hdense
  rw [hplain,if_neg Bool.false_ne_true,hsquare,← Nat.pow_two]
  split_ifs at hdense ⊢ with hdirect hsingle hdouble htriple
  · rw [Option.some.inj hdense]
    exact ⟨c,rfl,hc⟩
  · obtain ⟨c',heq,hc'⟩ := indirectBlock_dense h hc (by omega) hdense
    exact ⟨c',congrArg some heq,hc'⟩
  · obtain ⟨c',heq,hc'⟩ := doubleIndirectBlock_dense h hc (by omega) hdense
    exact ⟨c',congrArg some heq,hc'⟩
  · obtain ⟨c',heq,hc'⟩ := tripleIndirectBlock_dense h hc stray (by omega) hdense
    exact ⟨c',congrArg some heq,hc'⟩

end

end

end FuzzingTargets.UBoot.Ext4
