import FuzzingTargets.UBoot.Gpt.ReadBounds

namespace FuzzingTargets.UBoot.Gpt
open LittleEndian Checked Memory Slices List

structure SameShape (dev dev' : Device) : Prop where
  blksz : dev'.blksz = dev.blksz
  lba : dev'.lba = dev.lba

structure Stored (dev dev' : Device) (start cnt : Nat) (buf : List UInt8) : Prop where
  shape : SameShape dev dev'
  here : blkDread dev' start cnt = some buf
  elsewhere : ∀ s c, s + c ≤ start ∨ start + cnt ≤ s → blkDread dev' s c = blkDread dev s c

theorem blkDwrite_stores {dev : Device} {start cnt : Nat} {buf : List UInt8}
    (hin : start + cnt ≤ dev.lba) (hlen : buf.length = cnt * dev.blksz) :
    ∃ dev', blkDwrite dev start cnt buf = .ok dev' ∧ Stored dev dev' start cnt buf := by
  have htake : buf.take (cnt * dev.blksz) = buf := take_of_length_le (by omega)
  refine ⟨_,if_pos hin,⟨rfl,rfl⟩,?_,?_⟩
  · rw [blkDread,if_pos hin,htake,← hlen]
    exact congrArg some Buffer.bytes_put
  intro s c hapart
  unfold blkDread
  split
  · have hblocks : s * dev.blksz + c * dev.blksz ≤ start * dev.blksz ∨
        start * dev.blksz + buf.length ≤ s * dev.blksz := by
      rw [hlen,← Nat.add_mul,← Nat.add_mul]
      exact hapart.imp (Nat.mul_le_mul_right _) (Nat.mul_le_mul_right _)
    rw [htake]
    exact congrArg some (Buffer.bytes_put_outside hblocks)
  · rfl

structure Header.Encodable (h : Header) : Prop where
  signature : h.signature < 256 ^ 8
  headerSize : h.headerSize < 256 ^ 4
  headerCrc32 : h.headerCrc32 < 256 ^ 4
  myLba : h.myLba < 256 ^ 8
  alternateLba : h.alternateLba < 256 ^ 8
  firstUsableLba : h.firstUsableLba < 256 ^ 8
  lastUsableLba : h.lastUsableLba < 256 ^ 8
  diskGuid : h.diskGuid.length = 16
  partitionEntryLba : h.partitionEntryLba < 256 ^ 8
  numPartitionEntries : h.numPartitionEntries < 256 ^ 4
  sizeofPartitionEntry : h.sizeofPartitionEntry < 256 ^ 4
  partitionEntryArrayCrc32 : h.partitionEntryArrayCrc32 < 256 ^ 4

structure Reads (buf : List UInt8) (h : Header) : Prop where
  signature : word buf 0 8 = h.signature
  headerSize : word buf 12 4 = h.headerSize
  headerCrc32 : word buf 16 4 = h.headerCrc32
  myLba : word buf 24 8 = h.myLba
  firstUsableLba : word buf 40 8 = h.firstUsableLba
  lastUsableLba : word buf 48 8 = h.lastUsableLba
  partitionEntryLba : word buf 72 8 = h.partitionEntryLba
  numPartitionEntries : word buf 80 4 = h.numPartitionEntries
  sizeofPartitionEntry : word buf 84 4 = h.sizeofPartitionEntry
  partitionEntryArrayCrc32 : word buf 88 4 = h.partitionEntryArrayCrc32

theorem word_skip {xs ys : List UInt8} {o n : Nat} (h : xs.length ≤ o) :
    word (xs ++ ys) o n = word ys (o - xs.length) n := congrArg ofLe (slice_skip h)

theorem word_le {n v : Nat} {ys : List UInt8} (h : v < 256 ^ n) : word (le n v ++ ys) 0 n = v := by
  rw [word,slice_head (le_length n v),ofLe_le_of_lt h]

section

variable {h : Header} {rest : List UInt8}

theorem Header.bytes_length (hguid : h.diskGuid.length = 16) : h.bytes.length = sizeofGptHeader := by
  simp only [Header.bytes,length_append,le_length,hguid,sizeofGptHeader]

theorem Header.bytes_reads (hh : h.Encodable) : Reads (h.bytes ++ rest) h := by
  have hguid := hh.diskGuid
  constructor
  case signature =>
    simp only [Header.bytes,append_assoc]
    exact word_le hh.signature
  all_goals
    simp only [Header.bytes,append_assoc]
    repeat rw [word_skip (by simp only [le_length,hguid]; decide)]
    simp only [le_length,hguid,Nat.reduceSub]
    rw [word_le]
  · exact hh.headerSize
  · exact hh.headerCrc32
  · exact hh.myLba
  · exact hh.firstUsableLba
  · exact hh.lastUsableLba
  · exact hh.partitionEntryLba
  · exact hh.numPartitionEntries
  · exact hh.sizeofPartitionEntry
  · exact hh.partitionEntryArrayCrc32

def Header.front (h : Header) : List UInt8 :=
  le 8 h.signature ++ le 4 h.revision ++ le 4 h.headerSize

def Header.back (h : Header) : List UInt8 :=
  le 4 0 ++ le 8 h.myLba ++ le 8 h.alternateLba ++ le 8 h.firstUsableLba ++ le 8 h.lastUsableLba ++
  h.diskGuid ++ le 8 h.partitionEntryLba ++ le 4 h.numPartitionEntries ++
  le 4 h.sizeofPartitionEntry ++ le 4 h.partitionEntryArrayCrc32

theorem Header.bytes_split (h : Header) : h.bytes = h.front ++ (le 4 h.headerCrc32 ++ h.back) := by
  simp only [Header.bytes,Header.front,Header.back,append_assoc]

theorem Header.bytes_cleared (h : Header) (rest : List UInt8) :
    storeSlice Fault.header (h.bytes ++ rest) 16 [0,0,0,0] =
      .ok ({ h with headerCrc32 := 0 }.bytes ++ rest) := by
  have hfront : h.front.length = 16 := by
    simp only [Header.front,length_append,le_length]
  have hzero : le 4 0 = [0,0,0,0] := rfl
  have hcleared : { h with headerCrc32 := 0 }.bytes = h.front ++ ([0,0,0,0] ++ h.back) := by
    rw [Header.bytes_split,← hzero]
    rfl
  rw [hcleared,Header.bytes_split,append_assoc,append_assoc,append_assoc,append_assoc]
  refine storeSlice_middle hfront ?_
  rfl

end

section

variable {crc : List UInt8 → UInt32} {h : Header} {rest : List UInt8}

theorem crc_lt (bytes : List UInt8) : (crc bytes).toNat < 256 ^ 4 := (crc bytes).toNat_lt

theorem Header.summed_encodable (hh : h.Encodable) : (h.summed crc).Encodable :=
  { hh with headerCrc32 := crc_lt _ }

structure Header.Proper (h : Header) (lba lastlba : Nat) : Prop where
  encodable : h.Encodable
  signature : h.signature = gptHeaderSignature
  headerSize : h.headerSize = sizeofGptHeader
  headerCrc32 : h.headerCrc32 = 0
  myLba : h.myLba = lba
  firstUsableLba : h.firstUsableLba ≤ lastlba
  lastUsableLba : h.lastUsableLba ≤ lastlba

theorem headerCrc_summed {lba lastlba : Nat} (hh : h.Proper lba lastlba) :
    headerCrc crc ((h.summed crc).bytes ++ rest) =
      .ok ((h.summed crc).headerCrc32,(h.summed crc).headerCrc32) := by
  have hguid : h.diskGuid.length = 16 := hh.encodable.diskGuid
  have hsummed : (h.summed crc).Encodable := Header.summed_encodable hh.encodable
  have hreads : Reads ((h.summed crc).bytes ++ rest) (h.summed crc) := Header.bytes_reads hsummed
  have hlen : (h.summed crc).bytes.length = 92 := Header.bytes_length hguid
  have hclear : ({ h.summed crc with headerCrc32 := 0 } : Header) = h := by
    rw [← hh.headerCrc32]
    rfl
  have hsize : Reads (h.bytes ++ rest) h := Header.bytes_reads hh.encodable
  have hhlen : h.bytes.length = 92 := Header.bytes_length hguid
  rw [headerCrc,field_word (by rw [length_append]; omega),bind_ok,hreads.headerCrc32,
    Header.bytes_cleared,bind_ok,hclear,field_word (by rw [length_append]; omega),bind_ok,
    hsize.headerSize,hh.headerSize,loadSlice_ok (by rw [length_append,sizeofGptHeader]; omega),
    bind_ok,slice_head (Header.bytes_length hguid)]
  have hall : h.bytes.take h.headerSize = h.bytes :=
    take_of_length_le (by rw [hh.headerSize,hhlen,sizeofGptHeader])
  rw [Header.summed,hall]

theorem validateGptHeader_summed {lba lastlba : Nat} (hh : h.Proper lba lastlba) :
    validateGptHeader crc ((h.summed crc).bytes ++ rest) lba lastlba = .ok true := by
  have hreads : Reads ((h.summed crc).bytes ++ rest) (h.summed crc) :=
    Header.bytes_reads (Header.summed_encodable hh.encodable)
  have hlen : (h.summed crc).bytes.length = 92 := Header.bytes_length hh.encodable.diskGuid
  have hbuf : 92 ≤ ((h.summed crc).bytes ++ rest).length := by
    rw [length_append]
    omega
  have hsig := hreads.signature.trans hh.signature
  have hmy := hreads.myLba.trans hh.myLba
  have hfirst : ¬lastlba < word ((h.summed crc).bytes ++ rest) 40 8 := by
    rw [hreads.firstUsableLba]
    exact Nat.not_lt.mpr hh.firstUsableLba
  have hlast : word ((h.summed crc).bytes ++ rest) 48 8 ≤ lastlba := by
    rw [hreads.lastUsableLba]
    exact hh.lastUsableLba
  rw [validateGptHeader,field_word (by omega),bind_ok,if_neg (not_not.mpr hsig),
    headerCrc_summed hh,bind_ok,if_neg (not_not.mpr rfl),field_word (by omega),bind_ok,
    if_neg (not_not.mpr hmy),usableWithin,field_word (by omega),bind_ok,if_neg hfirst,
    field_word (by omega),bind_ok,decide_eq_true hlast]

end

section

structure Entry.Encodable (e : Entry) : Prop where
  typeGuid : e.typeGuid.length = 16
  uniqueGuid : e.uniqueGuid.length = 16
  startingLba : e.startingLba < 256 ^ 8
  endingLba : e.endingLba < 256 ^ 8
  attributes : e.attributes < 256 ^ 8
  partitionName : e.partitionName.length = 72

variable {e : Entry} {es : List Entry} {pre rest : List UInt8} {i : Nat}

theorem Entry.bytes_length (he : e.Encodable) : e.bytes.length = sizeofGptEntry := by
  simp only [Entry.bytes,length_append,le_length,he.typeGuid,he.uniqueGuid,
    he.partitionName,sizeofGptEntry]

theorem entries_length (hes : ∀ e ∈ es, e.Encodable) :
    (es.flatMap Entry.bytes).length = es.length * sizeofGptEntry := by
  induction es with
  | nil => rfl
  | cons e es ih =>
    rw [flatMap_cons,length_append,Entry.bytes_length (hes e mem_cons_self),
      ih fun x hx => hes x (mem_cons_of_mem e hx),length_cons,Nat.add_mul]
    omega

theorem entries_split (hes : ∀ e ∈ es, e.Encodable) (hi : es[i]? = some e) (tail : List UInt8) :
    ∃ pre rest : List UInt8, pre.length = i * sizeofGptEntry ∧
      es.flatMap Entry.bytes ++ tail = pre ++ (e.bytes ++ rest) := by
  obtain ⟨hlt,he⟩ := List.getElem?_eq_some_iff.mp hi
  have hsplit : es = es.take i ++ e :: es.drop (i + 1) := by
    rw [← he,← drop_eq_getElem_cons hlt,take_append_drop]
  refine ⟨(es.take i).flatMap Entry.bytes,
    (es.drop (i + 1)).flatMap Entry.bytes ++ tail,?_,?_⟩
  · rw [entries_length fun x hx => hes x (mem_of_mem_take hx),length_take,
      Nat.min_eq_left hlt.le]
  · conv_lhs => rw [hsplit]
    rw [flatMap_append,flatMap_cons]
    simp only [append_assoc]

theorem loadSlice_entry {o n : Nat} {piece : List UInt8} (he : e.Encodable)
    (hpre : pre.length = i * sizeofGptEntry) (hin : o + n ≤ sizeofGptEntry)
    (hpiece : ((e.bytes ++ rest).drop o).take n = piece) :
    loadSlice Fault.entries (pre ++ (e.bytes ++ rest)) (i * sizeofGptEntry + o) n = .ok piece := by
  have hlen := Entry.bytes_length he
  rw [loadSlice_ok (by simp only [length_append]; omega),← hpre,← drop_drop,drop_left,hpiece]

structure Holds (pte : List UInt8) (i : Nat) (e : Entry) : Prop where
  typeGuid : loadSlice Fault.entries pte (i * sizeofGptEntry) 16 = .ok e.typeGuid
  uniqueGuid : loadSlice Fault.entries pte (i * sizeofGptEntry + 16) 16 = .ok e.uniqueGuid
  startingLba : loadSlice Fault.entries pte (i * sizeofGptEntry + 32) 8 = .ok (le 8 e.startingLba)
  endingLba : loadSlice Fault.entries pte (i * sizeofGptEntry + 40) 8 = .ok (le 8 e.endingLba)
  attributes : loadSlice Fault.entries pte (i * sizeofGptEntry + 48) 8 = .ok (le 8 e.attributes)
  partitionName : loadSlice Fault.entries pte (i * sizeofGptEntry + 56) 72 = .ok e.partitionName

theorem Entry.bytes_holds (he : e.Encodable) (hpre : pre.length = i * sizeofGptEntry) :
    Holds (pre ++ (e.bytes ++ rest)) i e := by
  have htype := he.typeGuid
  have hunique := he.uniqueGuid
  have hname := he.partitionName
  constructor
  case typeGuid =>
    rw [← Nat.add_zero (i * sizeofGptEntry)]
    apply loadSlice_entry he hpre (by decide)
    simp only [Entry.bytes,append_assoc]
    exact slice_head htype
  all_goals
    apply loadSlice_entry he hpre (by decide)
    simp only [Entry.bytes,append_assoc]
    repeat rw [slice_skip (by simp only [le_length,htype,hunique]; decide)]
    simp only [le_length,htype,hunique,Nat.reduceSub]
    rw [slice_head]
  · exact hunique
  · exact le_length 8 _
  · exact le_length 8 _
  · exact le_length 8 _
  · exact hname

theorem Holds.loads {pte : List UInt8} (h : Holds pte i e) (he : e.Encodable) :
    loadEntry pte i = .ok e := by
  rw [loadEntry,h.startingLba,bind_ok,h.endingLba,bind_ok,h.partitionName,bind_ok,
    h.attributes,bind_ok,h.typeGuid,bind_ok,h.uniqueGuid,bind_ok,
    ofLe_le_of_lt he.startingLba,ofLe_le_of_lt he.endingLba,ofLe_le_of_lt he.attributes]

theorem entriesBlocks_holds {dev : Device} (hes : ∀ e ∈ es, e.Encodable) (hi : es[i]? = some e) :
    Holds (entriesBlocks dev es) i e := by
  obtain ⟨pre,rest,hpre,heq⟩ := entries_split hes hi
    (replicate (padSize (gptEntryNumbers * sizeofGptEntry) dev.blksz -
      (es.flatMap Entry.bytes).length) 0)
  rw [entriesBlocks,padTo,heq]
  exact Entry.bytes_holds (hes e (mem_of_getElem? hi)) hpre

end

section

variable {crc : List UInt8 → UInt32} {stray : Nat → UInt8} {dev : Device} {h : Header} {lba : Nat}
  {pte : List UInt8}

structure Header.Tabled (h : Header) (crc : List UInt8 → UInt32) (pte : List UInt8) : Prop where
  numPartitionEntries : h.numPartitionEntries = gptEntryNumbers
  sizeofPartitionEntry : h.sizeofPartitionEntry = sizeofGptEntry
  partitionEntryArrayCrc32 : h.partitionEntryArrayCrc32 = (crc pte).toNat

theorem checkEntries_tabled {buf : List UInt8} (hreads : Reads buf h) (hbuf : 92 ≤ buf.length)
    (ht : h.Tabled crc pte) (hpte : pte.length = 16384) :
    tableBytes buf = 16384 ∧ checkEntries crc buf (some pte) = .ok (some ⟨buf,pte⟩) := by
  have hcount : tableBytes buf = 16384 := by
    rw [tableBytes,hreads.numPartitionEntries,hreads.sizeofPartitionEntry,
      ht.numPartitionEntries,ht.sizeofPartitionEntry]
    rfl
  have hcrc : (crc pte).toNat = word buf 88 4 := by
    rw [hreads.partitionEntryArrayCrc32,ht.partitionEntryArrayCrc32]
  refine ⟨hcount,?_⟩
  rw [checkEntries,validateGptEntries,entriesCount_eq hbuf,bind_ok,hcount,
    loadSlice_ok (by omega),bind_ok,field_word (by omega),drop_zero,
    take_of_length_le (by omega),bind_ok,decide_eq_true hcrc,bind_ok,if_pos rfl]

section

variable (hblk : dev.blksz = 512)
include hblk

theorem headerBlock_length (hguid : h.diskGuid.length = 16) :
    (headerBlock dev h).length = 1 * dev.blksz := by
  have hlen := Header.bytes_length hguid
  rw [sizeofGptHeader] at hlen
  rw [headerBlock,padTo,hblk,length_append,length_replicate,hlen]
  rfl

theorem headerBuffer_full (block : List UInt8) : headerBuffer dev stray block = block := by
  rw [headerBuffer,hblk]
  exact append_nil block

theorem entriesBlocks_length {es : List Entry} (hes : ∀ e ∈ es, e.Encodable)
    (hlen : es.length ≤ gptEntryNumbers) : (entriesBlocks dev es).length = 32 * dev.blksz := by
  have hbytes := entries_length hes
  have hpad : padSize (gptEntryNumbers * sizeofGptEntry) dev.blksz = 16384 := by
    rw [hblk]
    rfl
  unfold gptEntryNumbers at hlen
  unfold sizeofGptEntry at hbytes
  rw [entriesBlocks,padTo,hpad,length_append,length_replicate,hblk]
  omega

theorem isGptValid_accepts (hh : h.Proper lba dev.lba) (ht : h.Tabled crc pte)
    (hhead : blkDread dev lba 1 = some (headerBlock dev (h.summed crc)))
    (hpte : blkDread dev h.partitionEntryLba 32 = some pte) :
    isGptValid crc stray dev lba = .ok (some ⟨headerBlock dev (h.summed crc),pte⟩) := by
  have hreads : Reads (headerBlock dev (h.summed crc)) (h.summed crc) := by
    exact Header.bytes_reads (Header.summed_encodable hh.encodable)
  have hvalid : validateGptHeader crc (headerBlock dev (h.summed crc)) lba dev.lba = .ok true := by
    exact validateGptHeader_summed hh
  have hbuf : 92 ≤ (headerBlock dev (h.summed crc)).length := by
    have hlen : (headerBlock dev (h.summed crc)).length = 1 * dev.blksz :=
      headerBlock_length hblk hh.encodable.diskGuid
    omega
  have hlen : pte.length = 16384 := by
    rw [blkDread_length hpte,hblk]
  have htabled : (h.summed crc).Tabled crc pte := ⟨ht.1,ht.2,ht.3⟩
  obtain ⟨hcount,hcheck⟩ := checkEntries_tabled hreads hbuf htabled hlen
  have hblocks : padCount (tableBytes (headerBlock dev (h.summed crc))) dev.blksz = 32 := by
    rw [hcount,hblk]
    rfl
  have hlba : word (headerBlock dev (h.summed crc)) 72 8 = h.partitionEntryLba :=
    hreads.partitionEntryLba
  rw [isGptValid_read hhead,headerBuffer_full hblk,readTable,hvalid,bind_ok,if_pos rfl,
    allocReadGptEntries,entriesCount_eq hbuf,bind_ok,if_neg (by omega),field_word (by omega),
    bind_ok,hlba,hblocks,hpte,bind_ok,hcheck]

end

end

section

variable {crc : List UInt8 → UInt32} {stray : Nat → UInt8} {dev : Device} {h : Header}
  {es : List Entry} {pte : List UInt8}

structure Filled (dev : Device) (h : Header) : Prop where
  signature : h.signature = gptHeaderSignature
  headerSize : h.headerSize = sizeofGptHeader
  headerCrc32 : h.headerCrc32 = 0
  myLba : h.myLba = 1
  alternateLba : h.alternateLba = dev.lba - 1
  firstUsableLba : h.firstUsableLba = 34
  lastUsableLba : h.lastUsableLba = dev.lba - 34
  diskGuid : h.diskGuid.length = 16
  partitionEntryLba : h.partitionEntryLba = 2
  numPartitionEntries : h.numPartitionEntries = gptEntryNumbers
  sizeofPartitionEntry : h.sizeofPartitionEntry = sizeofGptEntry

theorem uuidGuidGetBin_length {s : List Char} {guid : List UInt8}
    (h : uuidGuidGetBin s = some guid) : guid.length = 16 := by
  have hall : ∀ x ∈ listGuid, x.2.length = 16 := by decide
  obtain ⟨l1,l2,hl,-⟩ := List.lookup_eq_some_iff.mp h
  exact hall (s,guid) (by rw [hl]; exact mem_append_right _ mem_cons_self)

theorem uuidStrToBin_length {s : List Char} {guid : List UInt8}
    (h : uuidStrToBin s = some guid) : guid.length = 16 := by
  unfold uuidStrToBin at h
  split at h
  · cases h
    simp only [length_append,length_reverse,le_length]
  · exact uuidGuidGetBin_length h

theorem lastBlock_eq (hlba : 70 ≤ dev.lba) : lastBlock dev = dev.lba - 1 := by
  have hlt := dev.lba_lt
  unfold lastBlock
  omega

theorem gptFillHeader_filled {guid : List Char} (hlba : 70 ≤ dev.lba)
    (h' : gptFillHeader dev guid = some h) : Filled dev h := by
  have hlt := dev.lba_lt
  unfold gptFillHeader at h'
  split at h'
  · cases h'
  rename_i bin hbin
  cases h'
  exact {
    signature := rfl
    headerSize := rfl
    headerCrc32 := rfl
    myLba := rfl
    alternateLba := lastBlock_eq hlba
    firstUsableLba := rfl
    lastUsableLba := by
      change (dev.lba + (2 ^ 64 - 34)) % 2 ^ 64 = dev.lba - 34
      omega
    diskGuid := uuidStrToBin_length hbin
    partitionEntryLba := rfl
    numPartitionEntries := rfl
    sizeofPartitionEntry := rfl }

def arrayed (crc : List UInt8 → UInt32) (h : Header) (pte : List UInt8) : Header :=
  { h with partitionEntryArrayCrc32 := (crc pte).toNat }

def mirrored (crc : List UInt8 → UInt32) (h : Header) (pte : List UInt8) : Header :=
  { arrayed crc h pte with
    myLba := h.alternateLba
    alternateLba := h.myLba
    partitionEntryLba := (h.lastUsableLba + 1) % 2 ^ 64
    headerCrc32 := 0 }

section

variable (hf : Filled dev h)
include hf

theorem Filled.arrayed_encodable : (arrayed crc h pte).Encodable := by
  have hlt := dev.lba_lt
  constructor
  case diskGuid => exact hf.diskGuid
  case partitionEntryArrayCrc32 => exact crc_lt pte
  all_goals simp only [arrayed]
  · rw [hf.signature]; decide
  · rw [hf.headerSize]; decide
  · rw [hf.headerCrc32]; decide
  · rw [hf.myLba]; decide
  · rw [hf.alternateLba]; omega
  · rw [hf.firstUsableLba]; decide
  · rw [hf.lastUsableLba]; omega
  · rw [hf.partitionEntryLba]; decide
  · rw [hf.numPartitionEntries]; decide
  · rw [hf.sizeofPartitionEntry]; decide

theorem Filled.arrayed_proper (hlba : 70 ≤ dev.lba) :
    (arrayed crc h pte).Proper 1 dev.lba where
  encodable := hf.arrayed_encodable
  signature := hf.signature
  headerSize := hf.headerSize
  headerCrc32 := hf.headerCrc32
  myLba := hf.myLba
  firstUsableLba := by
    have hfirst : (arrayed crc h pte).firstUsableLba = 34 := hf.firstUsableLba
    omega
  lastUsableLba := by
    have hlast : (arrayed crc h pte).lastUsableLba = dev.lba - 34 := hf.lastUsableLba
    omega

theorem Filled.mirrored_proper (hlba : 70 ≤ dev.lba) :
    (mirrored crc h pte).Proper (dev.lba - 1) dev.lba := by
  have hprimary : (arrayed crc h pte).Proper 1 dev.lba := hf.arrayed_proper hlba
  have henc := hprimary.encodable
  refine { hprimary with encodable := ?_, headerCrc32 := rfl, myLba := hf.alternateLba }
  exact { henc with
    headerCrc32 := show 0 < 256 ^ 4 by decide
    myLba := henc.alternateLba
    alternateLba := henc.myLba
    partitionEntryLba := Nat.mod_lt _ (by decide) }

theorem Filled.primaryHeader_eq (hpte : pte.length = 16384) :
    primaryHeader crc h pte = (arrayed crc h pte).summed crc := by
  have htake : pte.take (h.numPartitionEntries * h.sizeofPartitionEntry % 2 ^ 32) = pte := by
    rw [hf.numPartitionEntries,hf.sizeofPartitionEntry]
    exact take_of_length_le hpte.le
  rw [primaryHeader,htake,arrayed]

end

structure Written (crc : List UInt8 → UInt32) (dev : Device) (h : Header) (pte : List UInt8) :
    Prop where
  header : blkDread dev 1 1 = some (headerBlock dev ((arrayed crc h pte).summed crc))
  entries : blkDread dev 2 32 = some pte
  backupEntries : blkDread dev (dev.lba - 33) 32 = some pte
  backupHeader : blkDread dev (dev.lba - 1) 1 =
    some (headerBlock dev ((mirrored crc h pte).summed crc))

theorem setProtectiveMbr_stores (hblk : dev.blksz = 512) (hlba : 70 ≤ dev.lba) :
    ∃ dev', setProtectiveMbr dev = .ok dev' ∧ SameShape dev dev' := by
  have hread : blkDread dev 0 1 = some (dev.data.bytes (0 * dev.blksz) (1 * dev.blksz)) :=
    if_pos (by omega)
  have hlen : (protectiveMbr dev (dev.data.bytes (0 * dev.blksz) (1 * dev.blksz))).length =
      1 * dev.blksz := by
    simp only [protectiveMbr,length_append,length_take,length_drop,
      length_replicate,le_length,Buffer.bytes_length,length_cons,length_nil,hblk]
    decide
  obtain ⟨dev',hwrite,hstored⟩ := blkDwrite_stores (by omega : 0 + 1 ≤ dev.lba) hlen
  refine ⟨dev',?_,hstored.shape⟩
  rw [setProtectiveMbr,hread]
  exact hwrite

theorem headerBlock_shape {dev' : Device} (hs : SameShape dev dev') (h : Header) :
    headerBlock dev' h = headerBlock dev h := by
  rw [headerBlock,headerBlock,hs.blksz]

theorem SameShape.trans {d1 d2 d3 : Device} (h : SameShape d1 d2) (h' : SameShape d2 d3) :
    SameShape d1 d3 := ⟨h'.blksz.trans h.blksz,h'.lba.trans h.lba⟩

theorem SameShape.stores {d : Device} {start cnt : Nat} {buf : List UInt8} (hs : SameShape dev d)
    (hin : start + cnt ≤ dev.lba) (hlen : buf.length = cnt * dev.blksz) :
    ∃ d', blkDwrite d start cnt buf = .ok d' ∧ Stored d d' start cnt buf ∧ SameShape dev d' := by
  rw [← hs.lba] at hin
  rw [← hs.blksz] at hlen
  obtain ⟨d',hwrite,hstored⟩ := blkDwrite_stores hin hlen
  exact ⟨d',hwrite,hstored,hs.trans hstored.shape⟩

theorem writeGptTable_written (hblk : dev.blksz = 512) (hlba : 70 ≤ dev.lba) (hf : Filled dev h)
    (hes : ∀ e ∈ es, e.Encodable) (hlen : es.length ≤ gptEntryNumbers) :
    ∃ dev', writeGptTable crc dev h es = .ok dev' ∧ SameShape dev dev' ∧
      Written crc dev' h (entriesBlocks dev es) := by
  have hpte := entriesBlocks_length hblk hes hlen
  generalize hgen : entriesBlocks dev es = pte at hpte ⊢
  have hprimary : primaryHeader crc h pte = (arrayed crc h pte).summed crc :=
    hf.primaryHeader_eq (by rw [hpte,hblk])
  have hbackup : prepareBackupGptHeader crc ((arrayed crc h pte).summed crc) =
      (mirrored crc h pte).summed crc := rfl
  have hcount : padCount (h.numPartitionEntries * sizeofGptEntry) dev.blksz = 32 := by
    rw [hf.numPartitionEntries,hblk]
    rfl
  have hlt := dev.lba_lt
  have hlast : (((mirrored crc h pte).summed crc).lastUsableLba + 1) % 2 ^ 64 = dev.lba - 33 := by
    have hl : ((mirrored crc h pte).summed crc).lastUsableLba = dev.lba - 34 := hf.lastUsableLba
    omega
  have hmy : ((mirrored crc h pte).summed crc).myLba = dev.lba - 1 := hf.alternateLba
  have hfirst : ((arrayed crc h pte).summed crc).partitionEntryLba = 2 := hf.partitionEntryLba
  have hplen : (headerBlock dev ((arrayed crc h pte).summed crc)).length = 1 * dev.blksz :=
    headerBlock_length hblk hf.diskGuid
  have hblen : (headerBlock dev ((mirrored crc h pte).summed crc)).length = 1 * dev.blksz :=
    headerBlock_length hblk hf.diskGuid
  obtain ⟨d1,w1,s1⟩ := setProtectiveMbr_stores hblk hlba
  obtain ⟨d2,w2,s2,s12⟩ := s1.stores (show 1 + 1 ≤ dev.lba by omega) hplen
  obtain ⟨d3,w3,s3,s13⟩ := s12.stores (show 2 + 32 ≤ dev.lba by omega) hpte
  obtain ⟨d4,w4,s4,s14⟩ := s13.stores (show dev.lba - 33 + 32 ≤ dev.lba by omega) hpte
  obtain ⟨d5,w5,s5,s15⟩ := s14.stores (show dev.lba - 1 + 1 ≤ dev.lba by omega) hblen
  refine ⟨d5,?_,s15,?_,?_,?_,?_⟩
  · rw [writeGptTable,hgen,hprimary,hbackup,hcount,hlast,hmy,hfirst,w1,bind_ok,
      headerBlock_shape s1,w2,bind_ok,w3,bind_ok,w4,bind_ok,headerBlock_shape s14,w5]
  · rw [s5.elsewhere 1 1 (by omega),s4.elsewhere 1 1 (by omega),s3.elsewhere 1 1 (by omega),
      s2.here,headerBlock_shape s15]
  · rw [s5.elsewhere 2 32 (by omega),s4.elsewhere 2 32 (by omega),s3.here]
  · rw [s15.lba,s5.elsewhere _ 32 (by omega),s4.here]
  · rw [s15.lba,s5.here,headerBlock_shape s15]

theorem Written.accepted (hw : Written crc dev h pte) (hf : Filled dev h) (hblk : dev.blksz = 512)
    (hlba : 70 ≤ dev.lba) (stray : Nat → UInt8) : isGptValid crc stray dev primaryLba =
        .ok (some ⟨headerBlock dev ((arrayed crc h pte).summed crc),pte⟩) ∧
      isGptValid crc stray dev (lastBlock dev) =
        .ok (some ⟨headerBlock dev ((mirrored crc h pte).summed crc),pte⟩) := by
  have hlt := dev.lba_lt
  have hfirst : (arrayed crc h pte).partitionEntryLba = 2 := hf.partitionEntryLba
  have hlast : (mirrored crc h pte).partitionEntryLba = dev.lba - 33 := by
    change (h.lastUsableLba + 1) % 2 ^ 64 = dev.lba - 33
    rw [hf.lastUsableLba]
    omega
  rw [lastBlock_eq hlba]
  constructor
  · exact isGptValid_accepts hblk (hf.arrayed_proper hlba) ⟨hf.numPartitionEntries,hf.sizeofPartitionEntry,rfl⟩
      hw.header
      (by rw [hfirst]; exact hw.entries)
  · exact isGptValid_accepts hblk (hf.mirrored_proper hlba) ⟨hf.numPartitionEntries,hf.sizeofPartitionEntry,rfl⟩
      hw.backupHeader
      (by rw [hlast]; exact hw.backupEntries)

end

end FuzzingTargets.UBoot.Gpt
