import FuzzingTargets.Foundation.Memory
import FuzzingTargets.Foundation.Checked
import FuzzingTargets.Foundation.LittleEndian

namespace FuzzingTargets.UBoot.Gpt
open LittleEndian Checked Memory

inductive Fault where
  | header (at_ : Nat)
  | entries (at_ : Nat)
  deriving DecidableEq

structure Device where
  blksz : Nat
  lba : Nat
  data : Buffer
  blksz_pos : 0 < blksz
  lba_lt : lba < 2 ^ 64

theorem sector_pos : 0 < 512 := by decide

def gptHeaderSignature : Nat := 0x5452415020494645

def sizeofGptHeader : Nat := 92

def sizeofGptEntry : Nat := 128

def primaryLba : Nat := 1

def partnameSz : Nat := 36

def padCount (s pad : Nat) : Nat := (s - 1) / pad + 1

def padSize (s pad : Nat) : Nat := padCount s pad * pad

variable (crc : List UInt8 → UInt32) (stray : Nat → UInt8) (dev : Device)

def lastBlock : Nat := (dev.lba + (2 ^ 64 - 1)) % 2 ^ 64

def blkDread (start cnt : Nat) : Option (List UInt8) :=
  if start + cnt ≤ dev.lba then some (dev.data.bytes (start * dev.blksz) (cnt * dev.blksz)) else none

def field (buf : List UInt8) (offset n : Nat) : Except Fault Nat := do
  let bytes ← loadSlice Fault.header buf offset n
  .ok (ofLe bytes)

def headerCrc (head : List UInt8) : Except Fault (Nat × Nat) := do
  let backup ← field head 16 4
  let cleared ← storeSlice Fault.header head 16 [0,0,0,0]
  let headerSize ← field cleared 12 4
  let bytes ← loadSlice Fault.header cleared 0 headerSize
  .ok ((crc bytes).toNat,backup)

def usableWithin (head : List UInt8) (lastlba : Nat) : Except Fault Bool := do
  let firstUsable ← field head 40 8
  if lastlba < firstUsable then .ok false
  else do
    let lastUsable ← field head 48 8
    .ok (decide (lastUsable ≤ lastlba))

def validateGptHeader (head : List UInt8) (lba lastlba : Nat) : Except Fault Bool := do
  let signature ← field head 0 8
  if signature ≠ gptHeaderSignature then .ok false
  else do
    let sums ← headerCrc crc head
    if sums.1 ≠ sums.2 then .ok false
    else do
      let myLba ← field head 24 8
      if myLba ≠ lba then .ok false else usableWithin head lastlba

def entriesCount (head : List UInt8) : Except Fault Nat := do
  let num ← field head 80 4
  let size ← field head 84 4
  .ok (num * size % 2 ^ 32)

def allocReadGptEntries (head : List UInt8) : Except Fault (Option (List UInt8)) := do
  let count ← entriesCount head
  if count = 0 then .ok none
  else do
    let blk ← field head 72 8
    .ok (blkDread dev blk (padCount count dev.blksz))

def validateGptEntries (head pte : List UInt8) : Except Fault Bool := do
  let count ← entriesCount head
  let bytes ← loadSlice Fault.entries pte 0 count
  let stored ← field head 88 4
  .ok (decide ((crc bytes).toNat = stored))

structure Loaded where
  head : List UInt8
  pte : List UInt8
  deriving DecidableEq

def checkEntries (head : List UInt8) : Option (List UInt8) → Except Fault (Option Loaded)
  | none => .ok none
  | some pte => do
    let good ← validateGptEntries crc head pte
    .ok (if good then some ⟨head,pte⟩ else none)

def readTable (lba : Nat) (head : List UInt8) : Except Fault (Option Loaded) := do
  let good ← validateGptHeader crc head lba dev.lba
  if good then do
    let pte ← allocReadGptEntries dev head
    checkEntries crc head pte
  else .ok none

def headerBuffer (stray : Nat → UInt8) (block : List UInt8) : List UInt8 :=
  block ++ (List.range (padSize sizeofGptHeader dev.blksz - dev.blksz)).map stray

def isGptValid (lba : Nat) : Except Fault (Option Loaded) :=
  match blkDread dev 0 1 with
  | none => .ok none
  | some _ =>
    match blkDread dev lba 1 with
    | none => .ok none
    | some block => readTable crc dev lba (headerBuffer dev stray block)

def orBackup : Option Loaded → Except Fault (Option Loaded)
  | some t => .ok (some t)
  | none => isGptValid crc stray dev (lastBlock dev)

def findTable : Except Fault (Option Loaded) := do
  let primary ← isGptValid crc stray dev primaryLba
  orBackup crc stray dev primary

variable (pte : List UInt8) (i : Nat)

def isPteValid : Except Fault Bool := do
  let typeGuid ← loadSlice Fault.entries pte (i * sizeofGptEntry) 16
  .ok (typeGuid.any fun b => b ≠ 0)

structure Entry where
  typeGuid : List UInt8
  uniqueGuid : List UInt8
  startingLba : Nat
  endingLba : Nat
  attributes : Nat
  partitionName : List UInt8
  deriving DecidableEq

def loadEntry : Except Fault Entry := do
  let start ← loadSlice Fault.entries pte (i * sizeofGptEntry + 32) 8
  let last ← loadSlice Fault.entries pte (i * sizeofGptEntry + 40) 8
  let name ← loadSlice Fault.entries pte (i * sizeofGptEntry + 56) 72
  let attributes ← loadSlice Fault.entries pte (i * sizeofGptEntry + 48) 8
  let typeGuid ← loadSlice Fault.entries pte (i * sizeofGptEntry) 16
  let uniqueGuid ← loadSlice Fault.entries pte (i * sizeofGptEntry + 16) 16
  .ok ⟨typeGuid,uniqueGuid,ofLe start,ofLe last,ofLe attributes,name⟩

def isPrint (c : UInt8) : Bool := 32 ≤ c ∧ c ≤ 126 ∨ 160 ≤ c

def printEfiname (partitionName : List UInt8) : List UInt8 :=
  (List.range partnameSz).map fun i =>
    let c := partitionName.getD (2 * i) 0
    if c ≠ 0 ∧ ¬isPrint c then 46 else c

def cString (s : List UInt8) : List UInt8 := s.takeWhile fun c => c ≠ 0

def efiGuid (a b c : Nat) (d : List UInt8) : List UInt8 := le 4 a ++ le 2 b ++ le 2 c ++ d

def systemGuid : List UInt8 :=
  efiGuid 0xC12A7328 0xF81F 0x11d2 [0xBA,0x4B,0x00,0xA0,0xC9,0x3E,0xC9,0x3B]

def isBootable (e : Entry) : Bool := e.attributes / 4 % 2 = 1 ∨ e.typeGuid = systemGuid

def spanSize (start last : Nat) : Nat := (last + 1 + (2 ^ 64 - start)) % 2 ^ 64

structure Info where
  start : Nat
  size : Nat
  blksz : Nat
  name : List UInt8
  bootable : Bool
  uuid : List UInt8
  typeGuid : List UInt8
  deriving DecidableEq

def infoOf (e : Entry) : Info where
  start := e.startingLba
  size := spanSize e.startingLba e.endingLba
  blksz := dev.blksz
  name := cString (printEfiname e.partitionName)
  bootable := isBootable e
  uuid := e.uniqueGuid
  typeGuid := e.typeGuid

def entryInfo (t : Loaded) (part : Nat) : Except Fault (Option Info) := do
  let num ← field t.head 80 4
  if num < part then .ok none
  else do
    let valid ← isPteValid t.pte (part - 1)
    if valid then do
      let e ← loadEntry t.pte (part - 1)
      .ok (some (infoOf dev e))
    else .ok none

def tableInfo (part : Nat) : Option Loaded → Except Fault (Option Info)
  | none => .ok none
  | some t => entryInfo dev t part

def partGetInfoEfi (part : Int) : Except Fault (Option Info) :=
  if part < 1 then .ok none
  else do
    let found ← findTable crc stray dev
    tableInfo dev part.toNat found

def printEntries (pte : List UInt8) : Nat → Nat → Except Fault (List (Nat × Entry))
  | 0, _ => .ok []
  | n + 1, i => do
    let valid ← isPteValid pte i
    if valid then do
      let e ← loadEntry pte i
      let rest ← printEntries pte n (i + 1)
      .ok ((i + 1,e) :: rest)
    else .ok []

def printTable : Option Loaded → Except Fault (List (Nat × Entry))
  | none => .ok []
  | some t => do
    let num ← field t.head 80 4
    printEntries t.pte num 0

def partPrintEfi : Except Fault (List (Nat × Entry)) := do
  let found ← findTable crc stray dev
  printTable found

def gptEntryNumbers : Nat := 128

def uuidStrLen : Nat := 36

def partNameLen : Nat := 32

def isXdigit (c : Char) : Bool := c.isDigit || ('a' ≤ c && c ≤ 'f') || ('A' ≤ c && c ≤ 'F')

def uuidCharValid (c : Char) : Bool :=
  if i = 8 ∨ i = 13 ∨ i = 18 ∨ i = 23 then c = '-' else isXdigit c

def uuidStrValid (uuid : List Char) : Bool :=
  uuid.length = uuidStrLen ∧ uuid.zipIdx.all fun x => uuidCharValid x.2 x.1

def xdigitValue (c : Char) : Nat :=
  if c.isDigit then c.toNat - 48 else if c.isLower then c.toNat - 87 else c.toNat - 55

def simpleStrtoul (s : List Char) : Nat :=
  (s.takeWhile isXdigit).foldl (fun r c => (r * 16 + xdigitValue c) % 2 ^ 64) 0

def partitionBasicDataGuid : List UInt8 :=
  efiGuid 0xEBD0A0A2 0xB9E5 0x4433 [0x87,0xC0,0x68,0xB6,0xB7,0x26,0x99,0xC7]

def listGuid : List (List Char × List UInt8) :=
  [("system".toList,systemGuid),
   ("mbr".toList,
    efiGuid 0x024DEE41 0x33E7 0x11d3 [0x9D,0x69,0x00,0x08,0xC7,0x81,0xF3,0x9F]),
   ("msft".toList,
    efiGuid 0xE3C9E316 0x0B5C 0x4DB8 [0x81,0x7D,0xF9,0x2D,0xF0,0x02,0x15,0xAE]),
   ("data".toList,partitionBasicDataGuid),
   ("linux".toList,
    efiGuid 0x0FC63DAF 0x8483 0x4772 [0x8E,0x79,0x3D,0x69,0xD8,0x47,0x7D,0xE4]),
   ("raid".toList,
    efiGuid 0xa19d880f 0x05fc 0x4d3b [0xa0,0x06,0x74,0x3f,0x0f,0x84,0x91,0x1e]),
   ("swap".toList,
    efiGuid 0x0657fd6d 0xa4ab 0x43c4 [0x84,0xe5,0x09,0x33,0xc8,0x4b,0x4f,0x4f]),
   ("lvm".toList,
    efiGuid 0xe6d6d379 0xf507 0x44c2 [0xa2,0x3c,0x23,0x8f,0x2a,0x3d,0xf9,0x28])]

def uuidGuidGetBin (guidStr : List Char) : Option (List UInt8) := listGuid.lookup guidStr

def uuidStrToBin (uuidStr : List Char) : Option (List UInt8) :=
  if uuidStrValid uuidStr then
    some (le 4 (simpleStrtoul uuidStr) ++ le 2 (simpleStrtoul (uuidStr.drop 9)) ++
      le 2 (simpleStrtoul (uuidStr.drop 14)) ++ (le 2 (simpleStrtoul (uuidStr.drop 19))).reverse ++
      (le 6 (simpleStrtoul (uuidStr.drop 24))).reverse)
  else uuidGuidGetBin uuidStr

structure Partition where
  start : Nat
  size : Nat
  name : List UInt8
  bootable : Bool
  uuid : List Char
  typeGuid : List Char
  start_lt : start < 2 ^ 64
  size_lt : size < 2 ^ 64
  name_length : name.length = partNameLen

structure Header where
  signature : Nat
  revision : Nat
  headerSize : Nat
  headerCrc32 : Nat
  myLba : Nat
  alternateLba : Nat
  firstUsableLba : Nat
  lastUsableLba : Nat
  diskGuid : List UInt8
  partitionEntryLba : Nat
  numPartitionEntries : Nat
  sizeofPartitionEntry : Nat
  partitionEntryArrayCrc32 : Nat
  deriving DecidableEq

def Header.bytes (h : Header) : List UInt8 :=
  le 8 h.signature ++ le 4 h.revision ++ le 4 h.headerSize ++ le 4 h.headerCrc32 ++ le 4 0 ++
  le 8 h.myLba ++ le 8 h.alternateLba ++ le 8 h.firstUsableLba ++ le 8 h.lastUsableLba ++
  h.diskGuid ++ le 8 h.partitionEntryLba ++ le 4 h.numPartitionEntries ++
  le 4 h.sizeofPartitionEntry ++ le 4 h.partitionEntryArrayCrc32

def Entry.bytes (e : Entry) : List UInt8 :=
  e.typeGuid ++ e.uniqueGuid ++ le 8 e.startingLba ++ le 8 e.endingLba ++ le 8 e.attributes ++
  e.partitionName

def padTo (n : Nat) (bs : List UInt8) : List UInt8 := bs ++ List.replicate (n - bs.length) 0

def headerBlock (h : Header) : List UInt8 :=
  padTo (padSize sizeofGptHeader dev.blksz) h.bytes

def entriesBlocks (es : List Entry) : List UInt8 :=
  padTo (padSize (gptEntryNumbers * sizeofGptEntry) dev.blksz) (es.flatMap Entry.bytes)

def partitionEntriesOffset : Nat := 2

def gptFillHeader (strGuid : List Char) : Option Header :=
  match uuidStrToBin strGuid with
  | none => none
  | some guid => some {
      signature := gptHeaderSignature
      revision := 0x00010000
      headerSize := sizeofGptHeader
      headerCrc32 := 0
      myLba := 1
      alternateLba := lastBlock dev
      firstUsableLba := partitionEntriesOffset + 32
      lastUsableLba := (dev.lba + (2 ^ 64 - 34)) % 2 ^ 64
      diskGuid := guid
      partitionEntryLba := partitionEntriesOffset
      numPartitionEntries := gptEntryNumbers
      sizeofPartitionEntry := sizeofGptEntry
      partitionEntryArrayCrc32 := 0 }

def Partition.from (p : Partition) (offset : Nat) : Nat := if p.start = 0 then offset else p.start

def Partition.next (p : Partition) (offset : Nat) : Nat := (p.from offset + p.size) % 2 ^ 64

def overlapsTable (h : Header) (start stop : Nat) : Bool :=
  let pteEnd := h.partitionEntryLba +
    h.numPartitionEntries * h.sizeofPartitionEntry % 2 ^ 32 / dev.blksz
  (start < h.myLba + 1 ∧ h.myLba < stop) ∨ (start < pteEnd ∧ h.partitionEntryLba < stop)

def partitionType (typeGuid : List Char) : Option (List UInt8) :=
  if typeGuid = [] then some partitionBasicDataGuid else uuidStrToBin typeGuid

def efiName (name : List UInt8) : List UInt8 :=
  padTo (2 * partnameSz) ((name.take partnameSz).flatMap fun c => [c,0])

def endingLba (h : Header) (p : Partition) (isLast : Bool) (next : Nat) : Nat :=
  if isLast ∧ p.size = 0 then h.lastUsableLba else (next + (2 ^ 64 - 1)) % 2 ^ 64

def fillEntry (h : Header) (offset : Nat) (p : Partition) (isLast : Bool) : Option Entry :=
  if overlapsTable dev h (p.from offset) (p.next offset) then none
  else if (h.lastUsableLba + 1) % 2 ^ 64 < p.next offset then none
  else do
    let typeGuid ← partitionType p.typeGuid
    let uniqueGuid ← uuidStrToBin p.uuid
    some {
      typeGuid := typeGuid
      uniqueGuid := uniqueGuid
      startingLba := p.from offset
      endingLba := endingLba h p isLast (p.next offset)
      attributes := if p.bootable then 4 else 0
      partitionName := efiName p.name }

def fillFrom (dev : Device) (h : Header) : Nat → List Partition → Option (List Entry)
  | _, [] => some []
  | offset, p :: rest => do
    let e ← fillEntry dev h offset p rest.isEmpty
    let es ← fillFrom dev h (p.next offset) rest
    some (e :: es)

def gptFillPte (h : Header) (partitions : List Partition) : Option (List Entry) :=
  fillFrom dev h h.firstUsableLba partitions

def blkDwrite (start cnt : Nat) (buf : List UInt8) : Except Device Device :=
  if start + cnt ≤ dev.lba then
    .ok { dev with data := dev.data.put (start * dev.blksz) (buf.take (cnt * dev.blksz)) }
  else .error dev

def protectiveMbr (mbr : List UInt8) : List UInt8 :=
  mbr.take 440 ++ List.replicate 10 0 ++ [0xEE,0,0,0] ++ le 4 1 ++
  le 4 (dev.lba + (2 ^ 32 - 1)) ++ List.replicate 48 0 ++ le 2 0xAA55 ++ mbr.drop 512

def setProtectiveMbr : Except Device Device :=
  match blkDread dev 0 1 with
  | none => .error dev
  | some mbr => blkDwrite dev 0 1 (protectiveMbr dev mbr)

def Header.summed (h : Header) : Header :=
  { h with headerCrc32 := (crc (h.bytes.take h.headerSize)).toNat }

def primaryHeader (h : Header) (pte : List UInt8) : Header :=
  Header.summed crc { h with
    partitionEntryArrayCrc32 :=
      (crc (pte.take (h.numPartitionEntries * h.sizeofPartitionEntry % 2 ^ 32))).toNat }

def prepareBackupGptHeader (h : Header) : Header :=
  Header.summed crc { h with
    myLba := h.alternateLba
    alternateLba := h.myLba
    partitionEntryLba := (h.lastUsableLba + 1) % 2 ^ 64
    headerCrc32 := 0 }

def writeGptTable (h : Header) (es : List Entry) : Except Device Device := do
  let pte := entriesBlocks dev es
  let pteBlkCnt := padCount (h.numPartitionEntries * sizeofGptEntry) dev.blksz
  let primary := primaryHeader crc h pte
  let backup := prepareBackupGptHeader crc primary
  let dev ← setProtectiveMbr dev
  let dev ← blkDwrite dev 1 1 (headerBlock dev primary)
  let dev ← blkDwrite dev primary.partitionEntryLba pteBlkCnt pte
  let dev ← blkDwrite dev ((backup.lastUsableLba + 1) % 2 ^ 64) pteBlkCnt pte
  blkDwrite dev backup.myLba 1 (headerBlock dev backup)

def gptRestore (strDiskGuid : List Char) (partitions : List Partition) : Except Device Device :=
  match gptFillHeader dev strDiskGuid with
  | none => .error dev
  | some h =>
    match gptFillPte dev h partitions with
    | none => .error dev
    | some es => writeGptTable crc dev h es

def gptConvertEfiNameToChar (pte : List UInt8) : Nat → Nat → Except Fault (List UInt8)
  | _, 0 => .ok []
  | at_, n + 1 => do
    let c ← load Fault.entries pte at_
    if c = 0 then .ok []
    else do
      let rest ← gptConvertEfiNameToChar pte (at_ + 2) n
      .ok (c :: rest)

def gptVerifyHeaders : Except Fault (Option Loaded) := do
  let primary ← isGptValid crc stray dev primaryLba
  if primary.isNone then .ok none else isGptValid crc stray dev (lastBlock dev)

def namesAgree (efiStr name : List UInt8) : Bool :=
  cString (efiStr.take partNameLen) = cString name

def verifyEntry (p : Partition) (isLast : Bool) : Except Fault Bool := do
  let efiStr ← gptConvertEfiNameToChar pte (i * sizeofGptEntry + 56) (partnameSz + 1)
  if namesAgree efiStr p.name then do
    let last ← loadSlice Fault.entries pte (i * sizeofGptEntry + 40) 8
    let start ← loadSlice Fault.entries pte (i * sizeofGptEntry + 32) 8
    if spanSize (ofLe start) (ofLe last) ≠ p.size then .ok (isLast && p.size == 0)
    else .ok (decide (p.start = 0 ∨ ofLe start = p.start))
  else .ok false

def verifyFrom (t : Loaded) : Nat → List Partition → Except Fault Bool
  | _, [] => .ok true
  | i, p :: rest => do
    let num ← field t.head 80 4
    if i = num then .ok false
    else do
      let good ← verifyEntry t.pte i p rest.isEmpty
      if good then verifyFrom t (i + 1) rest else .ok false

def verifyLoaded (partitions : List Partition) : Option Loaded → Except Fault Bool
  | none => .ok false
  | some t => verifyFrom t 0 partitions

def gptVerifyPartitions (partitions : List Partition) : Except Fault Bool := do
  let found ← gptVerifyHeaders crc stray dev
  verifyLoaded partitions found

end FuzzingTargets.UBoot.Gpt
