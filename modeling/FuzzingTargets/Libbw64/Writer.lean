import FuzzingTargets.Foundation.Riff
import Mathlib.Data.List.Dedup

namespace FuzzingTargets.Bw64
open LittleEndian Riff List

def fourCC (a b c d : Char) : UInt32 :=
  UInt32.ofNat (a.toNat + 256 * (b.toNat + 256 * (c.toNat + 256 * d.toNat)))

def riffId : UInt32 := fourCC 'R' 'I' 'F' 'F'

def bw64Id : UInt32 := fourCC 'B' 'W' '6' '4'

def rf64Id : UInt32 := fourCC 'R' 'F' '6' '4'

def waveId : UInt32 := fourCC 'W' 'A' 'V' 'E'

def junkId : UInt32 := fourCC 'J' 'U' 'N' 'K'

def ds64Id : UInt32 := fourCC 'd' 's' '6' '4'

def fmtId : UInt32 := fourCC 'f' 'm' 't' ' '

def dataId : UInt32 := fourCC 'd' 'a' 't' 'a'

def chnaId : UInt32 := fourCC 'c' 'h' 'n' 'a'

def axmlId : UInt32 := fourCC 'a' 'x' 'm' 'l'

inductive Error where
  | channelCount
  | sampleRate
  | bitDepth (bits : UInt16)
  | uidTooLong
  | packRefTooLong
  | tooManyUids
  | noChunk (id : UInt32)
  | nullChunk (id : UInt32)
  | unsupportedBits (bits : Nat)
  | rawDataBuffer
  | notRiff
  | notWave
  | noDs64
  | ds64Size
  | fmtSize
  | cbSize
  | formatTag (tag : Nat)
  | missingExtraData
  | subFormat
  | blockAlignment (got expected : Nat)
  | bytesPerSecond (got expected : Nat)
  | chnaSize
  | numUids (got : Nat)
  | numTracks (got : Nat)
  | noFmt
  | loops
  deriving DecidableEq

structure AudioId where
  trackIndex : UInt16
  uid : List UInt8
  trackRef : List UInt8
  packRef : List UInt8
  uid_length : uid.length = 12
  trackRef_length : trackRef.length = 14
  packRef_length : packRef.length = 11
  deriving DecidableEq

def spacePadded (n : Nat) (s : List UInt8) : List UInt8 := s ++ replicate (n - s.length) 32

theorem spacePadded_length {n : Nat} {s : List UInt8} (h : ¬n < s.length) :
    (spacePadded n s).length = n := by
  rw [spacePadded,length_append,length_replicate]
  omega

def AudioId.make (trackIndex : UInt16) (uid trackRef packRef : List UInt8) : Except Error AudioId :=
  if hu : 12 < uid.length then .error .uidTooLong
  else if ht : 14 < trackRef.length then .error .uidTooLong
  else if hp : 11 < packRef.length then .error .packRefTooLong
  else .ok
    { trackIndex := trackIndex
      uid := spacePadded 12 uid
      trackRef := spacePadded 14 trackRef
      packRef := spacePadded 11 packRef
      uid_length := spacePadded_length hu
      trackRef_length := spacePadded_length ht
      packRef_length := spacePadded_length hp }

def AudioId.bytes (a : AudioId) : List UInt8 :=
  le 2 a.trackIndex.toNat ++ (a.uid ++ (a.trackRef ++ (a.packRef ++ [32])))

theorem audioId_bytes_length (a : AudioId) : a.bytes.length = 40 := by
  simp only [AudioId.bytes,length_append,le_length,a.uid_length,a.trackRef_length,
    a.packRef_length,length_singleton]

variable (ids : List AudioId)

def numTracks : Nat := (ids.map AudioId.trackIndex).dedup.length % 65536

def numUids : Nat := ids.length % 65536

def audioIdBytes : List UInt8 := (ids.map AudioId.bytes).flatten

def chnaBytes : List UInt8 :=
  le 2 (numTracks ids) ++ (le 2 (numUids ids) ++ audioIdBytes ids)

theorem audioIdBytes_length : (audioIdBytes ids).length = ids.length * 40 := by
  induction ids with
  | nil => rfl
  | cons a ids ih =>
    rw [audioIdBytes,map_cons,flatten_cons,length_append,audioId_bytes_length,
      length_cons,Nat.succ_mul,Nat.add_comm,← ih]
    rfl

structure FormatInfo where
  channelCount : UInt16
  sampleRate : UInt32
  bitsPerSample : UInt16
  channelCount_pos : 1 ≤ channelCount
  sampleRate_pos : 1 ≤ sampleRate
  bits_supported : bitsPerSample = 16 ∨ bitsPerSample = 24 ∨ bitsPerSample = 32
  deriving DecidableEq

def FormatInfo.make (channels : UInt16) (sampleRate : UInt32) (bitDepth : UInt16) :
    Except Error FormatInfo :=
  if hc : channels < 1 then .error .channelCount
  else if hs : sampleRate < 1 then .error .sampleRate
  else if hb : bitDepth = 16 ∨ bitDepth = 24 ∨ bitDepth = 32 then
    .ok ⟨channels,sampleRate,bitDepth,UInt16.not_lt.mp hc,UInt32.not_lt.mp hs,hb⟩
  else .error (.bitDepth bitDepth)

def FormatInfo.blockAlignment (f : FormatInfo) : Nat :=
  f.channelCount.toNat * f.bitsPerSample.toNat / 8 % 65536

def FormatInfo.bytesPerSecond (f : FormatInfo) : Nat :=
  f.sampleRate.toNat * f.blockAlignment % 2 ^ 32

def FormatInfo.bytes (f : FormatInfo) : List UInt8 :=
  le 2 1 ++ (le 2 f.channelCount.toNat ++ (le 4 f.sampleRate.toNat ++ (le 4 f.bytesPerSecond ++
    (le 2 f.blockAlignment ++ le 2 f.bitsPerSample.toNat))))

structure DataSize64 where
  bw64Size : Nat
  dataSize : Nat
  dummySize : Nat
  table : List (UInt32 × Nat)
  deriving DecidableEq

def DataSize64.bytes (d : DataSize64) : List UInt8 :=
  le 8 d.bw64Size ++ (le 8 d.dataSize ++ (le 8 d.dummySize ++ (le 4 d.table.length ++
    (d.table.map fun e => le 4 e.1.toNat ++ le 8 e.2).flatten)))

inductive Chunk where
  | unknown (id : UInt32) (content : List UInt8)
  | format (info : FormatInfo)
  | data (size : Nat)
  | axml (text : List UInt8)
  | chna (ids : List AudioId)
  | ds64 (sizes : DataSize64)
  deriving DecidableEq

def Chunk.id : Chunk → UInt32
  | .unknown id _ => id
  | .format _ => fmtId
  | .data _ => dataId
  | .axml _ => axmlId
  | .chna _ => chnaId
  | .ds64 _ => ds64Id

def Chunk.size : Chunk → Nat
  | .unknown _ content => content.length
  | .format _ => 16
  | .data size => size
  | .axml text => text.length
  | .chna ids => 4 + numUids ids * 40
  | .ds64 sizes => 28 + sizes.table.length * 12

def Chunk.bytes : Chunk → List UInt8
  | .unknown _ content => content
  | .format info => info.bytes
  | .data _ => []
  | .axml text => text
  | .chna ids => chnaBytes ids
  | .ds64 sizes => sizes.bytes

def Chunk.Writes (c : Chunk) : Prop := c.bytes.length = c.size

theorem format_writes (info : FormatInfo) : (Chunk.format info).Writes := by
  simp [Chunk.Writes,Chunk.bytes,Chunk.size,FormatInfo.bytes]

theorem chna_writes {ids : List AudioId} (h : ids.length < 65536) : (Chunk.chna ids).Writes := by
  simp only [Chunk.Writes,Chunk.bytes,Chunk.size,chnaBytes,length_append,le_length,
    audioIdBytes_length,numUids,Nat.mod_eq_of_lt h]
  omega

theorem ds64_writes (sizes : DataSize64) : (Chunk.ds64 sizes).Writes := by
  have htable : ((sizes.table.map fun e => le 4 e.1.toNat ++ le 8 e.2).flatten).length =
      sizes.table.length * 12 := by
    induction sizes.table with
    | nil => rfl
    | cons e es ih =>
      rw [map_cons,flatten_cons,length_append,ih,length_append,le_length,
        le_length,length_cons]
      omega
  simp only [Chunk.Writes,Chunk.bytes,Chunk.size,DataSize64.bytes,length_append,le_length,
    htable]
  omega

def uint32Max : Nat := 2 ^ 32 - 1

def maxNumberOfUids : Nat := 1024

structure ChunkHeader where
  id : UInt32
  size : Nat
  position : Nat
  deriving DecidableEq

structure Writer where
  file : List UInt8
  pos : Nat
  chunks : List Chunk
  chunkHeaders : List ChunkHeader
  postDataChunks : List Chunk
  deriving DecidableEq

namespace Writer

variable {α : Type} (quantise : Nat → α → Int) (w : Writer)

def put (bs : List UInt8) : Writer :=
  { w with
    file := w.file.take w.pos ++ bs ++ w.file.drop (w.pos + bs.length)
    pos := w.pos + bs.length }

def seekp (pos : Nat) : Writer := { w with pos := pos }

def chunkHeader (id : UInt32) : Except Error ChunkHeader :=
  match w.chunkHeaders.find? fun h => h.id = id with
  | some h => .ok h
  | none => .error (.noChunk id)

def chunkSizeForHeader (id : UInt32) : Except Error Nat := do
  let h ← w.chunkHeader id
  if uint32Max ≤ h.size then .ok uint32Max else .ok h.size

def chunk (id : UInt32) : Option Chunk := w.chunks.find? fun c => c.id = id

def formatChunk : Except Error FormatInfo :=
  match w.chunk fmtId with
  | some (.format info) => .ok info
  | _ => .error (.nullChunk fmtId)

def dataChunkSize : Except Error Nat :=
  match w.chunk dataId with
  | some c => .ok c.size
  | none => .error (.nullChunk dataId)

def chunkImage (c : Chunk) (chunkSizeForHeader : Nat) : List UInt8 :=
  header c.id chunkSizeForHeader ++ if c.id ≠ dataId then c.bytes ++ padding c.size else []

def writeRiffHeader : Writer :=
  w.put (header riffId uint32Max ++ le 4 waveId.toNat)

def pushHeader (id : UInt32) (size : Nat) : Writer :=
  { w with chunkHeaders := w.chunkHeaders ++ [⟨id,size,w.pos⟩] }

def writeChunk (c : Chunk) : Except Error Writer := do
  let w := w.pushHeader c.id c.size
  let size ← w.chunkSizeForHeader c.id
  let w := w.put (chunkImage c size)
  .ok { w with chunks := w.chunks ++ [c] }

def writeChunks (w : Writer) : List Chunk → Except Error Writer
  | [] => .ok w
  | c :: cs => do
    let w ← w.writeChunk c
    w.writeChunks cs

def writeChunkPlaceholder (id : UInt32) (size : Nat) : Writer :=
  (w.pushHeader id size).put (header id size ++ replicate size 0)

def overwriteChunk (id : UInt32) (c : Chunk) : Except Error Writer := do
  let h ← w.chunkHeader id
  let size ← w.chunkSizeForHeader id
  .ok (((w.seekp h.position).put (chunkImage c size)).seekp w.pos)

def create (channels : UInt16) (sampleRate : UInt32) (bitDepth : UInt16)
    (additionalChunks : List Chunk) : Except Error Writer := do
  let w : Writer := ⟨[],0,[],[],[]⟩
  let w := w.writeRiffHeader.writeChunkPlaceholder junkId 28
  let info ← FormatInfo.make channels sampleRate bitDepth
  let w ← w.writeChunk (.format info)
  let w ← w.writeChunks additionalChunks
  let w := if w.chunk chnaId = none then w.writeChunkPlaceholder chnaId (maxNumberOfUids * 40 + 4)
    else w
  w.writeChunk (.data 0)

def setChnaChunk (ids : List AudioId) : Except Error Writer :=
  if 1024 < numUids ids then .error .tooManyUids
  else w.overwriteChunk chnaId (.chna ids)

def setAxmlChunk (c : Chunk) : Writer :=
  { w with postDataChunks := w.postDataChunks ++ [c] }

def setDataSize (size : Nat) : List Chunk → List Chunk
  | [] => []
  | c :: cs => if c.id = dataId then .data size :: cs else c :: setDataSize size cs

def setHeaderSize (size : Nat) : List ChunkHeader → List ChunkHeader
  | [] => []
  | h :: hs => if h.id = dataId then { h with size := size } :: hs else h :: setHeaderSize size hs

def sampleBytes (bits : Nat) (sampleValue : Int) : List UInt8 :=
  le (bits / 8) (sampleValue % 2 ^ 32).toNat

def encodePcmSamples (samples : List α) (bits : Nat) : Except Error (List UInt8) :=
  if bits = 16 ∨ bits = 24 ∨ bits = 32 then
    .ok (samples.flatMap fun x => sampleBytes bits (quantise bits x))
  else .error (.unsupportedBits bits)

def write (inBuffer : Nat → α) (frames : Nat) : Except Error Writer := do
  let info ← w.formatChunk
  let bytesWritten := frames * info.blockAlignment
  let raw ← encodePcmSamples quantise
    ((List.range (frames * info.channelCount.toNat)).map inBuffer) info.bitsPerSample.toNat
  if bytesWritten < raw.length then .error .rawDataBuffer
  else do
    let size ← w.dataChunkSize
    let w := w.put raw
    .ok { w with
      chunks := setDataSize (size + bytesWritten) w.chunks
      chunkHeaders := setHeaderSize (size + bytesWritten) w.chunkHeaders }

def riffChunkSize : Nat := w.file.length - 8

def isBw64File (dataSize : Nat) : Bool :=
  uint32Max < w.riffChunkSize ∨ uint32Max < dataSize

def finalizeDataChunk : Except Error Writer := do
  let size ← w.dataChunkSize
  let w := if size % 2 = 1 then w.put [0] else w
  let h ← w.chunkHeader dataId
  let field ← w.chunkSizeForHeader dataId
  .ok (((w.seekp h.position).put (header dataId field)).seekp w.pos)

def int32Max : Nat := 2 ^ 31 - 1

def finalizeRiffChunk : Except Error Writer := do
  let size ← w.dataChunkSize
  let last := w.pos
  if w.isBw64File size then do
    let w := (w.seekp 0).put (header bw64Id int32Max)
    let w ← w.overwriteChunk junkId (.ds64 ⟨w.riffChunkSize,size,0,[]⟩)
    .ok (w.seekp last)
  else .ok (((w.seekp 0).put (header riffId w.riffChunkSize)).seekp last)

def finish : Except Error Writer := do
  let w ← w.finalizeDataChunk
  let w ← w.writeChunks w.postDataChunks
  w.finalizeRiffChunk

end Writer

inductive Call (α : Type) where
  | write (inBuffer : Nat → α) (frames : Nat)
  | setChnaChunk (ids : List AudioId)
  | setAxmlChunk (c : Chunk)

def Call.run {α : Type} (quantise : Nat → α → Int) (w : Writer) : Call α → Except Error Writer
  | .write inBuffer frames => w.write quantise inBuffer frames
  | .setChnaChunk ids => w.setChnaChunk ids
  | .setAxmlChunk c => .ok (w.setAxmlChunk c)

structure Session (α : Type) where
  channels : UInt16
  sampleRate : UInt32
  bitDepth : UInt16
  additionalChunks : List Chunk
  calls : List (Call α)

def runCalls {α : Type} (quantise : Nat → α → Int) (w : Writer) : List (Call α) → Except Error Writer
  | [] => .ok w
  | c :: cs => do
    let w ← c.run quantise w
    runCalls quantise w cs

def Session.file {α : Type} (quantise : Nat → α → Int) (s : Session α) : Except Error (List UInt8) := do
  let w ← Writer.create s.channels s.sampleRate s.bitDepth s.additionalChunks
  let w ← runCalls quantise w s.calls
  let w ← w.finish
  .ok w.file

end FuzzingTargets.Bw64
