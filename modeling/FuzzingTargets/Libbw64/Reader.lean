import FuzzingTargets.Libbw64.Writer
import FuzzingTargets.Foundation.Checked

namespace FuzzingTargets.Bw64
open LittleEndian Riff Checked Slices

structure IStream where
  file : List UInt8
  pos : Nat
  eof : Bool
  fail : Bool
  stale : Nat → Nat → UInt8
  shortReads : Nat

namespace IStream

def openFile (file : List UInt8) (stale : Nat → Nat → UInt8) : IStream :=
  ⟨file,0,false,false,stale,0⟩

variable (fill : Nat → UInt8) (n : Nat) (s : IStream)

def clear : IStream := { s with eof := false, fail := false }

def skip : IStream := { s with pos := s.pos + n }

def read : List UInt8 × IStream :=
  let got := (s.file.drop s.pos).take n
  if s.eof ∨ s.fail then
    ((List.range n).map fill,{ s with fail := true, shortReads := s.shortReads + 1 })
  else if got.length < n then
    (got ++ (List.range (n - got.length)).map fun i => fill (got.length + i),
      { s.skip got.length with eof := true, fail := true, shortReads := s.shortReads + 1 })
  else (got,s.skip n)

def readUninitialised : List UInt8 × IStream :=
  s.read (s.stale s.shortReads) n

def readZeroed : List UInt8 × IStream := s.read (fun _ => 0) n

def peekEof : Bool × IStream :=
  if s.eof ∨ s.fail then (true,{ s with fail := true })
  else if s.file.length ≤ s.pos then (true,{ s with eof := true })
  else (false,s)

def seekg (target : Int) (s : IStream) : IStream :=
  if s.fail then { s with eof := false }
  else if target < 0 then { s with eof := false, fail := true }
  else { s with eof := false, pos := target.toNat }

def streamoff (n : Int) : Int := n.bmod (2 ^ 64)

def seekCur (offset : Int) (s : IStream) : IStream := s.seekg (s.pos + streamoff offset)

def tellg : Int × IStream :=
  if s.eof ∨ s.fail then (-1,{ s with fail := true }) else (s.pos,s)

def restart : IStream := { s with pos := n, eof := false, fail := false }

def Good : Prop := s.eof = false ∧ s.fail = false

end IStream

abbrev Parse (α : Type) := StateT IStream (Except Error) α

def readValue (n : Nat) : Parse Nat := fun s =>
  .ok (ofLe (s.readUninitialised n).1,(s.readUninitialised n).2)

def readChars (n : Nat) : Parse (List UInt8) := fun s => .ok (s.readUninitialised n)

def readBuffer (n : Nat) : Parse (List UInt8) := fun s => .ok (s.readZeroed n)

def seekgCur (offset : Int) : Parse Unit := fun s => .ok ((),s.seekCur offset)

def tellPosition : Parse Nat := fun s => .ok ((s.tellg.1 % 2 ^ 64).toNat,s.tellg.2)

def raise {α : Type} (e : Error) : Parse α := fun _ => .error e

def require (p : Prop) [Decidable p] (e : Error) : Parse Unit := fun s =>
  if p then .ok ((),s) else .error e

def lift {α : Type} (r : Except Error α) : Parse α := fun s => r.map fun a => (a,s)

def Reads {α : Type} (p : Parse α) (bytes : List UInt8) (v : α) : Prop :=
  ∀ s : IStream, s.Good → At s.file s.pos bytes → p s = .ok (v,s.skip bytes.length)

section

variable {α β : Type} {p : Parse α} {k : α → Parse β}

theorem read_exact {s : IStream} {bytes : List UInt8} (hs : s.Good) (h : At s.file s.pos bytes)
    (fill : Nat → UInt8) : s.read fill bytes.length = (bytes,s.skip bytes.length) := by
  unfold IStream.read
  rw [if_neg (by simp [hs.1,hs.2]),at_take h,if_neg (Nat.lt_irrefl _)]

theorem Reads.result (v : α) : Reads (pure v) [] v := fun _ _ _ => rfl

theorem run_bind (p : Parse α) (k : α → Parse β) (s : IStream) :
    (p >>= k) s = (p s >>= fun r => k r.1 r.2) := rfl

theorem Reads.silent {ys : List UInt8} {a : α} {b : β} (hp : Reads p [] a) (hk : Reads (k a) ys b) :
    Reads (p >>= k) ys b := by
  intro s hs hat
  rw [run_bind,hp s hs (at_nil _ _),bind_ok]
  exact hk s hs hat

theorem Reads.bind {xs ys : List UInt8} {a : α} {b : β} (hp : Reads p xs a) (hk : Reads (k a) ys b) :
    Reads (p >>= k) (xs ++ ys) b := by
  intro s hs hat
  obtain ⟨hx,hy⟩ := at_append.mp hat
  have hrest := hk (s.skip xs.length) hs hy
  rw [run_bind,hp s hs hx,bind_ok,hrest,List.length_append]
  simp only [IStream.skip,Nat.add_assoc]

theorem Reads.value {n v : Nat} (hv : v < 256 ^ n) : Reads (readValue n) (le n v) v := by
  intro s hs hat
  have hread := read_exact hs hat (s.stale s.shortReads)
  rw [le_length] at hread ⊢
  unfold readValue IStream.readUninitialised
  rw [hread,ofLe_le_of_lt hv]

theorem reads_readChars (bytes : List UInt8) : Reads (readChars bytes.length) bytes bytes :=
  fun s hs hat => congrArg Except.ok (read_exact hs hat (s.stale s.shortReads))

theorem reads_readBuffer (bytes : List UInt8) : Reads (readBuffer bytes.length) bytes bytes :=
  fun _ hs hat => congrArg Except.ok (read_exact hs hat fun _ => 0)

theorem Reads.check {p : Prop} [Decidable p] (h : p) (e : Error) : Reads (require p e) [] () :=
  fun _ _ _ => if_pos h

theorem Reads.lifted {r : Except Error α} {v : α} (h : r = .ok v) : Reads (lift r) [] v := by
  intro s _ _
  rw [lift,h]
  rfl

theorem Reads.mapped {bytes : List UInt8} {a : α} (hp : Reads p bytes a) (f : α → β) :
    Reads (do
      let a ← p
      pure (f a)) bytes (f a) := by
  have h : Reads (p >>= fun a => pure (f a)) (bytes ++ []) (f a) := .bind hp (.result (f a))
  rwa [List.append_nil] at h

theorem streamoff_small {n : Nat} (h : n < 2 ^ 63) : IStream.streamoff n = n := by
  unfold IStream.streamoff
  rw [Int.bmod_eq_of_le (by omega) (by omega)]

theorem seekCur_small {s : IStream} (hs : s.Good) {n : Nat} (hn : n < 2 ^ 63) :
    s.seekCur n = s.skip n := by
  unfold IStream.seekCur IStream.seekg
  rw [streamoff_small hn,if_neg (by simp [hs.2]),if_neg (by omega),IStream.skip,hs.1]
  congr 1

theorem reads_seekgCur (bytes : List UInt8) (h : bytes.length < 2 ^ 63) :
    Reads (seekgCur bytes.length) bytes () := by
  intro s hs _
  unfold seekgCur
  rw [seekCur_small hs h]

end

structure ExtraData where
  validBitsPerSample : Nat
  dwChannelMask : Nat
  subFormat : Nat
  subFormatString : List UInt8
  deriving DecidableEq

def parseExtraData : Parse ExtraData := do
  let validBitsPerSample ← readValue 2
  let dwChannelMask ← readValue 4
  let subFormat ← readValue 2
  let subFormatString ← readChars 14
  pure ⟨validBitsPerSample,dwChannelMask,subFormat,subFormatString⟩

def checkSubFormat (formatTag : Nat) (extraData : Option ExtraData) : Parse Unit := do
  require (formatTag = 1 ∨ formatTag = 0xfffe) (.formatTag formatTag)
  require (formatTag = 0xfffe → extraData.isSome) .missingExtraData
  require (formatTag = 0xfffe → (extraData.map ExtraData.subFormat) = some 1) .subFormat

def parseExtension (size : Nat) : Parse (Option ExtraData) := do
  let cbSize ← if 16 < size then readValue 2 else pure 0
  let extraData ← if 18 < size ∧ 0 < cbSize then some <$> parseExtraData else pure none
  require (cbSize = 0 ∨ cbSize = 22) .cbSize
  pure extraData

structure FormatInfoChunk where
  info : FormatInfo
  extraData : Option ExtraData
  deriving DecidableEq

def parseFormatInfoChunk (size : Nat) : Parse FormatInfoChunk := do
  require (size = 16 ∨ size = 18 ∨ size = 40) .fmtSize
  let formatTag ← readValue 2
  let channelCount ← readValue 2
  let sampleRate ← readValue 4
  let bytesPerSecond ← readValue 4
  let blockAlignment ← readValue 2
  let bitsPerSample ← readValue 2
  let extraData ← parseExtension size
  checkSubFormat formatTag extraData
  let info ← lift (FormatInfo.make (UInt16.ofNat channelCount) (UInt32.ofNat sampleRate)
    (UInt16.ofNat bitsPerSample))
  require (info.blockAlignment = blockAlignment)
    (.blockAlignment blockAlignment info.blockAlignment)
  require (info.bytesPerSecond = bytesPerSecond)
    (.bytesPerSecond bytesPerSecond info.bytesPerSecond)
  pure ⟨info,extraData⟩

def parseAudioId : Parse AudioId := do
  let trackIndex ← readValue 2
  let uid ← readChars 12
  let trackRef ← readChars 14
  let packRef ← readChars 11
  seekgCur 1
  lift (AudioId.make (UInt16.ofNat trackIndex) uid trackRef packRef)

def parseAudioIds : Nat → Parse (List AudioId)
  | 0 => pure []
  | n + 1 => do
    let a ← parseAudioId
    let ids ← parseAudioIds n
    pure (a :: ids)

def parseChnaChunk (size : Nat) : Parse (List AudioId) := do
  require (4 ≤ size) .chnaSize
  let tracks ← readValue 2
  let uids ← readValue 2
  let ids ← parseAudioIds uids
  require (numUids ids = uids) (.numUids (numUids ids))
  require (numTracks ids = tracks) (.numTracks (numTracks ids))
  pure ids

def setTable (table : List (UInt32 × Nat)) (id : UInt32) (size : Nat) : List (UInt32 × Nat) :=
  (id,size) :: table.filter fun e => e.1 ≠ id

def parseTable : Nat → List (UInt32 × Nat) → Parse (List (UInt32 × Nat))
  | 0, table => pure table
  | n + 1, table => do
    let id ← readValue 4
    let size ← readValue 8
    parseTable n (setTable table (UInt32.ofNat id) size)

def parseDataSize64Chunk (size : Nat) : Parse DataSize64 := do
  require (28 ≤ size) .ds64Size
  let bw64Size ← readValue 8
  let dataSize ← readValue 8
  let _dummySize ← readValue 8
  let tableLength ← readValue 4
  let table ← parseTable tableLength []
  seekgCur ((size : Int) - 28 - (12 * tableLength % 2 ^ 32 : Nat))
  pure ⟨bw64Size,dataSize,0,table⟩

inductive ChunkValue where
  | format (c : FormatInfoChunk)
  | chna (audioIds : List AudioId)
  | ds64 (sizes : DataSize64)
  | axml (data : List UInt8)
  | unknown (id : UInt32) (data : List UInt8)
  deriving DecidableEq

inductive Parsed where
  | value (c : ChunkValue)
  | data (size : Nat)
  deriving DecidableEq

def parseValue (id : UInt32) (size : Nat) : Parse Parsed :=
  if id = ds64Id then do
    let sizes ← parseDataSize64Chunk size
    pure (.value (.ds64 sizes))
  else if id = fmtId then do
    let c ← parseFormatInfoChunk size
    pure (.value (.format c))
  else if id = axmlId then do
    let text ← readBuffer size
    pure (.value (.axml text))
  else if id = chnaId then do
    let ids ← parseChnaChunk size
    pure (.value (.chna ids))
  else if id = dataId then pure (.data size)
  else do
    let content ← readBuffer size
    pure (.value (.unknown id content))

def Parsed.chunk : Parsed → Chunk
  | .value (.format c) => .format c.info
  | .value (.chna ids) => .chna ids
  | .value (.ds64 sizes) => .ds64 sizes
  | .value (.axml text) => .axml text
  | .value (.unknown id content) => .unknown id content
  | .data size => .data size

def parseChunkValue (h : ChunkHeader) : Parse Parsed := fun s =>
  parseValue h.id h.size (s.clear.seekg (IStream.streamoff (h.position + 8)))

def parseChunk (h : ChunkHeader) : Parse Chunk := do
  let p ← parseChunkValue h
  pure p.chunk

def getChunkSize64 (ds64 : Option DataSize64) (id : UInt32) (size : Nat) : Nat :=
  match ds64 with
  | none => size
  | some d =>
    if id = bw64Id ∨ id = rf64Id then d.bw64Size
    else if id = dataId then d.dataSize
    else (d.table.lookup id).getD size

def parseHeader (ds64 : Option DataSize64) : Parse ChunkHeader := do
  let position ← tellPosition
  let id ← readValue 4
  let size ← readValue 4
  pure ⟨UInt32.ofNat id,getChunkSize64 ds64 (UInt32.ofNat id) size,position⟩

def peekEnd : Parse Bool := fun s => .ok s.peekEof

def parseChunkHeaders (ds64 : Option DataSize64) : Nat → Parse (List ChunkHeader)
  | 0 => raise .loops
  | fuel + 1 => do
    let atEnd ← peekEnd
    if atEnd then pure []
    else do
      let h ← parseHeader ds64
      let size := getChunkSize64 ds64 h.id h.size
      seekgCur (if size % 2 = 0 then size else size + 1)
      let rest ← parseChunkHeaders ds64 fuel
      pure (⟨h.id,size,h.position⟩ :: rest)

def parseChunks : List ChunkHeader → Parse (List Chunk)
  | [] => pure []
  | h :: hs =>
    if h.id = ds64Id then parseChunks hs
    else do
      let c ← parseChunk h
      let cs ← parseChunks hs
      pure (c :: cs)

def readRiffChunk : Parse (UInt32 × Nat) := do
  let fileFormat ← readValue 4
  let fileSize ← readValue 4
  let riffType ← readValue 4
  require (UInt32.ofNat fileFormat = riffId ∨ UInt32.ofNat fileFormat = bw64Id ∨
    UInt32.ofNat fileFormat = rf64Id) .notRiff
  require (UInt32.ofNat riffType = waveId) .notWave
  pure (UInt32.ofNat fileFormat,fileSize)

def readDs64 (fileFormat : UInt32) : Parse (Option DataSize64 × List ChunkHeader) :=
  if fileFormat = bw64Id ∨ fileFormat = rf64Id then do
    let h ← parseHeader none
    require (h.id = ds64Id) .noDs64
    let sizes ← parseDataSize64Chunk h.size
    pure (some sizes,[h])
  else pure (none,[])

inductive Trap where
  | divideByZero
  | lengthError
  | outOfBounds
  | thrown (e : Error)
  deriving DecidableEq

def quotient (n d : Nat) : Except Trap Nat := if d = 0 then .error .divideByZero else .ok (n / d)

def maxSize : Nat := 2 ^ 63 - 1

def throwing {α : Type} : Except Error α → Except Trap α
  | .ok a => .ok a
  | .error e => .error (.thrown e)

structure Reader where
  stream : IStream
  fileFormat : UInt32
  fileSize : Nat
  chunkHeaders : List ChunkHeader
  chunks : List Chunk
  info : FormatInfo

namespace Reader

variable (r : Reader)

def chunk (id : UInt32) : Option Chunk := r.chunks.find? fun c => c.id = id

def getChunkHeader (id : UInt32) : Except Error ChunkHeader :=
  match r.chunkHeaders.find? fun h => h.id = id with
  | some h => .ok h
  | none => .error (.noChunk id)

def dataChunkSize : Nat := ((r.chunk dataId).map Chunk.size).getD 0

def channels : UInt16 := r.info.channelCount

def sampleRate (r : Reader) : UInt32 := r.info.sampleRate

def bitDepth : UInt16 := r.info.bitsPerSample

def blockAlignment : Nat := r.channels.toNat * r.bitDepth.toNat / 8 % 65536

def numberOfFrames : Nat := r.dataChunkSize / r.blockAlignment

def axmlText : Option (List UInt8) :=
  match r.chunk axmlId with
  | some (.axml text) => some text
  | _ => none

def audioIds : List AudioId :=
  match r.chunk chnaId with
  | some (.chna ids) => ids
  | _ => []

inductive Seekdir where
  | beg
  | cur
  | fin
  deriving DecidableEq

def seek (offset : Int) (way : Seekdir) (r : Reader) : Except Error Reader := do
  let frameOffset := offset * r.info.blockAlignment
  let h ← r.getChunkHeader dataId
  let chunkPosition := IStream.streamoff (h.position + 8)
  let dataEnd := IStream.streamoff (chunkPosition + r.dataChunkSize)
  let dataChunkOffset := match way with
    | .cur => r.stream.tellg.1
    | .beg => chunkPosition
    | .fin => dataEnd
  let s := r.stream.clear
  let s := if frameOffset < 0 ∧ dataChunkOffset < -frameOffset then s.seekg 0
    else s.seekg (IStream.streamoff (dataChunkOffset + frameOffset))
  let fileStreamPos := s.tellg.1
  let s := if fileStreamPos < chunkPosition then s.seekg chunkPosition
    else if dataEnd < fileStreamPos then s.seekg dataEnd
    else s
  .ok { r with stream := s }

def firstFormat (chunks : List Chunk) : Except Error FormatInfo :=
  match chunks.find? fun c => c.id = fmtId with
  | some (.format info) => .ok info
  | _ => .error .noFmt

def readFile (fuel : Nat) (file : List UInt8) (stale : Nat → Nat → UInt8) : Except Error Reader := do
  let ((fileFormat,fileSize),s) ← readRiffChunk (IStream.openFile file stale)
  let ((ds64,first),s) ← readDs64 fileFormat s
  let (rest,s) ← parseChunkHeaders ds64 fuel s
  let (cs,s) ← parseChunks (first ++ rest) s
  let chunks := ds64.toList.map Chunk.ds64 ++ cs
  let info ← firstFormat chunks
  seek 0 .beg ⟨s,fileFormat,fileSize,first ++ rest,chunks,info⟩

def framesOrTrap (r : Reader) : Except Trap Nat := quotient r.dataChunkSize r.blockAlignment

def tellOrTrap (r : Reader) : Except Trap (Nat × Reader) := do
  let h ← throwing (r.getChunkHeader dataId)
  let frame ← quotient ((r.stream.tellg.1 - h.position - 8) % 2 ^ 64).toNat r.info.blockAlignment
  .ok (frame,{ r with stream := r.stream.tellg.2 })

def eofOrTrap (r : Reader) : Except Trap (Bool × Reader) := do
  let (current,r) ← r.tellOrTrap
  let frames ← r.framesOrTrap
  .ok (decide (current = frames),r)

def clampOrTrap (frames : Nat) (r : Reader) : Except Trap (Nat × Reader) := do
  let (current,r) ← r.tellOrTrap
  let total ← r.framesOrTrap
  if total < (current + frames) % 2 ^ 64 then do
    let (current,r) ← r.tellOrTrap
    .ok ((((total : Int) - current) % 2 ^ 64).toNat,r)
  else .ok (frames,r)

def decodedBytes (frames : Nat) : Nat :=
  frames * r.channels.toNat % 2 ^ 64 * (r.bitDepth.toNat / 8)

def readOrTrap (rawDataBuffer : List UInt8) (frames : Nat) (r : Reader) :
    Except Trap (Nat × List UInt8 × Reader) := do
  let (frames,r) ← r.clampOrTrap frames
  let size := frames * r.blockAlignment % 2 ^ 64
  if maxSize < size then .error .lengthError
  else
    let (raw,s) := r.stream.read (fun i => rawDataBuffer.getD i 0) size
    if size < r.decodedBytes frames then .error .outOfBounds
    else .ok (frames,raw,{ r with stream := s })

def readRaw (rawDataBuffer : List UInt8) (frames : Nat) (r : Reader) :
    Except Trap (List UInt8 × Reader) :=
  (r.readOrTrap rawDataBuffer frames).map Prod.snd

end Reader

end FuzzingTargets.Bw64
