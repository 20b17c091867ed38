import FuzzingTargets.Libbw64.Reader
import FuzzingTargets.Libbw64.Sessions

namespace FuzzingTargets.Bw64
open LittleEndian Riff Checked Slices List

theorem formatInfo_make (info : FormatInfo) :
    FormatInfo.make info.channelCount info.sampleRate info.bitsPerSample = .ok info := by
  unfold FormatInfo.make
  rw [dif_neg (UInt16.not_lt.mpr info.channelCount_pos),
    dif_neg (UInt32.not_lt.mpr info.sampleRate_pos),dif_pos info.bits_supported]

theorem reads_formatInfo (info : FormatInfo) :
    Reads (parseFormatInfoChunk 16) info.bytes ⟨info,none⟩ := by
  have hbps : info.bytesPerSecond < 256 ^ 4 := Nat.mod_lt _ (by decide)
  have halign : info.blockAlignment < 256 ^ 2 := Nat.mod_lt _ (by decide)
  have hext : Reads (parseExtension 16) [] none := fun _ _ _ => rfl
  have hsub : Reads (checkSubFormat 1 none) [] () := fun _ _ _ => rfl
  have hmake : FormatInfo.make (UInt16.ofNat info.channelCount.toNat)
      (UInt32.ofNat info.sampleRate.toNat) (UInt16.ofNat info.bitsPerSample.toNat) = .ok info := by
    rw [UInt16.ofNat_toNat,UInt32.ofNat_toNat,UInt16.ofNat_toNat,formatInfo_make]
  refine .silent (.check (.inl rfl) _) ?_
  refine .bind (.value (by decide)) ?_
  refine .bind (.value info.channelCount.toNat_lt) ?_
  refine .bind (.value info.sampleRate.toNat_lt) ?_
  refine .bind (.value hbps) ?_
  refine .bind (.value halign) ?_
  refine .bind (.value info.bitsPerSample.toNat_lt) ?_
  refine .silent hext ?_
  refine .silent hsub ?_
  refine .silent (.lifted hmake) ?_
  refine .silent (.check rfl _) ?_
  refine .silent (.check rfl _) ?_
  exact .result _

theorem spacePadded_full {n : Nat} {s : List UInt8} (h : s.length = n) : spacePadded n s = s := by
  rw [spacePadded,h,Nat.sub_self,replicate_zero,append_nil]

theorem audioId_make (a : AudioId) :
    AudioId.make a.trackIndex a.uid a.trackRef a.packRef = .ok a := by
  have hu := a.uid_length
  have ht := a.trackRef_length
  have hp := a.packRef_length
  unfold AudioId.make
  rw [dif_neg (by omega),dif_neg (by omega),dif_neg (by omega)]
  simp only [spacePadded_full hu,spacePadded_full ht,spacePadded_full hp]

def AudioId.image (a : AudioId) (padding : UInt8) : List UInt8 :=
  le 2 a.trackIndex.toNat ++ (a.uid ++ (a.trackRef ++ (a.packRef ++ [padding])))

theorem reads_image (a : AudioId) (padding : UInt8) : Reads parseAudioId (a.image padding) a := by
  have hmake : AudioId.make (UInt16.ofNat a.trackIndex.toNat) a.uid a.trackRef a.packRef = .ok a := by
    rw [UInt16.ofNat_toNat,audioId_make]
  refine .bind (.value a.trackIndex.toNat_lt) ?_
  rw [← a.uid_length,← a.trackRef_length,← a.packRef_length]
  refine .bind (reads_readChars a.uid) ?_
  refine .bind (reads_readChars a.trackRef) ?_
  refine .bind (reads_readChars a.packRef) ?_
  refine .bind (reads_seekgCur [padding] (by norm_num)) ?_
  exact .lifted hmake

theorem reads_audioIds (ids : List AudioId) :
    Reads (parseAudioIds ids.length) (audioIdBytes ids) ids := by
  induction ids with
  | nil => exact .result []
  | cons a ids ih =>
    refine .bind (reads_image a 32) ?_
    exact .mapped ih (a :: ·)

theorem reads_chna {ids : List AudioId} (hids : ids.length < 65536) {size : Nat}
    (hsize : 4 ≤ size) : Reads (parseChnaChunk size) (chnaBytes ids) ids := by
  have huids : numUids ids = ids.length := Nat.mod_eq_of_lt hids
  refine .silent (.check hsize _) ?_
  refine .bind (.value (Nat.mod_lt _ (by decide))) ?_
  refine .bind (.value (Nat.mod_lt _ (by decide))) ?_
  rw [huids,← append_nil (audioIdBytes ids)]
  refine .bind (reads_audioIds ids) ?_
  refine .silent (.check huids _) ?_
  refine .silent (.check rfl _) ?_
  exact .result ids

theorem reads_ds64 {riffSize dataSize : Nat} (hriff : riffSize < 2 ^ 64) (hdata : dataSize < 2 ^ 64) :
    Reads (parseDataSize64Chunk 28) (DataSize64.bytes ⟨riffSize,dataSize,0,[]⟩)
      ⟨riffSize,dataSize,0,[]⟩ := by
  refine .silent (.check (by decide) _) ?_
  refine .bind (.value hriff) ?_
  refine .bind (.value hdata) ?_
  refine .bind (.value (by decide : 0 < 256 ^ 8)) ?_
  refine .bind (.value (by decide : 0 < 256 ^ 4)) ?_
  refine .silent (.result []) ?_
  refine .silent (reads_seekgCur [] (by decide)) ?_
  exact .result _

inductive Yields : Segment → Chunk → Prop
  | format (size : Nat) (info : FormatInfo) : Yields ⟨fmtId,size,info.bytes⟩ (.format info)
  | axml (size : Nat) (text : List UInt8) : Yields ⟨axmlId,size,text⟩ (.axml text)
  | chna (size : Nat) (ids : List AudioId) (tail : List UInt8) (few : ids.length < 65536) :
      Yields ⟨chnaId,size,chnaBytes ids ++ tail⟩ (.chna ids)
  | data (size : Nat) (content : List UInt8) : Yields ⟨dataId,size,content⟩ (.data content.length)
  | junk (size : Nat) (content : List UInt8) :
      Yields ⟨junkId,size,content⟩ (.unknown junkId content)

theorem yields_id {x : Segment} {c : Chunk} (h : Yields x c) :
    x.id ≠ ds64Id ∧ x.id ≠ bw64Id ∧ x.id ≠ rf64Id := by
  cases h <;> dsimp only <;> decide

theorem yields_parseValue {x : Segment} {c : Chunk} (h : Yields x c) {s : IStream} (hs : s.Good)
    (hat : At s.file s.pos x.payload) :
    ∃ p s', parseValue x.id x.payload.length s = .ok (p,s') ∧ p.chunk = c ∧ s'.file = s.file := by
  cases h with
  | format size info =>
    have hread : Reads (parseValue fmtId info.bytes.length) info.bytes (.value (.format ⟨info,none⟩)) :=
      .mapped (reads_formatInfo info) fun c => Parsed.value (.format c)
    exact ⟨_,_,hread s hs hat,rfl,rfl⟩
  | axml size text =>
    have hread : Reads (parseValue axmlId text.length) text (.value (.axml text)) :=
      .mapped (reads_readBuffer text) fun text => Parsed.value (.axml text)
    exact ⟨_,_,hread s hs hat,rfl,rfl⟩
  | chna size ids tail few =>
    have hlen : 4 ≤ (chnaBytes ids ++ tail).length := by
      simp only [chnaBytes,length_append,le_length]
      omega
    have hread : Reads (parseValue chnaId (chnaBytes ids ++ tail).length) (chnaBytes ids)
        (.value (.chna ids)) := .mapped (reads_chna few hlen) fun ids => Parsed.value (.chna ids)
    exact ⟨_,_,hread s hs (at_append.mp hat).1,rfl,rfl⟩
  | data size content =>
    have hread : Reads (parseValue dataId content.length) [] (.data content.length) := .result _
    exact ⟨_,_,hread s hs (at_nil _ _),rfl,rfl⟩
  | junk size content =>
    have hread : Reads (parseValue junkId content.length) content (.value (.unknown junkId content)) :=
      .mapped (reads_readBuffer content) fun content => Parsed.value (.unknown junkId content)
    exact ⟨_,_,hread s hs hat,rfl,rfl⟩

theorem seekg_clear (s : IStream) {n : Nat} (hn : n < 2 ^ 63) :
    s.clear.seekg (IStream.streamoff n) = s.restart n := by
  rw [streamoff_small hn]
  rfl

theorem parseChunks_yields {xs : List Segment} {cs : List Chunk} (h : Forall₂ Yields xs cs)
    {p : Nat} {s : IStream} (hat : At s.file p (render xs)) (hsmall : p + (render xs).length < 2 ^ 63) :
    ∃ s', parseChunks (headersOf p xs) s = .ok (cs,s') ∧ s'.file = s.file := by
  induction h generalizing p s with
  | nil => exact ⟨s,rfl,rfl⟩
  | @cons x c xs cs hx _ ih =>
    rw [render_cons] at hat hsmall
    rw [length_append,bytes_length] at hsmall
    obtain ⟨hhead,htail⟩ := at_append.mp hat
    have hpayload : At s.file (p + 8) x.payload := by
      have hbody := (at_append.mp hhead).2
      exact (at_append.mp hbody).1
    obtain ⟨v,s1,hrun,rfl,hfile⟩ := @yields_parseValue x c hx (s.restart (p + 8)) ⟨rfl,rfl⟩
      hpayload
    have hvalue : parseChunkValue ⟨x.id,x.payload.length,p⟩ s = .ok (v,s1) := by
      have hseek := @seekg_clear s (p + 8) (by omega)
      unfold parseChunkValue
      rw [← hrun]
      exact congrArg _ hseek
    have hchunk : parseChunk ⟨x.id,x.payload.length,p⟩ s = .ok (v.chunk,s1) := by
      rw [parseChunk,run_bind,hvalue,bind_ok]
      rfl
    have hfile' : s1.file = s.file := hfile
    obtain ⟨s2,hrest,hfile2⟩ := @ih (p + x.bytes.length) s1 (hfile' ▸ htail) (by
      rw [bytes_length]
      omega)
    refine ⟨s2,?_,hfile2.trans hfile'⟩
    rw [headersOf,parseChunks,if_neg (yields_id hx).1,run_bind,hchunk,bind_ok,run_bind,hrest,
      bind_ok]
    rfl

section

variable {ds64 : Option DataSize64} {s : IStream}

theorem parseHeader_header (hs : s.Good) {id : UInt32} {size : Nat} (hsize : size < 2 ^ 32)
    (hat : At s.file s.pos (header id size)) (hpos : s.pos < 2 ^ 63) :
    parseHeader ds64 s = .ok (⟨id,getChunkSize64 ds64 id size,s.pos⟩,s.skip 8) := by
  have htell : tellPosition s = .ok (s.pos,s) := by
    unfold tellPosition IStream.tellg
    rw [if_neg (by simp [hs.1,hs.2])]
    congr 2
    omega
  have hread : Reads (do
      let id ← readValue 4
      let size ← readValue 4
      pure (f := Parse) (⟨UInt32.ofNat id,getChunkSize64 ds64 (UInt32.ofNat id) size,s.pos⟩ :
        ChunkHeader)) (header id size) ⟨id,getChunkSize64 ds64 id size,s.pos⟩ := by
    refine .bind (.value id.toNat_lt) ?_
    rw [UInt32.ofNat_toNat]
    exact .mapped (.value hsize) fun size =>
      ChunkHeader.mk id (getChunkSize64 ds64 id size) s.pos
  have hrun := hread s hs hat
  unfold parseHeader
  rw [run_bind,htell,bind_ok]
  exact hrun

theorem padded_size (n : Nat) : (if n % 2 = 0 then (n : Int) else n + 1) = ((n + n % 2 : Nat) : Int) := by
  split <;> omega

theorem parseChunkHeaders_render {xs : List Segment} {fuel : Nat} (hs : s.Good)
    (hdrop : s.file.drop s.pos = render xs) (hfield : ∀ x ∈ xs, x.size < 2 ^ 32)
    (hsize : ∀ x ∈ xs, getChunkSize64 ds64 x.id x.size = x.payload.length)
    (hsame : ∀ x ∈ xs, getChunkSize64 ds64 x.id x.payload.length = x.payload.length)
    (hfuel : xs.length < fuel) (hsmall : s.file.length < 2 ^ 63) :
    ∃ s', parseChunkHeaders ds64 fuel s = .ok (headersOf s.pos xs,s') ∧ s'.file = s.file := by
  induction xs generalizing s fuel with
  | nil =>
    obtain _ | fuel := fuel
    · omega
    have hend : s.file.length ≤ s.pos := drop_eq_nil_iff.mp hdrop
    have hpeek : peekEnd s = .ok (true,{ s with eof := true }) := by
      unfold peekEnd IStream.peekEof
      rw [if_neg (by simp [hs.1,hs.2]),if_pos hend]
    refine ⟨{ s with eof := true },?_,rfl⟩
    rw [parseChunkHeaders,run_bind,hpeek,bind_ok]
    rfl
  | cons x xs ih =>
    obtain _ | fuel := fuel
    · omega
    have hlen := congrArg List.length hdrop
    rw [render_cons,length_append,bytes_length,length_drop] at hlen
    have hat : At s.file s.pos (header x.id x.size ++ (x.payload ++ padding x.payload.length) ++
        render xs) := at_full hdrop
    obtain ⟨hbytes,-⟩ := at_append.mp hat
    have hpeek : peekEnd s = .ok (false,s) := by
      unfold peekEnd IStream.peekEof
      rw [if_neg (by simp [hs.1,hs.2]),if_neg (by omega)]
    have hheader := @parseHeader_header ds64 s hs x.id x.size (hfield x mem_cons_self)
      (at_append.mp hbytes).1 (by omega)
    rw [hsize x mem_cons_self] at hheader
    have hseek : seekgCur (if x.payload.length % 2 = 0 then (x.payload.length : Int)
        else x.payload.length + 1) (s.skip 8) = .ok ((),s.skip x.bytes.length) := by
      unfold seekgCur
      rw [padded_size,seekCur_small (s := s.skip 8) hs (by omega),bytes_length]
      simp only [IStream.skip,Nat.add_assoc]
    have hdrop' : (s.skip x.bytes.length).file.drop (s.skip x.bytes.length).pos = render xs := by
      have hsplit := congrArg (List.drop x.bytes.length) hdrop
      rw [drop_drop,render_cons,drop_left] at hsplit
      exact hsplit
    rw [length_cons] at hfuel
    obtain ⟨s1,hrest,hfile⟩ := @ih (s.skip x.bytes.length) fuel hs hdrop'
      (forall_mem_cons.mp hfield).2
      (forall_mem_cons.mp hsize).2
      (forall_mem_cons.mp hsame).2 (by omega) hsmall
    refine ⟨s1,?_,hfile⟩
    rw [parseChunkHeaders,run_bind,hpeek,bind_ok,if_neg Bool.false_ne_true,run_bind,hheader,bind_ok]
    rw [hsame x mem_cons_self,run_bind,hseek,bind_ok,run_bind,hrest,bind_ok]
    rfl

theorem scan_render {xs : List Segment} {cs : List Chunk} {fuel : Nat} (hs : s.Good)
    (hdrop : s.file.drop s.pos = render xs) (hyields : Forall₂ Yields xs cs)
    (hfield : ∀ x ∈ xs, x.size < 2 ^ 32)
    (hsize : ∀ x ∈ xs, getChunkSize64 ds64 x.id x.size = x.payload.length)
    (hsame : ∀ x ∈ xs, getChunkSize64 ds64 x.id x.payload.length = x.payload.length)
    (hfuel : xs.length < fuel) (hsmall : s.pos + (render xs).length < 2 ^ 63) :
    ∃ s1 s2, parseChunkHeaders ds64 fuel s = .ok (headersOf s.pos xs,s1) ∧
      parseChunks (headersOf s.pos xs) s1 = .ok (cs,s2) ∧ s2.file = s.file := by
  have hlen := congrArg List.length hdrop
  rw [length_drop] at hlen
  obtain ⟨s1,hheaders,hfile1⟩ := parseChunkHeaders_render hs hdrop hfield hsize hsame hfuel
    (by omega)
  obtain ⟨s2,hchunks,hfile2⟩ := parseChunks_yields hyields (hfile1 ▸ at_full hdrop) hsmall
  exact ⟨s1,s2,hheaders,hchunks,hfile2.trans hfile1⟩

end

section

variable {file content : List UInt8} {stale : Nat → Nat → UInt8} {rest xs ys : List Segment}
  {cs : List Chunk} {info : FormatInfo} {riffSize fuel : Nat}

section

variable {r : Reader} {h0 : ChunkHeader} (hlead : h0.id ≠ dataId)
  (hheaders : r.chunkHeaders = h0 :: headersOf 48 (xs ++ dataSegment content :: ys))
  (habsent : Absent dataId xs)
include hlead hheaders habsent

theorem getChunkHeader_data :
    r.getChunkHeader dataId = .ok ⟨dataId,content.length,48 + (render xs).length⟩ := by
  unfold Reader.getChunkHeader
  rw [hheaders,find?_cons_of_neg (by simpa using hlead),headersOf_find habsent rfl]
  rfl

theorem seek_start (hsize : r.dataChunkSize = content.length)
    (hsmall : 48 + (render (xs ++ dataSegment content :: ys)).length < 2 ^ 63) :
    r.seek 0 .beg =
      .ok { r with stream := r.stream.restart (48 + (render xs).length + 8) } := by
  have hheader := getChunkHeader_data hlead hheaders habsent
  have hlen := bytes_length (dataSegment content)
  have hpayload : (dataSegment content).payload.length = content.length := rfl
  rw [render_append,render_cons,length_append,length_append,hlen,← Nat.add_assoc] at hsmall
  generalize 48 + (render xs).length = start at *
  have hstart : IStream.streamoff ((start : Int) + 8) = ((start + 8 : Nat) : Int) := by
    exact_mod_cast @streamoff_small (start + 8) (by omega)
  have hend : IStream.streamoff (((start + 8 : Nat) : Int) + content.length) =
      ((start + 8 + content.length : Nat) : Int) := by
    exact_mod_cast @streamoff_small (start + 8 + content.length) (by omega)
  have hseek : r.stream.clear.seekg ((start + 8 : Nat) : Int) = r.stream.restart (start + 8) := by
    rw [← @streamoff_small (start + 8) (by omega)]
    exact seekg_clear r.stream (by omega)
  have htell : (r.stream.restart (start + 8)).tellg.1 = ((start + 8 : Nat) : Int) := rfl
  have hforward : ¬((0 : Int) < 0 ∧ ((start + 8 : Nat) : Int) < -0) := by omega
  unfold Reader.seek
  rw [hheader,bind_ok,hsize]
  dsimp only
  rw [hstart,hend,Int.zero_mul,if_neg hforward,Int.add_zero,streamoff_small (by omega),hseek,
    htell,if_neg (by omega),if_neg (by omega)]

end

theorem readRiffChunk_start (id : UInt32) (hid : id = riffId ∨ id = bw64Id ∨ id = rf64Id) {size : Nat}
    (hsize : size < 2 ^ 32) : Reads readRiffChunk (riffStart id size) (id,size) := by
  have hid' : UInt32.ofNat id.toNat = id := UInt32.ofNat_toNat
  unfold readRiffChunk riffStart header
  rw [append_assoc]
  refine .bind (.value id.toNat_lt) ?_
  refine .bind (.value hsize) ?_
  refine .bind (.value waveId.toNat_lt) ?_
  rw [hid']
  refine .silent (.check hid _) ?_
  refine .silent (.check UInt32.ofNat_toNat _) ?_
  exact .result _

structure Scanned (rest : List Segment) (cs : List Chunk) (riffSize dataSize : Nat) : Prop where
  yields : List.Forall₂ Yields rest cs
  field : ∀ x ∈ rest, x.size < 2 ^ 32
  sized : ∀ x ∈ rest, x.id ≠ dataId → x.size = x.payload.length
  data : ∀ x ∈ rest, x.id = dataId → x.payload.length = dataSize ∧ x.size = dataField dataSize
  riff : riffSize = 48 + (render rest).length - 8
  small : 48 + (render rest).length < 2 ^ 63

structure Loaded (file : List UInt8) (info : FormatInfo) (cs : List Chunk) (start : Nat)
    (r : Reader) : Prop where
  info : r.info = info
  chunks : ∃ lead, r.chunks = lead :: cs ∧ (lead.id = junkId ∨ lead.id = ds64Id)
  file : r.stream.file = file
  pos : r.stream.pos = start
  good : r.stream.Good
  found : ∃ h, r.getChunkHeader dataId = .ok h ∧ h.position + 8 = start

theorem lead_find {lead : Chunk} (hlead : lead.id = junkId ∨ lead.id = ds64Id) {id : UInt32}
    (hid : id ≠ junkId ∧ id ≠ ds64Id) :
    (lead :: cs).find? (fun c => c.id = id) = cs.find? fun c => c.id = id := by
  refine find?_cons_of_neg ?_
  rw [decide_eq_true_eq]
  rcases hlead with h | h
  · rw [h]
    exact hid.1.symm
  · rw [h]
    exact hid.2.symm

theorem forall_yields {p : Segment → Prop} (hp : ∀ x c, Yields x c → p x)
    (h : Forall₂ Yields rest cs) : ∀ x ∈ rest, p x := by
  induction h with
  | nil => simp
  | cons hx _ ih =>
    exact forall_mem_cons.mpr ⟨hp _ _ hx,ih⟩

theorem reads_readDs64 {riffSize dataSize : Nat} (hriff : riffSize < 2 ^ 64)
    (hdata : dataSize < 2 ^ 64) {s : IStream} (hs : s.Good) (hpos : s.pos = 12)
    (hat : At s.file s.pos (ds64Segment riffSize dataSize).bytes) :
    readDs64 bw64Id s = .ok ((some ⟨riffSize,dataSize,0,[]⟩,[⟨ds64Id,28,12⟩]),s.skip 36) := by
  obtain ⟨hhead,hbody⟩ := at_append.mp hat
  have hheader := @parseHeader_header none s hs ds64Id 28 (by decide) hhead (by omega)
  have hsizes := reads_ds64 hriff hdata (s.skip 8) hs (at_append.mp hbody).1
  unfold readDs64
  rw [if_pos (.inl rfl),run_bind,hheader,bind_ok,run_bind]
  have hrequire : require (ds64Id = ds64Id) .noDs64 (s.skip 8) = .ok ((),s.skip 8) := if_pos rfl
  dsimp only [getChunkSize64]
  rw [hrequire,bind_ok,run_bind,hsizes,bind_ok,hpos]
  rfl

section

variable (habsent : Absent dataId xs) (hfmt : cs.find? (fun c => c.id = fmtId) = some (.format info))
  (hdata : cs.find? (fun c => c.id = dataId) = some (.data content.length))
include habsent hfmt hdata

theorem close_loaded {s : IStream} {fileFormat : UInt32} {fileSize : Nat} {h0 : ChunkHeader}
    {lead : Chunk} (hs : s.file = file) (hh0 : h0.id ≠ dataId)
    (hlead : lead.id = junkId ∨ lead.id = ds64Id)
    (hsmall : 48 + (render (xs ++ dataSegment content :: ys)).length < 2 ^ 63) :
    ∃ r, (Reader.firstFormat (lead :: cs) >>= fun info => Reader.seek 0 .beg
        ⟨s,fileFormat,fileSize,h0 :: headersOf 48 (xs ++ dataSegment content :: ys),lead :: cs,
          info⟩) = .ok r ∧ Loaded file info cs (48 + (render xs).length + 8) r := by
  have hfirst : Reader.firstFormat (lead :: cs) = .ok info := by
    unfold Reader.firstFormat
    rw [lead_find hlead (by decide),hfmt]
  have hsize : ((((lead :: cs).find? fun c => c.id = dataId).map Chunk.size).getD 0) =
      content.length := by
    rw [lead_find hlead (by decide),hdata]
    rfl
  have hseek := @seek_start content xs ys ⟨s,fileFormat,fileSize,
    h0 :: headersOf 48 (xs ++ dataSegment content :: ys),lead :: cs,info⟩ h0 hh0 rfl habsent hsize
    hsmall
  rw [hfirst,bind_ok]
  refine ⟨_,hseek,rfl,⟨lead,rfl,hlead⟩,hs,rfl,⟨rfl,rfl⟩,?_⟩
  exact ⟨_,getChunkHeader_data hh0 rfl habsent,rfl⟩

variable (h : Scanned rest cs riffSize content.length) (hrest : rest = xs ++ dataSegment content :: ys)
  (hfuel : rest.length + 1 < fuel)
include h hrest hfuel

theorem readFile_riff (hbig : bigFile riffSize content.length = false)
    (hfile : file = riffStart riffId riffSize ++ render (junkSegment :: rest)) :
    ∃ r, Reader.readFile fuel file stale = .ok r ∧
      Loaded file info cs (48 + (render xs).length + 8) r := by
  unfold bigFile at hbig
  simp only [decide_eq_false_iff_not,not_or,not_lt] at hbig
  have hmax : uint32Max < 2 ^ 32 := by decide
  have hjunk : junkSegment.payload.length = 28 := length_replicate
  have hjb : junkSegment.bytes.length = 36 := by rw [bytes_length,hjunk]
  have hriff := readRiffChunk_start riffId (.inl rfl) (by omega : riffSize < 2 ^ 32)
    (IStream.openFile file stale) ⟨rfl,rfl⟩ ⟨_,hfile.symm⟩
  rw [riffStart_length] at hriff
  have hsized : ∀ x ∈ junkSegment :: rest, x.size = x.payload.length := by
    refine forall_mem_cons.mpr ⟨hjunk.symm,?_⟩
    intro x hx
    by_cases hid : x.id = dataId
    · obtain ⟨hlen,hsize⟩ := h.data x hx hid
      rw [hsize,hlen,dataField]
      split
      · omega
      · rfl
    · exact h.sized x hx hid
  have hfield : ∀ x ∈ junkSegment :: rest, x.size < 2 ^ 32 :=
    forall_mem_cons.mpr ⟨(by decide : 28 < 2 ^ 32),h.field⟩
  have hdrop : file.drop 12 = render (junkSegment :: rest) := by
    rw [hfile]
    exact drop_left' (riffStart_length _ _)
  have hsmall := h.small
  obtain ⟨s1,s2,hscan,hchunks,hfile2⟩ := @scan_render none
    ((IStream.openFile file stale).skip 12) _ _ fuel ⟨rfl,rfl⟩ hdrop
    (.cons (.junk 28 (replicate 28 0)) h.yields) hfield hsized (fun _ _ => rfl)
    (by rw [length_cons]; omega) (by
      rw [render_cons,length_append,hjb]
      change 12 + (36 + _) < _
      omega)
  have hh : headersOf 12 (junkSegment :: rest) = ⟨junkId,28,12⟩ :: headersOf 48 rest := rfl
  change parseChunkHeaders none fuel _ = .ok (headersOf 12 (junkSegment :: rest),s1) at hscan
  change parseChunks (headersOf 12 (junkSegment :: rest)) s1 = _ at hchunks
  rw [hh,hrest] at hscan hchunks
  rw [hrest] at hsmall
  obtain ⟨r,hclose,hloaded⟩ := @close_loaded file content xs ys cs info habsent hfmt hdata s2
    riffId riffSize ⟨junkId,28,12⟩ (.unknown junkId (replicate 28 0)) hfile2
    (by decide : junkId ≠ dataId) (.inl rfl) hsmall
  have hds64 : readDs64 riffId ((IStream.openFile file stale).skip 12) =
      .ok ((none,[]),(IStream.openFile file stale).skip 12) := rfl
  refine ⟨r,?_,hloaded⟩
  unfold Reader.readFile
  rw [hriff,bind_ok]
  dsimp only
  rw [hds64,bind_ok]
  rw [hscan,bind_ok]
  rw [nil_append,hchunks,bind_ok]
  exact hclose

theorem readFile_bw64 (hfile : file = riffStart bw64Id Writer.int32Max ++
      render (ds64Segment riffSize content.length :: rest)) :
    ∃ r, Reader.readFile fuel file stale = .ok r ∧
      Loaded file info cs (48 + (render xs).length + 8) r := by
  have hsmall := h.small
  have hriffEq := h.riff
  have hbytes : (ds64Segment riffSize content.length).bytes.length = 36 := by
    have hlen : (ds64Segment riffSize content.length).payload.length = 28 := ds64_writes _
    rw [bytes_length,hlen]
  have hinside : content.length ≤ (render rest).length := by
    have hdlen := bytes_length (dataSegment content)
    have hpayload : (dataSegment content).payload.length = content.length := rfl
    rw [hrest,render_append,render_cons,length_append,length_append,hdlen,hpayload]
    omega
  have hriff := readRiffChunk_start bw64Id (.inr (.inl rfl)) (by decide : Writer.int32Max < 2 ^ 32)
    (IStream.openFile file stale) ⟨rfl,rfl⟩ ⟨_,hfile.symm⟩
  rw [riffStart_length] at hriff
  have hdrop : file.drop 12 = (ds64Segment riffSize content.length).bytes ++ render rest := by
    rw [hfile]
    exact drop_left' (riffStart_length _ _)
  have hds64 := @reads_readDs64 riffSize content.length (by omega) (by omega)
    ((IStream.openFile file stale).skip 12) ⟨rfl,rfl⟩ rfl
    (at_append.mp (at_full hdrop : At file 12 _)).1
  have hdrop' : file.drop 48 = render rest := by
    have := congrArg (List.drop 36) hdrop
    rw [drop_drop,← hbytes,drop_left,hbytes] at this
    exact this
  have hresolve : ∀ x ∈ rest, ∀ n, (x.id ≠ dataId → n = x.payload.length) →
      getChunkSize64 (some ⟨riffSize,content.length,0,[]⟩) x.id n = x.payload.length := by
    intro x hx n hn
    by_cases hid : x.id = dataId
    · rw [hid,(h.data x hx hid).1]
      rfl
    have hres := forall_yields (fun _ _ hy => (yields_id hy).2) h.yields x hx
    unfold getChunkSize64
    dsimp only
    rw [if_neg (by tauto),if_neg hid,hn hid]
    rfl
  obtain ⟨s1,s2,hscan,hchunks,hfile2⟩ := @scan_render
    (some ⟨riffSize,content.length,0,[]⟩) (((IStream.openFile file stale).skip 12).skip 36) rest
    cs fuel ⟨rfl,rfl⟩ hdrop' h.yields h.field (fun x hx => hresolve x hx _ (h.sized x hx))
    (fun x hx => hresolve x hx _ fun _ => rfl) (by omega) hsmall
  change parseChunkHeaders _ fuel _ = .ok (headersOf 48 rest,s1) at hscan
  change parseChunks (headersOf 48 rest) s1 = _ at hchunks
  rw [hrest] at hscan hchunks hsmall
  obtain ⟨r,hclose,hloaded⟩ := @close_loaded file content xs ys cs info habsent hfmt hdata s2
    bw64Id Writer.int32Max ⟨ds64Id,28,12⟩ (.ds64 ⟨riffSize,content.length,0,[]⟩)
    hfile2 (by decide : ds64Id ≠ dataId) (.inr rfl) hsmall
  refine ⟨r,?_,hloaded⟩
  unfold Reader.readFile
  rw [hriff,bind_ok]
  dsimp only
  rw [hds64,bind_ok]
  rw [hscan,bind_ok]
  rw [singleton_append,parseChunks,if_pos rfl,hchunks,bind_ok]
  exact hclose

theorem readFile_finished (hfile : file = finished rest content.length) :
    ∃ r, Reader.readFile fuel file stale = .ok r ∧
      Loaded file info cs (48 + (render xs).length + 8) r := by
  rw [finished_eq h.riff,leadStart,leadSegment] at hfile
  cases hbig : bigFile riffSize content.length with
  | false =>
    rw [hbig] at hfile
    exact readFile_riff habsent hfmt hdata h hrest hfuel hbig hfile
  | true =>
    rw [hbig] at hfile
    exact readFile_bw64 habsent hfmt hdata h hrest hfuel hfile

end

theorem readRaw_all {r : Reader} {start frames : Nat} (h : Loaded file info cs start r)
    (hdata : r.dataChunkSize = content.length) (hat : At file start content) (hnarrow : Narrow info)
    (hblock : 0 < info.blockAlignment) (hframes : content.length = frames * info.blockAlignment)
    (hsmall : content.length < 2 ^ 63) (raw : List UInt8) :
    r.numberOfFrames = frames ∧ ∃ r', r.readRaw raw frames = .ok (content,r') := by
  have halign : r.blockAlignment = info.blockAlignment := by
    rw [← h.info]
    rfl
  have hcount : r.numberOfFrames = frames := by
    rw [Reader.numberOfFrames,hdata,halign,hframes,Nat.mul_div_cancel _ hblock]
  have htotal : r.framesOrTrap = .ok frames := by
    rw [← hcount]
    exact if_neg (halign ▸ hblock.ne')
  obtain ⟨hd,hheader,hposition⟩ := h.found
  have htell : r.stream.tellg = ((start : Int),r.stream) := by
    unfold IStream.tellg
    rw [if_neg (by simp [h.good.1,h.good.2]),h.pos]
  have hzero : r.tellOrTrap = .ok (0,r) := by
    have haligned : r.info.blockAlignment ≠ 0 := h.info ▸ hblock.ne'
    unfold Reader.tellOrTrap
    rw [hheader,throwing,bind_ok,htell]
    rw [show ((start : Int) - hd.position - 8) = 0 by omega,quotient,if_neg haligned]
    simp [bind_ok]
  have hbound : frames ≤ content.length := by
    rw [hframes]
    exact Nat.le_mul_of_pos_right _ hblock
  have hclamp : r.clampOrTrap frames = .ok (frames,r) := by
    unfold Reader.clampOrTrap
    rw [hzero,bind_ok]
    dsimp only
    rw [htotal,bind_ok,Nat.zero_add,Nat.mod_eq_of_lt (by omega),if_neg (Nat.lt_irrefl _)]
  have hdecoded : r.decodedBytes frames ≤ content.length := by
    rw [Reader.decodedBytes,Reader.channels,Reader.bitDepth,h.info,hframes,narrow_block hnarrow,
      ← Nat.mul_assoc]
    exact Nat.mul_le_mul_right _ (Nat.mod_le _ _)
  have hread := @read_exact r.stream content h.good (by rwa [h.file,h.pos])
    fun i => raw.getD i 0
  refine ⟨hcount,{ r with stream := r.stream.skip content.length },?_⟩
  unfold Reader.readRaw Reader.readOrTrap
  rw [hclamp,bind_ok]
  dsimp only
  rw [halign,← hframes,Nat.mod_eq_of_lt (by omega),if_neg (by unfold maxSize; omega),hread]
  dsimp only
  rw [if_neg (not_lt.mpr hdecoded)]
  rfl

end

end FuzzingTargets.Bw64
