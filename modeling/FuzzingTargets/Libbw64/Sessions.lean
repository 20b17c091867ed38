import FuzzingTargets.Libbw64.Calls

namespace FuzzingTargets.Bw64
open LittleEndian Riff Checked List

def dataField (n : Nat) : Nat := if uint32Max ≤ n then uint32Max else n

def dataSegment (content : List UInt8) : Segment := ⟨dataId,dataField content.length,content⟩

section

variable {w : Writer} {info : FormatInfo} {segs : List Segment} {content : List UInt8}
  {post : List Chunk}

theorem put_padding (hpos : w.pos = w.file.length) (n : Nat) :
    (if n % 2 = 1 then w.put [0] else w) =
      { w with file := w.file ++ padding n, pos := (w.file ++ padding n).length } := by
  unfold padding
  split
  · exact put_end hpos [0]
  · rw [append_nil,← hpos]

theorem finalizeDataChunk_building (hw : Open w info segs content post) :
    ∃ w' cs, w.finalizeDataChunk = .ok w' ∧
      Building w' (riffStart riffId uint32Max) (segs ++ [dataSegment content])
        (cs ++ [.data content.length]) ∧ (∀ c ∈ cs, c.id ≠ dataId) ∧ w'.postDataChunks = post := by
  have hcsize : w.dataChunkSize = .ok content.length :=
    @open_dataChunkSize w info ⟨segs,content,post⟩ hw
  obtain ⟨cs,hcs,hids⟩ := hw.chunks
  have hfind : w.chunkHeaders.find? (fun h => h.id = dataId) =
      some ⟨dataId,content.length,12 + (render segs).length⟩ := find_data rfl hw.absent hw.headers
  have hpadded : ∀ file pos, ({ w with file := file, pos := pos } : Writer).chunkSizeForHeader
      dataId = .ok (dataField content.length) := by
    intro file pos
    unfold Writer.chunkSizeForHeader Writer.chunkHeader
    rw [hfind,bind_ok]
    exact (apply_ite Except.ok _ _ _).symm
  have hrun : w.finalizeDataChunk = .ok ((({ w with
      file := w.file ++ padding content.length
      pos := (w.file ++ padding content.length).length }.seekp (12 + (render segs).length)).put
        (header dataId (dataField content.length))).seekp
          (w.file ++ padding content.length).length) := by
    unfold Writer.finalizeDataChunk
    rw [hcsize,bind_ok,put_padding hw.pos]
    dsimp only
    rw [hpadded]
    unfold Writer.chunkHeader
    rw [hfind,bind_ok,bind_ok]
  have hfile := @put_inside ({ w with
      file := w.file ++ padding content.length
      pos := (w.file ++ padding content.length).length }.seekp (12 + (render segs).length))
    (riffStart riffId uint32Max ++ render segs) (header dataId 0)
    (content ++ padding content.length) (header dataId (dataField content.length)) (by
      dsimp only [Writer.seekp]
      rw [hw.file]
      simp only [append_assoc]) (by rw [header_length,header_length]) (by
      dsimp only [Writer.seekp]
      rw [length_append,riffStart_length])
  refine ⟨_,.format info :: cs,hrun,⟨riffStart_length _ _,?_,?_,?_,hcs⟩,?_,hw.post⟩
  · dsimp only [Writer.seekp] at hfile ⊢
    rw [hfile,render_append,append_assoc]
    simp [render,dataSegment,Segment.bytes]
  · dsimp only [Writer.seekp] at hfile ⊢
    rw [hfile,hw.file]
    simp only [length_append,header_length]
    omega
  · rw [headersOf_append]
    exact hw.headers
  · exact forall_mem_cons.mpr ⟨(by decide : fmtId ≠ dataId),hids⟩

def ds64Segment (riffSize dataSize : Nat) : Segment := segmentOf (.ds64 ⟨riffSize,dataSize,0,[]⟩)

def bigFile (riffSize dataSize : Nat) : Bool := uint32Max < riffSize ∨ uint32Max < dataSize

def finished (rest : List Segment) (dataSize : Nat) : List UInt8 :=
  let riffSize := 48 + (render rest).length - 8
  if bigFile riffSize dataSize then
    riffStart bw64Id Writer.int32Max ++ render (ds64Segment riffSize dataSize :: rest)
  else riffStart riffId riffSize ++ render (junkSegment :: rest)

theorem ds64_writable (riffSize dataSize : Nat) : Writable (.ds64 ⟨riffSize,dataSize,0,[]⟩) :=
  ⟨ds64_writes _,(by decide : ds64Id ≠ dataId),(by decide : 28 < uint32Max)⟩

theorem overwriteJunk_file {rest : List Segment} {id : UInt32} {size : Nat}
    (hfile : w.file = riffStart id size ++ render (junkSegment :: rest))
    (hheaders : w.chunkHeaders = headersOf 12 (junkSegment :: rest)) (riffSize dataSize : Nat) :
    ∃ w', w.overwriteChunk junkId (.ds64 ⟨riffSize,dataSize,0,[]⟩) = .ok w' ∧
      w'.file = riffStart id size ++ render (ds64Segment riffSize dataSize :: rest) := by
  have hjunk : junkSegment.payload.length = 28 := length_replicate
  have hheader : w.chunkHeader junkId = .ok ⟨junkId,28,12⟩ := by
    unfold Writer.chunkHeader
    rw [hheaders,headersOf,find?_cons_of_pos (by simp [junkSegment]),hjunk]
    rfl
  have hfield : w.chunkSizeForHeader junkId = .ok 28 := by
    unfold Writer.chunkSizeForHeader
    rw [hheader,bind_ok,if_neg (by decide : ¬uint32Max ≤ 28)]
  have himage : Writer.chunkImage (.ds64 ⟨riffSize,dataSize,0,[]⟩) 28 =
      (ds64Segment riffSize dataSize).bytes := chunkImage_segment (ds64_writable riffSize dataSize)
  have hbytes : (ds64Segment riffSize dataSize).payload.length = 28 := ds64_writes _
  have hput := @put_inside (w.seekp 12) (riffStart id size) junkSegment.bytes (render rest)
    (ds64Segment riffSize dataSize).bytes hfile
    (by rw [bytes_length,bytes_length,hjunk,hbytes]) (riffStart_length id size).symm
  refine ⟨((w.seekp 12).put (ds64Segment riffSize dataSize).bytes).seekp w.pos,?_,hput⟩
  unfold Writer.overwriteChunk
  rw [hheader,bind_ok,hfield,bind_ok,himage]

theorem finalizeRiffChunk_file {rest : List Segment} {cs : List Chunk} {dataSize : Nat}
    (hw : Building w (riffStart riffId uint32Max) (junkSegment :: rest) cs)
    (hsize : w.dataChunkSize = .ok dataSize) :
    ∃ w', w.finalizeRiffChunk = .ok w' ∧ w'.file = finished rest dataSize := by
  have hlength : w.file.length = 48 + (render rest).length := by
    have hjunk : junkSegment.payload.length = 28 := length_replicate
    rw [hw.file,length_append,riffStart_length,render_cons,length_append,bytes_length,hjunk]
    omega
  have hhead : ∀ (id : UInt32) (size : Nat), ((w.seekp 0).put (header id size)).file =
      riffStart id size ++ render (junkSegment :: rest) := by
    intro id size
    have hput := @put_inside (w.seekp 0) [] (header riffId uint32Max)
      (le 4 waveId.toNat ++ render (junkSegment :: rest)) (header id size) (by
        dsimp only [Writer.seekp]
        rw [hw.file,riffStart,append_assoc,nil_append]) (by
        rw [header_length,header_length]) rfl
    rw [hput,riffStart,append_assoc,nil_append]
  have hbig : w.isBw64File dataSize = bigFile (48 + (render rest).length - 8) dataSize := by
    unfold Writer.isBw64File Writer.riffChunkSize bigFile
    rw [hlength]
  unfold Writer.finalizeRiffChunk finished
  rw [hsize,bind_ok,hbig]
  dsimp only
  cases bigFile (48 + (render rest).length - 8) dataSize with
  | false =>
    refine ⟨_,rfl,?_⟩
    rw [Writer.riffChunkSize,hlength]
    exact hhead riffId _
  | true =>
    obtain ⟨w',hrun,hfile⟩ := @overwriteJunk_file ((w.seekp 0).put (header bw64Id
      Writer.int32Max)) rest _ _ (hhead bw64Id Writer.int32Max) hw.headers
      (48 + (render rest).length - 8) dataSize
    have hriff : ((w.seekp 0).put (header bw64Id Writer.int32Max)).riffChunkSize =
        48 + (render rest).length - 8 := by
      rw [Writer.riffChunkSize,hhead,← hlength,hw.file]
      simp only [length_append,riffStart_length]
    refine ⟨w'.seekp w.pos,?_,hfile⟩
    rw [if_pos rfl,hriff,hrun,bind_ok]

theorem finish_file {rest : List Segment} (hw : Open w info (junkSegment :: rest) content post)
    (hpost : Embeds post) (hagrees : ∀ c ∈ post, Agrees c rest) :
    ∃ w', w.finish = .ok w' ∧ w'.file =
      finished (rest ++ [dataSegment content] ++ post.map segmentOf) content.length := by
  obtain ⟨w1,cs,hrun1,hw1,hids,hpost1⟩ := finalizeDataChunk_building hw
  have hagrees' : ∀ c ∈ post, Agrees c (junkSegment :: rest ++ [dataSegment content]) := by
    intro c hc
    refine forall_mem_append.mpr ⟨forall_mem_cons.mpr ⟨?_,hagrees c hc⟩,forall_mem_singleton.mpr ?_⟩
    · exact fun hid => absurd hid.symm (hpost.notJunk c hc)
    · exact fun hid => absurd hid.symm (hpost.writable c hc).notData
  obtain ⟨w2,hrun2,hw2,-⟩ := writeChunks_building hw1 hpost.writable hagrees' hpost.agree
  have hsize : w2.dataChunkSize = .ok content.length := by
    have hfind : w2.chunk dataId = some (.data content.length) := by
      unfold Writer.chunk
      rw [hw2.chunks,append_assoc,find?_append,find?_eq_none.mpr,
        Option.none_or,singleton_append,find?_cons_of_pos (by simp [Chunk.id])]
      intro x hx
      simpa using hids x hx
    unfold Writer.dataChunkSize
    rw [hfind]
    rfl
  obtain ⟨w3,hrun3,hfile⟩ := finalizeRiffChunk_file hw2 hsize
  refine ⟨w3,?_,hfile⟩
  unfold Writer.finish
  rw [hrun1,bind_ok,hpost1,hrun2,bind_ok,hrun3]

end

def patchAll (patches : List (List AudioId)) (segs : List Segment) : List Segment :=
  patches.foldl (fun segs ids => patchFirst chnaId (chnaBytes ids) segs) segs

section

variable {α : Type}

def Call.chna? : Call α → Option (List AudioId)
  | .setChnaChunk ids => some ids
  | _ => none

def Call.axml? : Call α → Option Chunk
  | .setAxmlChunk c => some c
  | _ => none

def Call.bytes (quantise : Nat → α → Int) (info : FormatInfo) : Call α → List UInt8
  | .write inBuffer frames => frameBytes quantise info inBuffer frames
  | _ => []

namespace Session

variable (quantise : Nat → α → Int) (s : Session α) (info : FormatInfo)

def later : List Chunk := s.calls.filterMap Call.axml?

def content : List UInt8 := s.calls.flatMap (Call.bytes quantise info)

def chnaRoom : Nat :=
  match s.additionalChunks.find? fun c => c.id = chnaId with
  | some c => c.size
  | none => chnaReserved

def segments : List Segment :=
  patchAll (s.calls.filterMap Call.chna?)
    (segmentOf (.format info) :: (s.additionalChunks.map segmentOf ++ reserve s.additionalChunks))

structure Lays (s : Session α) : Prop where
  narrow : s.channels.toNat * s.bitDepth.toNat / 8 ≤ 65535
  embeds : Embeds (s.additionalChunks ++ s.later)
  reserved : s.additionalChunks.find? (fun c => c.id = chnaId) = none →
    ∀ c ∈ s.later, c.id = chnaId → c.size = chnaReserved
  fits : ∀ call ∈ s.calls, call.Fits s.chnaRoom

end Session

theorem contents_foldl (quantise : Nat → α → Int) (info : FormatInfo) (calls : List (Call α))
    (c : Contents) : calls.foldl (Contents.apply quantise info) c =
      ⟨patchAll (calls.filterMap Call.chna?) c.segs,
        c.content ++ calls.flatMap (Call.bytes quantise info),
        c.post ++ calls.filterMap Call.axml?⟩ := by
  induction calls generalizing c with
  | nil => simp [patchAll]
  | cons call calls ih =>
    rw [foldl_cons,ih]
    cases call <;>
      simp [Contents.apply,Call.chna?,Call.axml?,Call.bytes,filterMap_cons,patchAll]

theorem patchAll_cons (patches : List (List AudioId)) {s : Segment} (hid : s.id ≠ chnaId)
    (segs : List Segment) : patchAll patches (s :: segs) = s :: patchAll patches segs := by
  induction patches generalizing segs with
  | nil => rfl
  | cons ids patches ih =>
    have hfirst : patchFirst chnaId (chnaBytes ids) (s :: segs) =
        s :: patchFirst chnaId (chnaBytes ids) segs := if_neg hid
    unfold patchAll at ih ⊢
    rw [foldl_cons,foldl_cons,hfirst,ih]

theorem embeds_of_subset {xs ys : List Chunk} (h : Embeds ys) (hsub : xs ⊆ ys) : Embeds xs :=
  ⟨fun c hc => h.writable c (hsub hc),fun c hc => h.notJunk c (hsub hc),
    fun c hc => h.notFormat c (hsub hc),fun c hc d hd => h.agree c (hsub hc) d (hsub hd)⟩

theorem embeds_left {xs ys : List Chunk} (h : Embeds (xs ++ ys)) : Embeds xs :=
  embeds_of_subset h (subset_append_left _ _)

theorem embeds_right {xs ys : List Chunk} (h : Embeds (xs ++ ys)) : Embeds ys :=
  embeds_of_subset h (subset_append_right _ _)

theorem make_narrow {channels : UInt16} {sampleRate : UInt32} {bitDepth : UInt16}
    {info : FormatInfo} (hinfo : FormatInfo.make channels sampleRate bitDepth = .ok info)
    (h : channels.toNat * bitDepth.toNat / 8 ≤ 65535) : Narrow info := by
  unfold FormatInfo.make at hinfo
  split at hinfo
  · cases hinfo
  · split at hinfo
    · cases hinfo
    · split at hinfo <;> cases hinfo
      exact h

theorem room_segments {cs : List Chunk} (hcs : ∀ c ∈ cs, Writable c) (tail : List Segment) :
    room chnaId (cs.map segmentOf ++ tail) =
      match cs.find? fun c => c.id = chnaId with
      | some c => c.size
      | none => room chnaId tail := by
  induction cs with
  | nil => rfl
  | cons c cs ih =>
    rw [map_cons,cons_append,room]
    by_cases hid : (segmentOf c).id = chnaId
    · rw [if_pos hid,find?_cons_of_pos (by simpa [segmentOf] using hid)]
      exact (hcs c mem_cons_self).writes
    · rw [if_neg hid,find?_cons_of_neg (by simpa [segmentOf] using hid),
        ih fun d hd => hcs d (.tail _ hd)]

theorem room_preamble (info : FormatInfo) {s : Session α}
    (hs : ∀ c ∈ s.additionalChunks, Writable c) :
    room chnaId (preamble info s.additionalChunks) = s.chnaRoom := by
  have hfmt : (segmentOf (.format info)).id ≠ chnaId := (by decide : fmtId ≠ chnaId)
  rw [preamble,room,if_neg (by decide : junkSegment.id ≠ chnaId),room,if_neg hfmt,
    room_segments hs,Session.chnaRoom]
  cases hf : s.additionalChunks.find? fun c => c.id = chnaId with
  | some c => rfl
  | none =>
    rw [reserve,if_pos hf]
    exact (if_pos rfl).trans length_replicate

theorem preamble_sized (info : FormatInfo) {additional : List Chunk}
    (hadd : ∀ c ∈ additional, Writable c) :
    ∀ s ∈ preamble info additional, s.size = s.payload.length ∧ s.size < uint32Max := by
  intro s hs
  simp only [preamble,mem_cons,mem_append,mem_map,reserve] at hs
  rcases hs with rfl | rfl | ⟨c,hc,rfl⟩ | hs
  · exact ⟨length_replicate.symm,(by decide : 28 < uint32Max)⟩
  · exact ⟨(format_writes info).symm,(by decide : 16 < uint32Max)⟩
  · exact ⟨(hadd c hc).writes.symm,(hadd c hc).small⟩
  split at hs
  · rw [mem_singleton.mp hs]
    exact ⟨length_replicate.symm,(by decide : chnaReserved < uint32Max)⟩
  · cases hs

theorem session_file (quantise : Nat → α → Int) {s : Session α} {info : FormatInfo}
    (hinfo : FormatInfo.make s.channels s.sampleRate s.bitDepth = .ok info) (hs : s.Lays) :
    s.file quantise = .ok (finished (s.segments info ++ [dataSegment (s.content quantise info)] ++
        s.later.map segmentOf) (s.content quantise info).length) ∧
      (junkSegment :: s.segments info).map shape =
        (preamble info s.additionalChunks).map shape := by
  have hadd := embeds_left hs.embeds
  have hlater := embeds_right hs.embeds
  have hroom := room_preamble info hadd.writable
  have hsized := preamble_sized info hadd.writable
  obtain ⟨w1,hrun1,hw1⟩ := create_open hinfo hadd
  have hsmall : room chnaId (preamble info s.additionalChunks) < uint32Max := by
    rw [hroom,Session.chnaRoom]
    split
    · rename_i c hc
      exact (hadd.writable c (mem_of_find?_eq_some hc)).small
    · decide
  obtain ⟨w2,c',hrun2,hc',hw2,hshape⟩ := @runCalls_open α quantise w1 info
    ⟨preamble info s.additionalChunks,[],[]⟩ hw1 hsmall (fun x hx => (hsized x hx).1)
    (make_narrow hinfo hs.narrow) s.calls fun call hcall => hroom ▸ hs.fits call hcall
  have hsegs : c'.segs = junkSegment :: s.segments info := by
    rw [hc',contents_foldl]
    exact patchAll_cons _ (by decide) _
  rw [hsegs] at hw2 hshape
  have hopen : Open w2 info (junkSegment :: s.segments info) (s.content quantise info) s.later := by
    rw [hc',contents_foldl] at hw2
    exact hw2
  have hagrees : ∀ c ∈ s.later, Agrees c (s.segments info) := by
    intro c hc x hx hid
    obtain ⟨t,ht,hxt⟩ := mem_of_shape hshape (.tail _ hx)
    rw [shape,shape,Prod.mk.injEq,Prod.mk.injEq] at hxt
    rw [← hxt.2.2]
    rw [← hxt.1] at hid
    simp only [preamble,mem_cons,mem_append,mem_map,reserve] at ht
    rcases ht with rfl | rfl | ⟨d,hd,rfl⟩ | ht
    · exact absurd hid.symm (hlater.notJunk c hc)
    · exact absurd hid.symm (hlater.notFormat c hc)
    · exact (hadd.writable d hd).writes.trans (hs.embeds.agree d (mem_append_left _ hd) c
        (mem_append_right _ hc) hid)
    split at ht
    · rename_i hnone
      rw [mem_singleton.mp ht] at hid ⊢
      exact length_replicate.trans (hs.reserved hnone c hc hid.symm).symm
    · cases ht
  obtain ⟨w3,hrun3,hfile⟩ := finish_file hopen hlater hagrees
  refine ⟨?_,hshape⟩
  unfold Session.file
  rw [hrun1,bind_ok,hrun2,bind_ok,hrun3,bind_ok,hfile]

end

def declaredSize (file : List UInt8) (id : UInt32) (size : Nat) : Nat :=
  if id = dataId ∧ idAt file = bw64Id then ofLe ((file.drop 28).take 8) else size

def walkDeclared (file : List UInt8) : Option (List (UInt32 × List UInt8)) :=
  walk (declaredSize file) file.length (file.drop 12)

def walkPlain (file : List UInt8) : Option (List (UInt32 × List UInt8)) :=
  walk (fun _ size => size) file.length (file.drop 12)

def chunkOf (s : Segment) : UInt32 × List UInt8 := (s.id,s.payload)

def leadSegment (riffSize dataSize : Nat) : Segment :=
  if bigFile riffSize dataSize then ds64Segment riffSize dataSize else junkSegment

def leadStart (riffSize dataSize : Nat) : List UInt8 :=
  if bigFile riffSize dataSize then riffStart bw64Id Writer.int32Max else riffStart riffId riffSize

section

variable {rest : List Segment} {dataSize riffSize : Nat}

theorem finished_eq (hriff : riffSize = 48 + (render rest).length - 8) : finished rest dataSize =
      leadStart riffSize dataSize ++ render (leadSegment riffSize dataSize :: rest) := by
  unfold finished leadStart leadSegment
  dsimp only
  rw [← hriff]
  split <;> rfl

theorem leadStart_length : (leadStart riffSize dataSize).length = 12 := by
  unfold leadStart
  split <;> exact riffStart_length _ _

theorem leadSegment_sized : (leadSegment riffSize dataSize).size =
    (leadSegment riffSize dataSize).payload.length ∧
      (leadSegment riffSize dataSize).size < uint32Max ∧
      (leadSegment riffSize dataSize).id ≠ dataId := by
  unfold leadSegment
  split
  · have hds64 := ds64_writable riffSize dataSize
    exact ⟨hds64.writes.symm,hds64.small,hds64.notData⟩
  · exact ⟨length_replicate.symm,(by decide : 28 < uint32Max),by decide⟩

theorem ds64_dataSize (start after : List UInt8) (hstart : start.length = 12)
    (hsize : dataSize < 2 ^ 64) :
    ofLe (((start ++ ((ds64Segment riffSize dataSize).bytes ++ after)).drop 28).take 8) =
      dataSize := by
  have hbytes : (ds64Segment riffSize dataSize).bytes =
      (header ds64Id 28 ++ le 8 riffSize) ++ (le 8 dataSize ++ (le 8 0 ++ (le 4 0 ++ []))) := by
    unfold ds64Segment segmentOf Segment.bytes
    simp [Chunk.id,Chunk.size,Chunk.bytes,DataSize64.bytes,padding]
  have hsplit : start ++ ((ds64Segment riffSize dataSize).bytes ++ after) =
      (start ++ (header ds64Id 28 ++ le 8 riffSize)) ++
        (le 8 dataSize ++ ((le 8 0 ++ (le 4 0 ++ [])) ++ after)) := by
    rw [hbytes]
    simp only [append_assoc]
  rw [hsplit,drop_left' (by
    rw [length_append,length_append,header_length,le_length,hstart]),
    take_left' (le_length 8 _),ofLe_le_of_lt hsize]

theorem declaredSize_data (hriff : riffSize = 48 + (render rest).length - 8)
    (hsize : dataSize < 2 ^ 64) :
    declaredSize (finished rest dataSize) dataId (dataField dataSize) = dataSize := by
  unfold declaredSize
  rw [finished_eq hriff,render_cons,leadStart,leadSegment]
  cases hbig : bigFile riffSize dataSize with
  | true =>
    rw [if_pos rfl,if_pos rfl,if_pos,ds64_dataSize _ _ (riffStart_length _ _) hsize]
    refine ⟨rfl,?_⟩
    rw [riffStart,append_assoc,idAt_header]
  | false =>
    rw [if_neg Bool.false_ne_true,if_neg Bool.false_ne_true,if_neg]
    · unfold bigFile at hbig
      simp only [decide_eq_false_iff_not,not_or,not_lt] at hbig
      unfold dataField
      split
      · omega
      · rfl
    · rintro ⟨-,h⟩
      rw [riffStart,append_assoc,idAt_header] at h
      exact absurd h (by decide)

end

section

variable {α : Type} {quantise : Nat → α → Int} {s : Session α} {info : FormatInfo}

def Session.body (quantise : Nat → α → Int) (s : Session α) (info : FormatInfo) : List Segment :=
  s.segments info ++ [dataSegment (s.content quantise info)] ++ s.later.map segmentOf

def Session.riffSize (quantise : Nat → α → Int) (s : Session α) (info : FormatInfo) : Nat :=
  48 + (render (s.body quantise info)).length - 8

def Session.lead (quantise : Nat → α → Int) (s : Session α) (info : FormatInfo) : Segment :=
  leadSegment (s.riffSize quantise info) (s.content quantise info).length

def Session.written (quantise : Nat → α → Int) (s : Session α) (info : FormatInfo) :
    List (UInt32 × List UInt8) :=
  (s.lead quantise info :: s.body quantise info).map chunkOf

def Plain (x : Segment) : Prop := x.size = x.payload.length ∧ x.size < uint32Max ∧ x.id ≠ dataId

theorem later_plain (hs : s.Lays) : ∀ x ∈ s.later.map segmentOf, Plain x := by
  intro x hx
  obtain ⟨c,hc,rfl⟩ := mem_map.mp hx
  have hw := (embeds_right hs.embeds).writable c hc
  exact ⟨hw.writes.symm,hw.small,hw.notData⟩

theorem dataField_lt (n : Nat) : dataField n < 2 ^ 32 := by
  unfold dataField uint32Max
  split
  · decide
  · omega

section

variable (hinfo : FormatInfo.make s.channels s.sampleRate s.bitDepth = .ok info) (hs : s.Lays)
include hinfo hs

theorem segments_plain : ∀ x ∈ s.segments info, Plain x := by
  intro x hx
  have hadd := (embeds_left hs.embeds).writable
  obtain ⟨t,ht,hxt⟩ := mem_of_shape (session_file (fun _ _ => 0) hinfo hs).2
    (.tail _ hx)
  rw [shape,shape,Prod.mk.injEq,Prod.mk.injEq] at hxt
  rw [Plain,← hxt.1,← hxt.2.1,← hxt.2.2]
  obtain ⟨hsize,hsmall⟩ := preamble_sized info hadd t ht
  exact ⟨hsize,hsmall,preamble_absent hadd t ht⟩

theorem body_cases : ∀ x ∈ s.lead quantise info :: s.body quantise info,
      Plain x ∨ x = dataSegment (s.content quantise info) := by
  intro x hx
  rcases mem_cons.mp hx with rfl | hx
  · exact .inl leadSegment_sized
  rcases mem_append.mp hx with hx | hx
  · rcases mem_append.mp hx with hx | hx
    · exact .inl (segments_plain hinfo hs x hx)
    · exact .inr (mem_singleton.mp hx)
  · exact .inl (later_plain hs x hx)

theorem body_field : ∀ x ∈ s.lead quantise info :: s.body quantise info, x.size < 2 ^ 32 := by
  intro x hx
  rcases body_cases hinfo hs x hx with h | rfl
  · have := h.2.1
    unfold uint32Max at this
    omega
  · exact dataField_lt _

theorem file_drop : ∃ file, s.file quantise = .ok file ∧
      file = finished (s.body quantise info) (s.content quantise info).length ∧
      file.drop 12 = render (s.lead quantise info :: s.body quantise info) ∧
      (s.lead quantise info :: s.body quantise info).length ≤ file.length := by
  refine ⟨_,(session_file quantise hinfo hs).1,rfl,?_,?_⟩
  · rw [finished_eq rfl]
    exact drop_left' leadStart_length
  · rw [finished_eq rfl,length_append]
    exact (render_length_ge _).trans (Nat.le_add_left _ _)

variable {file : List UInt8}
  (hdrop : file.drop 12 = render (s.lead quantise info :: s.body quantise info))
  (hfuel : (s.lead quantise info :: s.body quantise info).length ≤ file.length)
include hdrop hfuel

theorem walkPlain_small (hsmall : (s.content quantise info).length ≤ uint32Max) :
    walkPlain file = some (s.written quantise info) := by
  unfold walkPlain
  rw [hdrop]
  refine walk_render (body_field hinfo hs) (fun x hx => ?_) hfuel
  rcases body_cases hinfo hs x hx with h | rfl
  · exact h.1
  unfold dataSegment dataField
  dsimp only
  split
  · omega
  · rfl

theorem walkPlain_large (hwalk : walkPlain file = some (s.written quantise info)) :
    (s.content quantise info).length ≤ uint32Max := by
  have hplain : ∀ x ∈ s.lead quantise info :: s.segments info, Plain x :=
    forall_mem_cons.mpr ⟨leadSegment_sized,segments_plain hinfo hs⟩
  have hsplit : s.lead quantise info :: s.body quantise info =
      (s.lead quantise info :: s.segments info) ++
        dataSegment (s.content quantise info) :: s.later.map segmentOf := by
    rw [Session.body,append_assoc]
    rfl
  obtain ⟨fuel,hf⟩ : ∃ k, file.length = k + (s.lead quantise info :: s.segments info).length := by
    rw [hsplit,length_append] at hfuel
    exact ⟨_,(Nat.sub_add_cancel (by omega)).symm⟩
  unfold walkPlain at hwalk
  rw [hdrop,hsplit,render_append,hf,walk_append (fun x hx => by
    have := (hplain x hx).2.1
    unfold uint32Max at this
    omega) (fun x hx => (hplain x hx).1),Session.written,hsplit,map_append] at hwalk
  obtain ⟨ps,hps,heq⟩ := Option.map_eq_some_iff.mp hwalk
  rw [append_cancel_left heq,render_cons,Segment.bytes,append_assoc,map_cons] at hps
  have hlen := walk_payload_length (dataField_lt _) hps
  have hfield : (s.content quantise info).length = dataField (s.content quantise info).length :=
    hlen
  have := dataField_lt (s.content quantise info).length
  unfold uint32Max
  omega

end

end

def monoInfo : FormatInfo := ⟨1,48000,16,by decide,by decide,.inl rfl⟩

def pcm (_ : Nat) (sample : Int) : Int := sample

def recording (additional : List Chunk) (calls : List (Call Int)) : Session Int :=
  ⟨1,48000,16,additional,calls⟩

def labelled : Session Int :=
  recording [.unknown (fourCC 'b' 'e' 'x' 't') [1,2,3],.axml [60,47,62]]
    [.write (fun _ => 7) 3,.setChnaChunk [],.write (fun i => i) 2]

theorem labelled_lays : labelled.Lays := by
  refine ⟨by decide,⟨?_,?_,?_,?_⟩,?_,?_⟩
  · intro c hc
    simp only [labelled,recording,Session.later,mem_append,mem_cons,
      not_mem_nil,or_false,filterMap_cons,Call.axml?,filterMap_nil] at hc
    rcases hc with rfl | rfl <;> exact ⟨rfl,by decide,by decide⟩
  · decide
  · decide
  · decide
  · intro _ c hc
    cases hc
  intro call hcall
  simp only [labelled,recording,mem_cons,not_mem_nil,or_false] at hcall
  rcases hcall with rfl | rfl | rfl
  · trivial
  · exact ⟨by decide,by decide⟩
  · trivial

def longTake : Session Int := recording [] [.write (fun _ => 0) (2 ^ 31)]

theorem longTake_lays : longTake.Lays := by
  refine ⟨by decide,⟨nofun,nofun,nofun,nofun⟩,nofun,?_⟩
  intro call hcall
  rw [mem_singleton.mp hcall]
  trivial

theorem longTake_content : (longTake.content pcm monoInfo).length = 2 ^ 32 := by
  have hnarrow : Narrow monoInfo := (by decide : 1 * 16 / 8 ≤ 65535)
  rw [Session.content,longTake,recording,flatMap_singleton]
  exact frameBytes_length hnarrow (fun _ => 0) (2 ^ 31)

end FuzzingTargets.Bw64
