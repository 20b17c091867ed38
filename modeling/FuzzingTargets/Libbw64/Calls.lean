import FuzzingTargets.Libbw64.Writer
import FuzzingTargets.Foundation.Checked

namespace FuzzingTargets.Bw64
open LittleEndian Riff Checked List

variable {segs : List Segment}

def segmentOf (c : Chunk) : Segment := ⟨c.id,c.size,c.bytes⟩

def headersOf : Nat → List Segment → List ChunkHeader
  | _, [] => []
  | p, s :: segs => ⟨s.id,s.payload.length,p⟩ :: headersOf (p + s.bytes.length) segs

theorem headersOf_append (p : Nat) (xs ys : List Segment) :
    headersOf p (xs ++ ys) = headersOf p xs ++ headersOf (p + (render xs).length) ys := by
  induction xs generalizing p with
  | nil => rfl
  | cons x xs ih =>
    rw [cons_append,headersOf,headersOf,ih,render_cons,length_append,Nat.add_assoc]
    rfl

theorem headersOf_mem {p : Nat} {h : ChunkHeader} (hh : h ∈ headersOf p segs) :
    ∃ s ∈ segs, h.id = s.id ∧ h.size = s.payload.length := by
  induction segs generalizing p with
  | nil => cases hh
  | cons s segs ih =>
    rcases mem_cons.mp hh with rfl | hh
    · exact ⟨s,mem_cons_self,rfl,rfl⟩
    · obtain ⟨x,hx,hid,hsize⟩ := ih hh
      exact ⟨x,.tail _ hx,hid,hsize⟩

def Absent (id : UInt32) (segs : List Segment) : Prop := ∀ s ∈ segs, s.id ≠ id

variable {s : Segment}

theorem headersOf_find {p : Nat} {id : UInt32} {xs ys : List Segment}
    (habsent : Absent id xs) (hid : s.id = id) :
    (headersOf p (xs ++ s :: ys)).find? (fun h => h.id = id) =
      some ⟨id,s.payload.length,p + (render xs).length⟩ := by
  rw [headersOf_append,find?_append,find?_eq_none.mpr,Option.none_or,headersOf,
    find?_cons_of_pos (by simpa using hid),hid]
  intro h hh
  obtain ⟨x,hx,hxid,-⟩ := headersOf_mem hh
  simpa [hxid] using habsent x hx

structure Building (w : Writer) (start : List UInt8) (segs : List Segment) (cs : List Chunk) :
    Prop where
  lead : start.length = 12
  file : w.file = start ++ render segs
  pos : w.pos = w.file.length
  headers : w.chunkHeaders = headersOf 12 segs
  chunks : w.chunks = cs

section

variable {w : Writer}

theorem put_end (h : w.pos = w.file.length) (bs : List UInt8) :
    w.put bs = { w with file := w.file ++ bs, pos := (w.file ++ bs).length } := by
  unfold Writer.put
  rw [h,take_length,drop_eq_nil_of_le (by omega),append_nil,length_append]

theorem put_inside {before old after : List UInt8} (bs : List UInt8)
    (hfile : w.file = before ++ (old ++ after)) (hlen : old.length = bs.length) (hpos : w.pos = before.length) :
    (w.put bs).file = before ++ (bs ++ after) := by
  unfold Writer.put
  rw [hfile,hpos,take_left,← hlen,← drop_drop,drop_left,drop_left,append_assoc]

end

def Agrees (c : Chunk) (segs : List Segment) : Prop :=
  ∀ s ∈ segs, s.id = c.id → s.payload.length = c.size

structure Writable (c : Chunk) : Prop where
  writes : c.Writes
  notData : c.id ≠ dataId
  small : c.size < uint32Max

variable {c : Chunk}

theorem chunkImage_segment (hc : Writable c) :
    Writer.chunkImage c c.size = (segmentOf c).bytes := by
  unfold Writer.chunkImage segmentOf Segment.bytes
  rw [if_pos hc.notData]
  rw [hc.writes]

section

variable {w : Writer} {start : List UInt8} {segs : List Segment} {cs : List Chunk}

variable (hw : Building w start segs cs)
include hw

theorem pushHeader_headers (id : UInt32) (size : Nat) : (w.pushHeader id size).chunkHeaders =
      headersOf 12 segs ++ [⟨id,size,12 + (render segs).length⟩] := by
  unfold Writer.pushHeader
  rw [hw.headers,hw.pos,hw.file,length_append,hw.lead]

theorem chunkSizeForHeader_agrees (hagrees : Agrees c segs)
    (hsmall : c.size < uint32Max) :
    (w.pushHeader c.id c.size).chunkSizeForHeader c.id = .ok c.size := by
  have hfound : ∃ h, (w.pushHeader c.id c.size).chunkHeaders.find? (fun h => h.id = c.id) =
      some h ∧ h.size = c.size := by
    rw [pushHeader_headers hw,find?_append]
    cases hf : (headersOf 12 segs).find? (fun h => h.id = c.id) with
    | none => exact ⟨⟨c.id,c.size,12 + (render segs).length⟩,by simp,rfl⟩
    | some h =>
      obtain ⟨s,hs,hid,hsize⟩ := headersOf_mem (mem_of_find?_eq_some hf)
      have hidc : h.id = c.id := by simpa using find?_some hf
      exact ⟨h,rfl,hsize.trans (hagrees s hs (hid.symm.trans hidc))⟩
  obtain ⟨h,hfind,hsize⟩ := hfound
  unfold Writer.chunkSizeForHeader Writer.chunkHeader
  rw [hfind,bind_ok,hsize,if_neg (by omega)]

theorem append_building (s : Segment) (cs' : List Chunk) :
    Building { ((w.pushHeader s.id s.payload.length).put s.bytes) with chunks := cs' } start
      (segs ++ [s]) cs' := by
  have hpos : (w.pushHeader s.id s.payload.length).pos =
      (w.pushHeader s.id s.payload.length).file.length := hw.pos
  rw [put_end hpos]
  refine ⟨hw.lead,?_,rfl,?_,rfl⟩
  · dsimp only [Writer.pushHeader]
    rw [hw.file,render_append,append_assoc]
    simp [render]
  · rw [pushHeader_headers hw,headersOf_append]
    rfl

theorem writeChunk_building (hc : Writable c) (hagrees : Agrees c segs) :
    ∃ w', w.writeChunk c = .ok w' ∧ Building w' start (segs ++ [segmentOf c]) (cs ++ [c]) ∧
      w'.postDataChunks = w.postDataChunks := by
  have happ := append_building hw (segmentOf c) (cs ++ [c])
  have hlen : (segmentOf c).payload.length = c.size := hc.writes
  rw [hlen] at happ
  refine ⟨_,?_,happ,rfl⟩
  unfold Writer.writeChunk
  dsimp only
  rw [chunkSizeForHeader_agrees hw hagrees hc.small,bind_ok,chunkImage_segment hc]
  unfold Writer.put Writer.pushHeader
  rw [hw.chunks]
  rfl

theorem writeChunks_building {new : List Chunk} (hnew : ∀ c ∈ new, Writable c)
    (hagrees : ∀ c ∈ new, Agrees c segs)
    (hpair : ∀ c ∈ new, ∀ d ∈ new, c.id = d.id → c.size = d.size) :
    ∃ w', w.writeChunks new = .ok w' ∧ Building w' start (segs ++ new.map segmentOf) (cs ++ new) ∧
      w'.postDataChunks = w.postDataChunks := by
  induction new generalizing w segs cs with
  | nil =>
    refine ⟨w,rfl,?_,rfl⟩
    rw [map_nil,append_nil,append_nil]
    exact hw
  | cons c new ih =>
    obtain ⟨w1,hrun,hb,hpost⟩ := writeChunk_building hw (hnew c mem_cons_self)
      (hagrees c mem_cons_self)
    have hnext : ∀ d ∈ new, Agrees d (segs ++ [segmentOf c]) := by
      intro d hd s hs hid
      rcases mem_append.mp hs with hs | hs
      · exact hagrees d (.tail _ hd) s hs hid
      · rw [mem_singleton.mp hs] at hid ⊢
        exact (hnew c mem_cons_self).writes.trans
          (hpair c mem_cons_self d (.tail _ hd) hid)
    obtain ⟨w2,hrun',hb',hpost'⟩ := ih hb (forall_mem_cons.mp hnew).2 hnext
      (fun d hd e he => hpair d (.tail _ hd) e (.tail _ he))
    refine ⟨w2,?_,?_,hpost'.trans hpost⟩
    · rw [Writer.writeChunks,hrun,bind_ok,hrun']
    · rw [map_cons,append_cons segs,append_cons cs]
      exact hb'

theorem writeChunkPlaceholder_building (id : UInt32) {size : Nat} (heven : size % 2 = 0) :
    Building (w.writeChunkPlaceholder id size) start
      (segs ++ [⟨id,size,replicate size 0⟩]) cs := by
  have happ := append_building hw ⟨id,size,replicate size 0⟩ cs
  have hbytes : (Segment.mk id size (replicate size 0)).bytes =
      header id size ++ replicate size 0 := by
    unfold Segment.bytes padding
    rw [length_replicate,if_neg (by omega),append_nil]
  rw [hbytes] at happ
  rw [length_replicate] at happ
  have hchunks : ((w.pushHeader id size).put (header id size ++ replicate size 0)).chunks = cs :=
    hw.chunks
  rw [← hchunks] at happ ⊢
  exact happ

end

def riffStart (id : UInt32) (size : Nat) : List UInt8 := header id size ++ le 4 waveId.toNat

theorem riffStart_length (id : UInt32) (size : Nat) : (riffStart id size).length = 12 := by
  rw [riffStart,length_append,header_length,le_length]

def junkSegment : Segment := ⟨junkId,28,replicate 28 0⟩

def chnaReserved : Nat := maxNumberOfUids * 40 + 4

def chnaPlaceholder : Segment := ⟨chnaId,chnaReserved,replicate chnaReserved 0⟩

def reserve (additional : List Chunk) : List Segment :=
  if additional.find? (fun c => c.id = chnaId) = none then [chnaPlaceholder] else []

def preamble (info : FormatInfo) (additional : List Chunk) : List Segment :=
  junkSegment :: segmentOf (.format info) :: (additional.map segmentOf ++ reserve additional)

structure Open (w : Writer) (info : FormatInfo) (segs : List Segment) (content : List UInt8)
    (post : List Chunk) : Prop where
  file : w.file = riffStart riffId uint32Max ++ render segs ++ (header dataId 0 ++ content)
  pos : w.pos = w.file.length
  headers : w.chunkHeaders =
    headersOf 12 segs ++ [⟨dataId,content.length,12 + (render segs).length⟩]
  chunks : ∃ cs, w.chunks = .format info :: cs ++ [.data content.length] ∧ ∀ c ∈ cs, c.id ≠ dataId
  absent : Absent dataId segs
  post : w.postDataChunks = post

structure Embeds (cs : List Chunk) : Prop where
  writable : ∀ c ∈ cs, Writable c
  notJunk : ∀ c ∈ cs, c.id ≠ junkId
  notFormat : ∀ c ∈ cs, c.id ≠ fmtId
  agree : ∀ c ∈ cs, ∀ d ∈ cs, c.id = d.id → c.size = d.size

theorem find_data {hs : List ChunkHeader} {h : ChunkHeader} (hid : h.id = dataId)
    (habsent : Absent dataId segs) (hhs : hs = headersOf 12 segs ++ [h]) :
    hs.find? (fun h => h.id = dataId) = some h := by
  rw [hhs,find?_append,find?_eq_none.mpr,Option.none_or,find?_cons_of_pos (by simpa using hid)]
  intro x hx
  obtain ⟨s,hs,hsid,-⟩ := headersOf_mem hx
  simpa [hsid] using habsent s hs

section

variable {w : Writer} {segs : List Segment} {cs : List Chunk} {info : FormatInfo}
  {additional : List Chunk}

theorem writeData_open (hw : Building w (riffStart riffId uint32Max) segs (.format info :: cs))
    (habsent : Absent dataId segs) (hcs : ∀ c ∈ cs, c.id ≠ dataId) (hpost : w.postDataChunks = []) :
    ∃ w', w.writeChunk (.data 0) = .ok w' ∧ Open w' info segs [] [] := by
  have hheaders := pushHeader_headers hw dataId 0
  have hsize : (w.pushHeader dataId 0).chunkSizeForHeader dataId = .ok 0 := by
    unfold Writer.chunkSizeForHeader Writer.chunkHeader
    rw [find_data rfl habsent hheaders,bind_ok,if_neg (by decide : ¬uint32Max ≤ 0)]
  have hpos : (w.pushHeader dataId 0).pos = (w.pushHeader dataId 0).file.length := hw.pos
  have himage : Writer.chunkImage (.data 0) 0 = header dataId 0 := by
    rfl
  have hrun : w.writeChunk (.data 0) = .ok { (w.pushHeader dataId 0).put (header dataId 0) with
      chunks := w.chunks ++ [.data 0] } := by
    unfold Writer.writeChunk
    dsimp only [Chunk.id,Chunk.size]
    rw [hsize,bind_ok,himage]
    rfl
  rw [put_end hpos] at hrun
  refine ⟨_,hrun,?_,rfl,hheaders,⟨cs,?_,hcs⟩,habsent,hpost⟩
  · dsimp only [Writer.pushHeader]
    rw [hw.file,append_nil]
  · rw [hw.chunks]
    rfl

theorem preamble_absent (hadd : ∀ c ∈ additional, Writable c) :
    Absent dataId (preamble info additional) := by
  intro s hs
  simp only [preamble,mem_cons,mem_append,mem_map,reserve] at hs
  rcases hs with rfl | rfl | ⟨c,hc,rfl⟩ | hs
  · decide
  · exact (by decide : fmtId ≠ dataId)
  · exact (hadd c hc).notData
  split at hs
  · rw [mem_singleton.mp hs]
    decide
  · cases hs

theorem create_open {channels : UInt16} {sampleRate : UInt32} {bitDepth : UInt16}
    (hinfo : FormatInfo.make channels sampleRate bitDepth = .ok info) (hadd : Embeds additional) :
    ∃ w, Writer.create channels sampleRate bitDepth additional = .ok w ∧
      Open w info (preamble info additional) [] [] := by
  have hempty : Building (Writer.writeRiffHeader ⟨[],0,[],[],[]⟩) (riffStart riffId uint32Max)
      [] [] := by
    refine ⟨riffStart_length _ _,?_,?_,rfl,rfl⟩
    · simp [Writer.writeRiffHeader,Writer.put,riffStart,header,render]
    · simp [Writer.writeRiffHeader,Writer.put]
  have hjunk : Building _ _ [junkSegment] [] :=
    writeChunkPlaceholder_building hempty junkId (by decide : 28 % 2 = 0)
  obtain ⟨w1,hrun1,hw1,hpost1⟩ := writeChunk_building hjunk
    (c := .format info) ⟨format_writes info,(by decide : fmtId ≠ dataId),(by decide : 16 < uint32Max)⟩
    (forall_mem_singleton.mpr fun hid => absurd hid (by decide : junkId ≠ fmtId))
  have hfirst : ∀ c ∈ additional, Agrees c ([junkSegment] ++ [segmentOf (.format info)]) := by
    intro c hc
    exact forall_mem_cons.mpr ⟨fun hid => absurd hid.symm (hadd.notJunk c hc),
      forall_mem_singleton.mpr fun hid => absurd hid.symm (hadd.notFormat c hc)⟩
  obtain ⟨w2,hrun2,hw2,hpost2⟩ := writeChunks_building hw1 hadd.writable hfirst hadd.agree
  have hchna : w2.chunk chnaId = additional.find? (fun c => c.id = chnaId) := by
    unfold Writer.chunk
    rw [hw2.chunks]
    exact find?_cons_of_neg (by
      rw [decide_eq_true_eq]
      exact (by decide : fmtId ≠ chnaId))
  have hw3 : Building (if w2.chunk chnaId = none then w2.writeChunkPlaceholder chnaId chnaReserved
      else w2) (riffStart riffId uint32Max) (preamble info additional)
      (.format info :: additional) := by
    rw [hchna]
    unfold preamble reserve
    split
    · exact writeChunkPlaceholder_building hw2 chnaId (by decide : chnaReserved % 2 = 0)
    · rw [append_nil]
      exact hw2
  have habsent : Absent dataId (preamble info additional) := preamble_absent hadd.writable
  have hpost3 : (if w2.chunk chnaId = none then w2.writeChunkPlaceholder chnaId chnaReserved
      else w2).postDataChunks = [] := by
    have : w2.postDataChunks = [] := hpost2.trans hpost1
    split <;> exact this
  obtain ⟨w,hrun,hw⟩ := writeData_open hw3 habsent (fun c hc => (hadd.writable c hc).notData)
    hpost3
  refine ⟨w,?_,hw⟩
  unfold Writer.create
  rw [hinfo,bind_ok,hrun1,bind_ok,hrun2,bind_ok]
  exact hrun

end

variable {id : UInt32} {segs xs ys : List Segment}

def Segment.patch (s : Segment) (bs : List UInt8) : Segment :=
  { s with payload := bs ++ s.payload.drop bs.length }

def patchFirst (id : UInt32) (bs : List UInt8) : List Segment → List Segment
  | [] => []
  | s :: segs => if s.id = id then Segment.patch s bs :: segs else s :: patchFirst id bs segs

def room (id : UInt32) : List Segment → Nat
  | [] => 0
  | s :: segs => if s.id = id then s.payload.length else room id segs

def shape (s : Segment) : UInt32 × Nat × Nat := (s.id,s.size,s.payload.length)

theorem patch_length {bs : List UInt8} (h : bs.length ≤ s.payload.length) :
    (Segment.patch s bs).payload.length = s.payload.length := by
  rw [Segment.patch,length_append,length_drop]
  omega

theorem patchFirst_shape {bs : List UInt8} (h : bs.length ≤ room id segs) :
    (patchFirst id bs segs).map shape = segs.map shape := by
  induction segs with
  | nil => rfl
  | cons s segs ih =>
    unfold patchFirst
    unfold room at h
    split
    · rename_i hid
      rw [if_pos hid] at h
      rw [map_cons,map_cons,shape,patch_length h]
      rfl
    · rename_i hid
      rw [if_neg hid] at h
      rw [map_cons,map_cons,ih h]

theorem room_of_shape (h : xs.map shape = ys.map shape) : room id xs = room id ys := by
  induction xs generalizing ys with
  | nil =>
    rw [map_nil,eq_comm,map_eq_nil_iff] at h
    rw [h]
  | cons x xs ih =>
    cases ys with
    | nil => cases h
    | cons y ys =>
      rw [map_cons,map_cons,cons.injEq,shape,shape,Prod.mk.injEq,Prod.mk.injEq] at h
      rw [room,room,h.1.1,h.1.2.2,ih h.2]

theorem room_split (h : 0 < room id segs) :
    ∃ xs s ys, segs = xs ++ s :: ys ∧ Absent id xs ∧ s.id = id ∧ room id segs = s.payload.length ∧
      ∀ bs, patchFirst id bs segs = xs ++ Segment.patch s bs :: ys := by
  induction segs with
  | nil => exact absurd h (Nat.lt_irrefl 0)
  | cons s segs ih =>
    by_cases hid : s.id = id
    · exact ⟨[],s,segs,rfl,by simp [Absent],hid,if_pos hid,fun bs => if_pos hid⟩
    rw [room,if_neg hid] at h
    obtain ⟨xs,t,ys,rfl,habsent,ht,hroom,hpatch⟩ := ih h
    refine ⟨s :: xs,t,ys,rfl,?_,ht,(if_neg hid).trans hroom,fun bs => ?_⟩
    · exact forall_mem_cons.mpr ⟨hid,habsent⟩
    · rw [patchFirst,if_neg hid,hpatch]
      rfl

theorem headersOf_shape (h : xs.map shape = ys.map shape) (p : Nat) :
    headersOf p xs = headersOf p ys ∧ (render xs).length = (render ys).length := by
  induction xs generalizing ys p with
  | nil =>
    rw [map_nil,eq_comm,map_eq_nil_iff] at h
    rw [h]
    exact ⟨rfl,rfl⟩
  | cons x xs ih =>
    cases ys with
    | nil => cases h
    | cons y ys =>
      rw [map_cons,map_cons,cons.injEq,shape,shape,Prod.mk.injEq,Prod.mk.injEq] at h
      have hlen : x.bytes.length = y.bytes.length := by rw [bytes_length,bytes_length,h.1.2.2]
      obtain ⟨hheaders,hrender⟩ := ih h.2 (p + x.bytes.length)
      refine ⟨?_,?_⟩
      · rw [headersOf,headersOf,hheaders,h.1.1,h.1.2.2,hlen]
      · rw [render_cons,render_cons,length_append,length_append,hlen,hrender]

theorem mem_of_shape (h : xs.map shape = ys.map shape) (hs : s ∈ xs) :
    ∃ t ∈ ys, shape t = shape s := by
  have hmem : shape s ∈ ys.map shape := h ▸ mem_map_of_mem hs
  exact mem_map.mp hmem

structure Contents where
  segs : List Segment
  content : List UInt8
  post : List Chunk

def frameBytes {α : Type} (quantise : Nat → α → Int) (info : FormatInfo) (inBuffer : Nat → α)
    (frames : Nat) : List UInt8 :=
  ((List.range (frames * info.channelCount.toNat)).map inBuffer).flatMap fun x =>
    Writer.sampleBytes info.bitsPerSample.toNat (quantise info.bitsPerSample.toNat x)

def Narrow (info : FormatInfo) : Prop :=
  info.channelCount.toNat * info.bitsPerSample.toNat / 8 ≤ 65535

def Contents.apply {α : Type} (quantise : Nat → α → Int) (info : FormatInfo) (c : Contents) :
    Call α → Contents
  | .write inBuffer frames =>
    { c with content := c.content ++ frameBytes quantise info inBuffer frames }
  | .setChnaChunk ids => { c with segs := patchFirst chnaId (chnaBytes ids) c.segs }
  | .setAxmlChunk chunk => { c with post := c.post ++ [chunk] }

def Call.Fits {α : Type} (reserved : Nat) : Call α → Prop
  | .setChnaChunk ids => ids.length ≤ 1024 ∧ 4 + ids.length * 40 ≤ reserved
  | _ => True

section

variable {α : Type} {quantise : Nat → α → Int} {w : Writer} {info : FormatInfo} {c : Contents}

theorem samples_length (bits : Nat) (samples : List α) :
    (samples.flatMap fun x => Writer.sampleBytes bits (quantise bits x)).length =
      samples.length * (bits / 8) := by
  induction samples with
  | nil => simp
  | cons x samples ih =>
    rw [flatMap_cons,length_append,ih,Writer.sampleBytes,le_length,length_cons,
      Nat.succ_mul,Nat.add_comm]

theorem bitsPerSample_bytes (info : FormatInfo) : 8 ∣ info.bitsPerSample.toNat := by
  rcases info.bits_supported with h | h | h <;> rw [h] <;> decide

theorem narrow_block (h : Narrow info) :
    info.blockAlignment = info.channelCount.toNat * (info.bitsPerSample.toNat / 8) := by
  rw [← Nat.mul_div_assoc _ (bitsPerSample_bytes info)]
  exact Nat.mod_eq_of_lt (Nat.lt_succ_of_le h)

theorem frameBytes_length (hnarrow : Narrow info) (inBuffer : Nat → α) (frames : Nat) :
    (frameBytes quantise info inBuffer frames).length = frames * info.blockAlignment := by
  rw [frameBytes,samples_length,length_map,length_range,Nat.mul_assoc,narrow_block hnarrow]

theorem chnaBytes_length {ids : List AudioId} (hids : ids.length ≤ 1024) :
    (chnaBytes ids).length = 4 + ids.length * 40 := by
  have hwrites := chna_writes (by omega : ids.length < 65536)
  rwa [Chunk.Writes,Chunk.bytes,Chunk.size,numUids,Nat.mod_eq_of_lt (by omega)] at hwrites

theorem setDataSize_last {cs : List Chunk} (h : ∀ c ∈ cs, c.id ≠ dataId) (n m : Nat) :
    Writer.setDataSize n (cs ++ [.data m]) = cs ++ [.data n] := by
  induction cs with
  | nil => rfl
  | cons c cs ih =>
    rw [cons_append,Writer.setDataSize,if_neg (h c mem_cons_self),
      ih fun d hd => h d (.tail _ hd)]
    rfl

theorem setHeaderSize_last (h : Absent dataId segs) (p q n m : Nat) :
    Writer.setHeaderSize n (headersOf p segs ++ [⟨dataId,m,q⟩]) =
      headersOf p segs ++ [⟨dataId,n,q⟩] := by
  induction segs generalizing p with
  | nil => rfl
  | cons s segs ih =>
    rw [headersOf,cons_append,Writer.setHeaderSize,if_neg (h s mem_cons_self),
      ih fun t ht => h t (.tail _ ht)]
    rfl

variable (hw : Open w info c.segs c.content c.post)
include hw

theorem open_formatChunk : w.formatChunk = .ok info := by
  obtain ⟨cs,hcs,-⟩ := hw.chunks
  unfold Writer.formatChunk Writer.chunk
  rw [hcs]
  rfl

theorem open_dataChunkSize : w.dataChunkSize = .ok c.content.length := by
  obtain ⟨cs,hcs,hids⟩ := hw.chunks
  have hfind : w.chunk dataId = some (.data c.content.length) := by
    unfold Writer.chunk
    rw [hcs,find?_append,find?_eq_none.mpr,Option.none_or,
      find?_cons_of_pos (by simp [Chunk.id])]
    simp only [decide_eq_true_eq]
    exact forall_mem_cons.mpr ⟨(by decide : fmtId ≠ dataId),hids⟩
  unfold Writer.dataChunkSize
  rw [hfind]
  rfl

theorem write_open (hnarrow : Narrow info) (inBuffer : Nat → α) (frames : Nat) :
    ∃ w', w.write quantise inBuffer frames = .ok w' ∧ Open w' info c.segs
      (c.content ++ frameBytes quantise info inBuffer frames) c.post := by
  have hbits : info.bitsPerSample.toNat = 16 ∨ info.bitsPerSample.toNat = 24 ∨
      info.bitsPerSample.toNat = 32 := by
    rcases info.bits_supported with h | h | h <;> rw [h] <;> decide
  have hlen : (c.content ++ frameBytes quantise info inBuffer frames).length =
      c.content.length + frames * info.blockAlignment := by
    rw [length_append,frameBytes_length hnarrow]
  have hrun : w.write quantise inBuffer frames = .ok
      { w.put (frameBytes quantise info inBuffer frames) with
        chunks := Writer.setDataSize (c.content.length + frames * info.blockAlignment) w.chunks
        chunkHeaders := Writer.setHeaderSize (c.content.length + frames * info.blockAlignment)
          w.chunkHeaders } := by
    have hfits : ¬frames * info.blockAlignment < (frameBytes quantise info inBuffer frames).length := by
      rw [frameBytes_length hnarrow]
      exact Nat.lt_irrefl _
    unfold Writer.write Writer.encodePcmSamples
    rw [open_formatChunk hw,bind_ok,if_pos hbits,bind_ok]
    dsimp only
    rw [← frameBytes,if_neg hfits,open_dataChunkSize hw,bind_ok]
    rfl
  rw [put_end hw.pos] at hrun
  obtain ⟨cs,hcs,hids⟩ := hw.chunks
  refine ⟨_,hrun,?_,rfl,?_,⟨cs,?_,hids⟩,hw.absent,hw.post⟩
  · rw [hw.file]
    simp only [append_assoc]
  · rw [hw.headers,setHeaderSize_last hw.absent,hlen]
  rw [hcs,hlen,setDataSize_last]
  exact forall_mem_cons.mpr ⟨(by decide : fmtId ≠ dataId),hids⟩

variable (hsmall : room chnaId c.segs < uint32Max) (hsize : ∀ s ∈ c.segs, s.size = s.payload.length)
include hsmall hsize

theorem setChnaChunk_open {ids : List AudioId} (hids : ids.length ≤ 1024)
    (hroom : 4 + ids.length * 40 ≤ room chnaId c.segs) : ∃ w', w.setChnaChunk ids = .ok w' ∧
      Open w' info (patchFirst chnaId (chnaBytes ids) c.segs) c.content c.post := by
  have hwrites := chnaBytes_length hids
  have hshape := patchFirst_shape (hwrites.trans_le hroom)
  obtain ⟨xs,s,ys,hsplit,habsent,hid,hroomEq,hpatch⟩ :=
    room_split (by omega : 0 < room chnaId c.segs)
  have hheader : w.chunkHeader chnaId = .ok ⟨chnaId,s.payload.length,12 + (render xs).length⟩ := by
    rw [Writer.chunkHeader,hw.headers,find?_append,hsplit,headersOf_find habsent hid]
    rfl
  have hfield : w.chunkSizeForHeader chnaId = .ok s.payload.length := by
    unfold Writer.chunkSizeForHeader
    rw [hheader,bind_ok,if_neg (by dsimp only; omega)]
  have himage : Writer.chunkImage (.chna ids) s.payload.length =
      header chnaId s.payload.length ++ chnaBytes ids := by
    unfold Writer.chunkImage
    rw [if_pos (by exact (by decide : chnaId ≠ dataId)),padding,if_neg (by
      simp only [Chunk.size,numUids]
      omega),append_nil]
    rfl
  have hrun : w.setChnaChunk ids = .ok (((w.seekp (12 + (render xs).length)).put
      (header chnaId s.payload.length ++ chnaBytes ids)).seekp w.pos) := by
    unfold Writer.setChnaChunk Writer.overwriteChunk
    rw [if_neg (by rw [numUids]; omega),hheader,bind_ok,hfield,bind_ok,himage]
  have hbefore : (w.seekp (12 + (render xs).length)).file =
      (riffStart riffId uint32Max ++ render xs) ++ ((header chnaId s.payload.length ++
        s.payload.take (chnaBytes ids).length) ++ (s.payload.drop (chnaBytes ids).length ++
          (padding s.payload.length ++ render ys) ++ (header dataId 0 ++ c.content))) := by
    have hs : s.bytes = header chnaId s.payload.length ++ ((s.payload.take (chnaBytes ids).length ++
        s.payload.drop (chnaBytes ids).length) ++ padding s.payload.length) := by
      rw [take_append_drop,Segment.bytes,hid,hsize s (by simp [hsplit])]
    dsimp only [Writer.seekp]
    rw [hw.file,hsplit,render_append,render_cons,hs]
    simp only [append_assoc]
  have hafter := put_inside (header chnaId s.payload.length ++ chnaBytes ids) hbefore (by
      rw [length_append,length_append,length_take]
      omega) (by
      rw [length_append,riffStart_length]
      rfl)
  obtain ⟨hheaders,hlength⟩ := headersOf_shape hshape 12
  have hfile : (((w.seekp (12 + (render xs).length)).put (header chnaId s.payload.length ++
      chnaBytes ids)).seekp w.pos).file = riffStart riffId uint32Max ++
        render (patchFirst chnaId (chnaBytes ids) c.segs) ++ (header dataId 0 ++ c.content) := by
    have hs : (Segment.patch s (chnaBytes ids)).bytes = header chnaId s.payload.length ++
        ((chnaBytes ids ++ s.payload.drop (chnaBytes ids).length) ++ padding s.payload.length) := by
      rw [Segment.bytes,patch_length (by omega)]
      dsimp only [Segment.patch]
      rw [hid,hsize s (by simp [hsplit])]
    dsimp only [Writer.seekp] at hafter ⊢
    rw [hafter,hpatch,render_append,render_cons,hs]
    simp only [append_assoc]
  refine ⟨_,hrun,hfile,?_,?_,hw.chunks,?_,hw.post⟩
  · rw [hfile]
    dsimp only [Writer.seekp]
    rw [hw.pos,hw.file]
    simp only [length_append,hlength]
  · rw [hheaders,hlength]
    exact hw.headers
  intro x hx
  obtain ⟨t,ht,hxt⟩ := mem_of_shape hshape hx
  have hidx : t.id = x.id := congrArg Prod.fst hxt
  rw [← hidx]
  exact hw.absent t ht

theorem call_open (hnarrow : Narrow info) {call : Call α} (hfits : call.Fits (room chnaId c.segs)) :
    ∃ w', call.run quantise w = .ok w' ∧
      Open w' info (c.apply quantise info call).segs (c.apply quantise info call).content
        (c.apply quantise info call).post ∧
      (c.apply quantise info call).segs.map shape = c.segs.map shape := by
  cases call with
  | write inBuffer frames =>
    obtain ⟨w',hrun,hopen⟩ := write_open hw hnarrow inBuffer frames
    exact ⟨w',hrun,hopen,rfl⟩
  | setChnaChunk ids =>
    obtain ⟨w',hrun,hopen⟩ := setChnaChunk_open hw hsmall hsize hfits.1 hfits.2
    exact ⟨w',hrun,hopen,patchFirst_shape ((chnaBytes_length hfits.1).trans_le hfits.2)⟩
  | setAxmlChunk chunk =>
    refine ⟨_,rfl,⟨hw.file,hw.pos,hw.headers,hw.chunks,hw.absent,?_⟩,rfl⟩
    exact congrArg (· ++ [chunk]) hw.post

theorem runCalls_open (hnarrow : Narrow info) {calls : List (Call α)}
    (hfits : ∀ call ∈ calls, call.Fits (room chnaId c.segs)) :
    ∃ w' c', runCalls quantise w calls = .ok w' ∧
      c' = calls.foldl (Contents.apply quantise info) c ∧
      Open w' info c'.segs c'.content c'.post ∧ c'.segs.map shape = c.segs.map shape := by
  induction calls generalizing w c with
  | nil => exact ⟨w,c,rfl,rfl,hw,rfl⟩
  | cons call calls ih =>
    obtain ⟨w1,hrun,hopen,hshape⟩ := call_open hw hsmall hsize hnarrow (hfits call mem_cons_self)
    have hroom : room chnaId (c.apply quantise info call).segs = room chnaId c.segs :=
      room_of_shape hshape
    have hsize' : ∀ s ∈ (c.apply quantise info call).segs, s.size = s.payload.length := by
      intro s hs
      obtain ⟨t,ht,hst⟩ := mem_of_shape hshape hs
      rw [shape,shape,Prod.mk.injEq,Prod.mk.injEq] at hst
      rw [← hst.2.1,← hst.2.2]
      exact hsize t ht
    obtain ⟨w2,c',hrun',hc',hopen',hshape'⟩ := ih hopen
      (hroom ▸ hsmall) hsize' fun x hx => hroom ▸ hfits x (.tail _ hx)
    refine ⟨w2,c',?_,hc',hopen',hshape'.trans hshape⟩
    rw [runCalls,hrun,bind_ok,hrun']

end

end FuzzingTargets.Bw64
