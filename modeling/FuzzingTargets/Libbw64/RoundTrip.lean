import FuzzingTargets.Libbw64.Opening

namespace FuzzingTargets.Bw64
open LittleEndian Riff Checked Slices List

def writeFile {α : Type} (channels : UInt16) (sampleRate : UInt32) (bitDepth : UInt16)
    (chnaChunk : Option (List AudioId)) (axmlChunk : Option (List UInt8)) (calls : List (Call α)) :
    Session α :=
  ⟨channels,sampleRate,bitDepth,chnaChunk.toList.map .chna ++ axmlChunk.toList.map .axml,calls⟩

def Call.frames {α : Type} : Call α → Nat
  | .write _ frames => frames
  | _ => 0

theorem content_length {α : Type} (quantise : Nat → α → Int) (s : Session α) {info : FormatInfo}
    (hnarrow : Narrow info) :
    (s.content quantise info).length = (s.calls.map Call.frames).sum * info.blockAlignment := by
  unfold Session.content
  induction s.calls with
  | nil => simp
  | cons call calls ih =>
    have hcall : (call.bytes quantise info).length = call.frames * info.blockAlignment := by
      cases call with
      | write inBuffer frames => exact frameBytes_length hnarrow inBuffer frames
      | setChnaChunk ids | setAxmlChunk chunk => simp [Call.bytes,Call.frames]
    simp [ih,hcall,Nat.add_mul]

theorem yields_axmls (texts : List (List UInt8)) :
    Forall₂ Yields ((texts.map Chunk.axml).map segmentOf) (texts.map Chunk.axml) := by
  induction texts with
  | nil => exact .nil
  | cons text texts ih => exact .cons (.axml _ text) ih

theorem find_axmls {id : UInt32} (hid : id ≠ axmlId) (texts : List (List UInt8)) :
    (texts.map Chunk.axml).find? (fun c => c.id = id) = none := by
  simp [Chunk.id,hid.symm]

theorem find_axml (text : Option (List UInt8)) :
    (text.toList.map Chunk.axml).find? (fun c => c.id = axmlId) = text.map .axml := by
  cases text with
  | none | some text => rfl

theorem given_only {β : Type} {given : β} {set : List β} {label : Option β}
    (h : (some given).toList ++ set = label.toList) : label = some given ∧ set = [] := by
  cases label with
  | none => cases h
  | some x =>
    obtain ⟨rfl,hset⟩ := cons.inj h
    exact ⟨rfl,hset⟩

section

variable {α : Type} {quantise : Nat → α → Int} {s : Session α} {info : FormatInfo}
  {chna label : Option (List AudioId)} {axml text : Option (List UInt8)}

structure Holds (segs : List Segment) (cs : List Chunk) (ids : List AudioId)
    (axml : Option (List UInt8)) : Prop where
  yields : List.Forall₂ Yields segs cs
  notFormat : ∀ c ∈ cs, c.id ≠ fmtId
  notData : ∀ c ∈ cs, c.id ≠ dataId
  chna : cs.find? (fun c => c.id = chnaId) = some (.chna ids)
  axml : cs.find? (fun c => c.id = axmlId) = axml.map .axml

theorem holds_given (ids : List AudioId) (hids : ids.length ≤ 1024) (axml : Option (List UInt8)) :
    Holds (([Chunk.chna ids] ++ axml.toList.map Chunk.axml).map segmentOf)
      ([.chna ids] ++ axml.toList.map Chunk.axml) ids axml := by
  have hchna : Yields (segmentOf (.chna ids)) (.chna ids) := by
    have h := Yields.chna (4 + numUids ids * 40) ids [] (by omega)
    rw [append_nil] at h
    exact h
  refine ⟨.cons hchna (yields_axmls _),?_,?_,rfl,find_axml axml⟩
  · cases axml <;> simp [Chunk.id] <;> decide
  · cases axml <;> simp [Chunk.id] <;> decide

theorem holds_set (ids : List AudioId) (hids : ids.length ≤ 1024) (tail : List UInt8)
    (axml : Option (List UInt8)) : Holds ((axml.toList.map Chunk.axml).map segmentOf ++
        [⟨chnaId,chnaReserved,chnaBytes ids ++ tail⟩])
      (axml.toList.map Chunk.axml ++ [.chna ids]) ids axml := by
  refine ⟨?_,?_,?_,?_,?_⟩
  · exact rel_append (yields_axmls _) (.cons (.chna _ ids tail (by omega)) .nil)
  · cases axml <;> simp [Chunk.id] <;> decide
  · cases axml <;> simp [Chunk.id] <;> decide
  · rw [find?_append,find_axmls (by decide)]
    rfl
  rw [find?_append,find_axml]
  cases axml with
  | none | some text => rfl

theorem chnaPlaceholder_eq :
    chnaPlaceholder = ⟨chnaId,chnaReserved,chnaBytes [] ++ replicate 40960 0⟩ := by
  have hempty : chnaBytes [] = replicate 4 0 := by decide
  have hreserved : replicate chnaReserved (0 : UInt8) =
      replicate 4 0 ++ replicate 40960 0 := by
    rfl
  rw [chnaPlaceholder,hreserved,hempty]

theorem patchAll_placeholder (label : Option (List AudioId)) :
    ∃ tail, patchAll label.toList [chnaPlaceholder] =
      [⟨chnaId,chnaReserved,chnaBytes (label.getD []) ++ tail⟩] := by
  cases label with
  | none => exact ⟨replicate 40960 0,congrArg (fun x => [x]) chnaPlaceholder_eq⟩
  | some ids =>
    refine ⟨chnaPlaceholder.payload.drop (chnaBytes ids).length,?_⟩
    have hpatch : patchFirst chnaId (chnaBytes ids) [chnaPlaceholder] =
        [Segment.patch chnaPlaceholder (chnaBytes ids)] := if_pos rfl
    exact hpatch

theorem patchAll_axmls (patches : List (List AudioId)) (texts : List (List UInt8))
    (segs : List Segment) : patchAll patches ((texts.map Chunk.axml).map segmentOf ++ segs) =
      (texts.map Chunk.axml).map segmentOf ++ patchAll patches segs := by
  induction texts with
  | nil => rfl
  | cons text texts ih =>
    have hid : (segmentOf (.axml text)).id ≠ chnaId := (by decide : axmlId ≠ chnaId)
    rw [map_cons,map_cons,cons_append,patchAll_cons _ hid,ih]
    rfl

variable {channels : UInt16} {sampleRate : UInt32} {bitDepth : UInt16} {calls : List (Call α)}

theorem lead_bytes_length : (s.lead quantise info).bytes.length = 36 := by
  have hjunk : junkSegment.payload.length = 28 := length_replicate
  have hds64 : ∀ m n, (ds64Segment m n).payload.length = 28 := fun _ _ => ds64_writes _
  unfold Session.lead leadSegment
  split
  · rw [bytes_length,hds64]
  · rw [bytes_length,hjunk]

theorem body_split : s.body quantise info =
    s.segments info ++ dataSegment (s.content quantise info) :: s.later.map segmentOf := by
  rw [Session.body,append_assoc]
  rfl

theorem file_content {file : List UInt8}
    (hdrop : file.drop 12 = render (s.lead quantise info :: s.body quantise info)) :
    At file (48 + (render (s.segments info)).length + 8) (s.content quantise info) := by
  have hall := at_full hdrop
  rw [render_cons,body_split,render_append,render_cons] at hall
  have hdata := (at_append.mp (at_append.mp (at_append.mp hall).2).2).1
  rw [lead_bytes_length] at hdata
  have hpayload := (at_append.mp hdata).2
  exact (at_append.mp hpayload).1

theorem body_scanned (hinfo : FormatInfo.make s.channels s.sampleRate s.bitDepth = .ok info)
    (hs : s.Lays) {cs : List Chunk} (hyields : Forall₂ Yields (s.body quantise info) cs)
    (hsmall : 48 + (render (s.body quantise info)).length < 2 ^ 63) :
    Scanned (s.body quantise info) cs (s.riffSize quantise info) (s.content quantise info).length := by
  refine ⟨hyields,?_,?_,?_,rfl,hsmall⟩
  · intro x hx
    exact body_field hinfo hs x (.tail _ hx)
  · intro x hx hid
    rcases body_cases hinfo hs x (.tail _ hx) with h | rfl
    · exact h.1
    · exact absurd rfl hid
  intro x hx hid
  rcases body_cases hinfo hs x (.tail _ hx) with h | rfl
  · exact absurd hid h.2.2
  · exact ⟨rfl,rfl⟩

structure Recorded (cs : List Chunk) (info : FormatInfo) (size : Nat) (ids : List AudioId)
    (text : Option (List UInt8)) : Prop where
  format : cs.find? (fun c => c.id = fmtId) = some (.format info)
  data : cs.find? (fun c => c.id = dataId) = some (.data size)
  chna : cs.find? (fun c => c.id = chnaId) = some (.chna ids)
  axml : cs.find? (fun c => c.id = axmlId) = text.map .axml

theorem holds_recorded {segs : List Segment} {cs : List Chunk} {ids : List AudioId}
    (h : Holds segs cs ids axml) {later : List Chunk}
    (htext : axml.toList.map Chunk.axml ++ later = text.toList.map .axml) (size : Nat) :
    Recorded (.format info :: cs ++ .data size :: later) info size ids text := by
  have hskip : ∀ id, id ≠ fmtId →
      (Chunk.format info :: cs ++ .data size :: later).find? (fun c => c.id = id) =
        (cs.find? (fun c => c.id = id)).or
          ((Chunk.data size :: later).find? (fun c => c.id = id)) := by
    intro id hid
    rw [cons_append,find?_cons_of_neg (by simp [Chunk.id,hid.symm]),find?_append]
  refine ⟨rfl,?_,?_,?_⟩
  · rw [hskip dataId (by decide),find?_eq_none.mpr (by simpa using h.notData)]
    rfl
  · rw [hskip chnaId (by decide),h.chna]
    rfl
  · have hne : dataId ≠ axmlId := by decide
    rw [hskip axmlId (by decide),h.axml,find?_cons_of_neg (by simp [Chunk.id,hne]),
      ← find_axml text,← htext,find?_append,find_axml]

theorem later_axmls {later : List Chunk}
    (htext : axml.toList.map Chunk.axml ++ later = text.toList.map .axml) :
    Forall₂ Yields (later.map segmentOf) later := by
  have hlater : later = (text.toList.drop (axml.toList.map Chunk.axml).length).map Chunk.axml := by
    rw [map_drop,← htext,drop_left]
  rw [hlater]
  exact yields_axmls _

section

variable (hlabel : chna.toList ++ calls.filterMap Call.chna? = label.toList)
  (hfew : ∀ ids ∈ label, ids.length ≤ 1024)
include hlabel hfew

theorem segments_hold (info : FormatInfo) :
    ∃ segs cs, (writeFile channels sampleRate bitDepth chna axml calls).segments info =
        segmentOf (.format info) :: segs ∧ Holds segs cs (label.getD []) axml := by
  have hfmt : (segmentOf (.format info)).id ≠ chnaId := (by decide : fmtId ≠ chnaId)
  unfold Session.segments
  rw [patchAll_cons _ hfmt]
  refine ⟨_,?_,rfl,?_⟩
  · exact chna.toList.map .chna ++ axml.toList.map .axml ++
      if chna = none then [.chna (label.getD [])] else []
  cases chna with
  | some ids =>
    obtain ⟨rfl,hcalls⟩ := given_only hlabel
    have h := holds_given ids (hfew ids rfl) axml
    dsimp only [writeFile]
    rw [hcalls,if_neg (by simp),append_nil]
    have hreserve : reserve ((some ids).toList.map Chunk.chna ++ axml.toList.map .axml) = [] :=
      if_neg (by simp [Chunk.id])
    rw [hreserve,append_nil]
    exact h
  | none =>
    have hcalls : calls.filterMap Call.chna? = label.toList := hlabel
    have hids : (label.getD []).length ≤ 1024 := by
      cases label with
      | none => simp
      | some ids => exact hfew ids rfl
    have hreserve : reserve ((none : Option (List AudioId)).toList.map Chunk.chna ++
        axml.toList.map .axml) = [chnaPlaceholder] := if_pos (find_axmls (by decide) _)
    obtain ⟨tail,htail⟩ := patchAll_placeholder label
    dsimp only [writeFile]
    rw [hreserve,hcalls,if_pos rfl]
    rw [Option.toList_none,map_nil,nil_append,patchAll_axmls,htail]
    exact holds_set _ hids tail axml

variable (hs : s = writeFile channels sampleRate bitDepth chna axml calls)
  (htext : axml.toList.map Chunk.axml ++ calls.filterMap Call.axml? = text.toList.map .axml)
  (hshort : ∀ t ∈ text, t.length < uint32Max)
  (hblock : channels.toNat * bitDepth.toNat / 8 ≤ 65535)
include hs htext hshort hblock

theorem writeFile_lays : s.Lays := by
  have hall : s.additionalChunks ++ s.later = chna.toList.map .chna ++ text.toList.map .axml := by
    rw [hs,← htext,← append_assoc]
    rfl
  obtain rfl := hs
  have hchna : ∀ ids ∈ chna, ids.length ≤ 1024 := by
    rintro ids rfl
    exact hfew ids (given_only hlabel).1
  refine ⟨hblock,?_,?_,?_⟩
  · rw [hall]
    refine ⟨?_,?_,?_,?_⟩
    · intro c hc
      rcases mem_append.mp hc with hc | hc
      · obtain ⟨ids,hids,rfl⟩ := mem_map.mp hc
        have hlen := hchna ids (Option.mem_toList.mp hids)
        refine ⟨chna_writes (by omega),(by decide : chnaId ≠ dataId),?_⟩
        simp only [Chunk.size,numUids,uint32Max]
        omega
      · obtain ⟨t,ht,rfl⟩ := mem_map.mp hc
        exact ⟨rfl,(by decide : axmlId ≠ dataId),hshort t (Option.mem_toList.mp ht)⟩
    · cases chna <;> cases text <;> simp [Chunk.id] <;> decide
    · cases chna <;> cases text <;> simp [Chunk.id] <;> decide
    · have hne : chnaId ≠ axmlId := by decide
      cases chna <;> cases text <;> simp [Chunk.id,hne,hne.symm]
  · intro _ c hc hid
    have hmem : c ∈ text.toList.map Chunk.axml := by
      rw [← htext]
      exact mem_append_right _ hc
    obtain ⟨t,-,rfl⟩ := mem_map.mp hmem
    exact absurd hid (by decide : axmlId ≠ chnaId)
  intro call hcall
  cases call with
  | write inBuffer frames | setAxmlChunk c => trivial
  | setChnaChunk ids =>
    have hmem : ids ∈ calls.filterMap Call.chna? := mem_filterMap.mpr ⟨_,hcall,rfl⟩
    cases chna with
    | some given =>
      rw [(given_only hlabel).2] at hmem
      cases hmem
    | none =>
      have hids : ids ∈ label.toList := hlabel ▸ hmem
      have hlen := hfew ids (Option.mem_toList.mp hids)
      have hroom : (writeFile channels sampleRate bitDepth none axml calls).chnaRoom =
          chnaReserved := by
        unfold Session.chnaRoom writeFile
        rw [Option.toList_none,map_nil,nil_append,find_axmls (by decide)]
      refine ⟨hlen,?_⟩
      rw [hroom,chnaReserved,maxNumberOfUids]
      omega

theorem writeFile_reopens (quantise : Nat → α → Int)
    (hinfo : FormatInfo.make s.channels s.sampleRate s.bitDepth = .ok info)
    {file : List UInt8} (hfile : s.file quantise = .ok file) (hsmall : file.length < 2 ^ 63)
    (stale : Nat → Nat → UInt8) {fuel : Nat} (hfuel : file.length < fuel) :
    ∃ r cs start, Reader.readFile fuel file stale = .ok r ∧ Loaded file info cs start r ∧
      At file start (s.content quantise info) ∧
      Recorded cs info (s.content quantise info).length (label.getD []) text := by
  have hlays := writeFile_lays hlabel hfew hs htext hshort hblock
  obtain ⟨segs,cs,hsegs,hholds⟩ := @segments_hold α chna label axml channels sampleRate bitDepth
    calls hlabel hfew info
  have htext : axml.toList.map Chunk.axml ++ s.later = text.toList.map .axml := hs ▸ htext
  rw [← hs] at hsegs
  obtain ⟨file',hfile',hfin,hdrop,hcount⟩ := @file_drop α quantise s info hinfo hlays
  obtain rfl : file' = file := Except.ok.inj (hfile'.symm.trans hfile)
  have hlength : file'.length = 48 + (render (s.body quantise info)).length := by
    rw [hfin,finished_eq rfl,length_append,leadStart_length,render_cons,length_append]
    have := @lead_bytes_length α quantise s info
    unfold Session.lead Session.riffSize at this
    omega
  have hrec := @holds_recorded info axml text segs cs _ hholds s.later htext
    (s.content quantise info).length
  have hyields : Forall₂ Yields (s.body quantise info)
      (.format info :: cs ++ .data (s.content quantise info).length :: s.later) := by
    rw [body_split,hsegs]
    exact rel_append (.cons (.format _ info) hholds.yields)
      (.cons (.data _ _) (later_axmls htext))
  have hscanned := body_scanned hinfo hlays hyields (hlength ▸ hsmall)
  rw [length_cons] at hcount
  obtain ⟨r,hread,hloaded⟩ := readFile_finished
    (fun x hx => (segments_plain hinfo hlays x hx).2.2) hrec.format hrec.data hscanned body_split
    (by omega : (s.body quantise info).length + 1 < fuel) hfin
  exact ⟨r,_,_,hread,hloaded,file_content hdrop,hrec⟩

end

def Call.encoded (quantise : Nat → α → Int) (channels bits : Nat) : Call α → List UInt8
  | .write inBuffer frames =>
    ((List.range (frames * channels)).map inBuffer).flatMap fun x =>
      Writer.sampleBytes bits (quantise bits x)
  | _ => []

theorem content_encoded (quantise : Nat → α → Int) (s : Session α) (info : FormatInfo) :
    s.content quantise info =
      s.calls.flatMap (Call.encoded quantise info.channelCount.toNat info.bitsPerSample.toNat) := by
  refine flatMap_congr fun call _ => ?_
  cases call <;> rfl

theorem writeFile_readFile (quantise : Nat → α → Int) (channels : UInt16) (sampleRate : UInt32)
    (bitDepth : UInt16) (chna : Option (List AudioId)) (axml : Option (List UInt8))
    (calls : List (Call α)) (label : Option (List AudioId)) (text : Option (List UInt8))
    (hchannels : 1 ≤ channels) (hrate : 1 ≤ sampleRate)
    (hbits : bitDepth = 16 ∨ bitDepth = 24 ∨ bitDepth = 32)
    (hblock : channels.toNat * bitDepth.toNat / 8 ≤ 65535)
    (hlabel : chna.toList ++ calls.filterMap Call.chna? = label.toList)
    (hfew : ∀ ids ∈ label, ids.length ≤ 1024)
    (htext : axml.toList.map Chunk.axml ++ calls.filterMap Call.axml? = text.toList.map .axml)
    (hshort : ∀ t ∈ text, t.length < uint32Max)
    (hsmall : ∀ file, (writeFile channels sampleRate bitDepth chna axml calls).file quantise =
      .ok file → file.length < 2 ^ 63) :
    ∃ file, (writeFile channels sampleRate bitDepth chna axml calls).file quantise = .ok file ∧
      ∀ stale, ∀ fuel > file.length, ∃ r, Reader.readFile fuel file stale = .ok r ∧
        r.channels = channels ∧ r.sampleRate = sampleRate ∧ r.bitDepth = bitDepth ∧
        r.numberOfFrames = (calls.map Call.frames).sum ∧
        (∀ raw, ∃ r', r.readRaw raw r.numberOfFrames =
          .ok (calls.flatMap (Call.encoded quantise channels.toNat bitDepth.toNat),r')) ∧
        r.axmlText = text ∧ r.audioIds = label.getD [] := by
  have hinfo : FormatInfo.make channels sampleRate bitDepth =
      .ok ⟨channels,sampleRate,bitDepth,hchannels,hrate,hbits⟩ :=
    formatInfo_make ⟨channels,sampleRate,bitDepth,hchannels,hrate,hbits⟩
  generalize hi : (⟨channels,sampleRate,bitDepth,hchannels,hrate,hbits⟩ : FormatInfo) = info
    at hinfo
  have hc : info.channelCount = channels := by rw [← hi]
  have hr : info.sampleRate = sampleRate := by rw [← hi]
  have hd : info.bitsPerSample = bitDepth := by rw [← hi]
  have hfile := (session_file quantise hinfo (writeFile_lays hlabel hfew rfl htext hshort hblock)).1
  have hnarrow := make_narrow hinfo hblock
  have hlen := content_length quantise (writeFile channels sampleRate bitDepth chna axml calls)
    hnarrow
  have hencoded : (writeFile channels sampleRate bitDepth chna axml calls).content quantise info =
      calls.flatMap (Call.encoded quantise channels.toNat bitDepth.toNat) := by
    have h := content_encoded quantise (writeFile channels sampleRate bitDepth chna axml calls) info
    rw [hc,hd] at h
    exact h
  have hpos : 0 < info.blockAlignment := by
    have hone : 1 ≤ channels.toNat := UInt16.le_iff_toNat_le.mp hchannels
    have hsixteen : 16 ≤ bitDepth.toNat := by
      rcases hbits with h | h | h <;> rw [h] <;> decide
    have hmul := Nat.mul_le_mul hone hsixteen
    rw [FormatInfo.blockAlignment,hc,hd]
    omega
  refine ⟨_,hfile,fun stale fuel hfuel => ?_⟩
  obtain ⟨r,cs,start,hread,hloaded,hat,hrec⟩ := writeFile_reopens hlabel hfew rfl
    htext hshort hblock quantise hinfo hfile (hsmall _ hfile) stale hfuel
  obtain ⟨lead,hchunks,hlead⟩ := hloaded.chunks
  have hchunk : ∀ id, id ≠ junkId ∧ id ≠ ds64Id → r.chunk id = cs.find? fun c => c.id = id := by
    intro id hid
    rw [Reader.chunk,hchunks,lead_find hlead hid]
  have hsize : r.dataChunkSize =
      ((writeFile channels sampleRate bitDepth chna axml calls).content quantise info).length := by
    rw [Reader.dataChunkSize,hchunk dataId (by decide),hrec.data]
    rfl
  have hinside := at_length hat
  have hlong := hsmall _ hfile
  have hall := readRaw_all hloaded hsize hat hnarrow hpos hlen (by omega)
  have hframes := (hall []).1
  refine ⟨r,hread,?_,?_,?_,hframes,fun raw => ?_,?_,?_⟩
  · rw [Reader.channels,hloaded.info,hc]
  · rw [Reader.sampleRate,hloaded.info,hr]
  · rw [Reader.bitDepth,hloaded.info,hd]
  · rw [hframes,← hencoded]
    exact (hall raw).2
  · rw [Reader.axmlText,hchunk axmlId (by decide),hrec.axml]
    cases text with
    | none | some text => rfl
  · rw [Reader.audioIds,hchunk chnaId (by decide),hrec.chna]

end

def firstTrack : AudioId :=
  ⟨1,replicate 12 97,replicate 14 98,replicate 11 99,rfl,rfl,rfl⟩

def described : List (Call Int) :=
  [.write (fun i => i) 2,.setAxmlChunk (.axml [60,47,62]),.write (fun _ => -1) 3]

theorem described_length : ∀ file, (writeFile 1 48000 24 (some [firstTrack]) none described).file pcm =
    .ok file → file.length < 2 ^ 63 := by
  intro file hfile
  have hbound : ((writeFile 1 48000 24 (some [firstTrack]) none described).file pcm).toOption.all
      (fun file => file.length < 2 ^ 63) = true := by decide +kernel
  rw [hfile] at hbound
  simpa [Except.toOption] using hbound

theorem described_readFile :
    ∃ file, (writeFile 1 48000 24 (some [firstTrack]) none described).file pcm = .ok file ∧
      ∀ stale, ∀ fuel > file.length, ∃ r, Reader.readFile fuel file stale = .ok r ∧
        r.channels = 1 ∧ r.sampleRate = 48000 ∧ r.bitDepth = 24 ∧ r.numberOfFrames = 5 ∧
        (∀ raw, ∃ r', r.readRaw raw r.numberOfFrames =
          .ok ([0,0,0,1,0,0,255,255,255,255,255,255,255,255,255],r')) ∧
        r.axmlText = some [60,47,62] ∧ r.audioIds = [firstTrack] :=
  writeFile_readFile pcm 1 48000 24 (some [firstTrack]) none described (some [firstTrack])
    (some [60,47,62]) (by decide) (by decide) (by decide) (by decide) rfl (by simp) rfl
    (by decide) described_length

end FuzzingTargets.Bw64
