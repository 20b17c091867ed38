import FuzzingTargets.Connman.Gweb.Session

namespace FuzzingTargets.Connman.Gweb

open Checked Bytes Streams List

def crlf : Text := [cr,lf]

structure SizeLine where
  digits : Text
  extension : Text
  digits_ne : digits ≠ []
  digits_hex : ∀ b ∈ digits, isDigit 16 b = true
  extension_start : ∀ b ∈ extension.head?, b = semicolon ∨ isBlank b = true
  extension_line : lf ∉ extension

def SizeLine.text (line : SizeLine) : Text := line.digits ++ line.extension

def SizeLine.value (line : SizeLine) : Nat := digitsValue 16 line.digits

structure Chunk where
  line : SizeLine
  data : Text
  data_ne : data ≠ []
  size_eq : line.value = data.length
  size_lt : data.length < ulongMax

def Chunk.encode (c : Chunk) : Text := c.line.text ++ crlf ++ (c.data ++ crlf)

inductive Body where
  | plain (bytes : Text)
  | chunked (chunks : List Chunk) (last : SizeLine) (zero : last.value = 0) (trailer : Text)

def Body.encode : Body → Text
  | .plain bytes => bytes
  | .chunked chunks last _ trailer => chunks.flatMap Chunk.encode ++ (last.text ++ crlf ++ trailer)

def Body.content : Body → Text
  | .plain bytes => bytes
  | .chunked chunks _ _ _ => chunks.flatMap Chunk.data

def Body.isChunked : Body → Bool
  | .plain _ => false
  | .chunked _ _ _ _ => true

structure HeaderLine (line : Text) : Prop where
  line_ne : line ≠ []
  no_nul : 0 ∉ line
  no_lf : lf ∉ line

def stream (lines : List Text) (body : Body) : Text :=
  lines.flatMap (· ++ crlf) ++ (crlf ++ body.encode)

def anchored : Bool → List Text → Bool
  | _, [] => true
  | known, line :: rest =>
    if continues line then known && anchored known rest
    else anchored (known || line.contains colon) rest

def announcesChunks (lines : List Text) : Bool :=
  match feed Parser.handleLine Parser.init lines with
  | .error _ => false
  | .ok p => p.finishHeader.useChunk

section

variable {b : UInt8} {digits stop : Text}

theorem isDigit_ge (h : isDigit 16 b = true) : 48 ≤ b.toNat := by
  by_contra hlt
  have hlow : ∀ {c : UInt8}, 48 ≤ c.toNat → ¬c ≤ b :=
    fun hc hle => hlt (Nat.le_trans hc (UInt8.le_iff_toNat_le.mp hle))
  simp only [isDigit,digit] at h
  rw [if_neg (fun hr => hlow (by decide) hr.1),if_neg (fun hr => hlow (by decide) hr.1),
    if_neg (fun hr => hlow (by decide) hr.1)] at h
  cases h

theorem isSpace_le (h : isSpace b = true) : b.toNat ≤ 32 := by
  simp only [isSpace,UInt8.le_iff_toNat_le,decide_eq_true_eq] at h
  rcases h with rfl | ⟨_,hle⟩
  · decide
  · exact Nat.le_trans hle (by decide)

theorem isSpace_of_isDigit (h : isDigit 16 b = true) : isSpace b = false := by
  cases hspace : isSpace b with
  | false => rfl
  | true =>
    have := isDigit_ge h
    have := isSpace_le hspace
    omega

theorem splitSign_unsigned {str : Text} (hminus : str.head? ≠ some 45) (hplus : str.head? ≠ some 43) :
    splitSign str = (false,str) := by
  unfold splitSign
  split
  · exact absurd rfl hminus
  · exact absurd rfl hplus
  · rfl

theorem skipHexMark_plain {str : Text} (hlower : str.head? ≠ some 120)
    (hupper : str.head? ≠ some 88) : skipHexMark (b :: str) = b :: str := by
  unfold skipHexMark
  split
  · rename_i heq
    cases heq
    exact absurd rfl hlower
  · rename_i heq
    cases heq
    exact absurd rfl hupper
  · rfl

theorem takeWhile_digits (hdigits : ∀ b ∈ digits, isDigit 16 b = true)
    (hstop : ∀ b ∈ stop.head?, isDigit 16 b = false) :
    (digits ++ stop).takeWhile (isDigit 16) = digits := by
  rw [takeWhile_append_of_pos hdigits]
  cases stop with
  | nil => exact append_nil digits
  | cons b rest =>
    have hb : isDigit 16 b = false := hstop b rfl
    rw [takeWhile_cons_of_neg (by rw [hb]; exact Bool.false_ne_true),append_nil]

theorem head_digits (hdigits : ∀ c ∈ digits, isDigit 16 c = true) (hb : isDigit 16 b = false)
    (hstop : stop.head? ≠ some b) : (digits ++ stop).head? ≠ some b := by
  cases digits with
  | nil => exact hstop
  | cons c rest =>
    intro h
    cases h
    exact absurd ((hdigits b mem_cons_self).symm.trans hb) Bool.false_ne_true.symm

theorem strtoulHex_digits (hne : digits ≠ []) (hdigits : ∀ b ∈ digits, isDigit 16 b = true)
    (hstop : ∀ b ∈ stop.head?, isDigit 16 b = false) (hlower : stop.head? ≠ some 120)
    (hupper : stop.head? ≠ some 88) (hbound : digitsValue 16 digits ≤ ulongMax) :
    strtoulHex (digits ++ stop) = digitsValue 16 digits := by
  cases digits with
  | nil => exact absurd rfl hne
  | cons b rest =>
    have hb := hdigits b mem_cons_self
    have hrest : ∀ c ∈ rest, isDigit 16 c = true := fun c hc => hdigits c (mem_cons_of_mem b hc)
    have hdrop : (b :: rest ++ stop).dropWhile isSpace = b :: rest ++ stop :=
      dropWhile_cons_of_neg (by rw [isSpace_of_isDigit hb]; exact Bool.false_ne_true)
    have hsign : splitSign (b :: rest ++ stop) = (false,b :: rest ++ stop) := by
      apply splitSign_unsigned
      · intro h
        cases h
        exact absurd hb (by decide)
      · intro h
        cases h
        exact absurd hb (by decide)
    have hmark : skipHexMark (b :: rest ++ stop) = b :: rest ++ stop :=
      skipHexMark_plain (head_digits hrest (by decide) hlower)
        (head_digits hrest (by decide) hupper)
    rw [strtoulHex,hdrop,hsign,hmark,takeWhile_digits hdigits hstop,toUlong,
      if_neg (Nat.not_lt.mpr hbound)]
    rfl

theorem SizeLine.stop_head (line : SizeLine) (h : b ∈ (line.extension ++ [cr]).head?) :
    b = semicolon ∨ b = space ∨ b = tab ∨ b = cr := by
  have hstart := line.extension_start
  cases hext : line.extension with
  | nil =>
    rw [hext] at h
    cases h
    exact .inr (.inr (.inr rfl))
  | cons c rest =>
    rw [hext] at h hstart
    cases h
    rcases hstart b rfl with rfl | hblank
    · exact .inl rfl
    · rcases of_decide_eq_true hblank with rfl | rfl
      · exact .inr (.inl rfl)
      · exact .inr (.inr (.inl rfl))

theorem readSize_sizeLine (line : SizeLine) (hbound : line.value < ulongMax) :
    readSize false (line.text ++ [cr]) = some line.value := by
  have hvalue : strtoulHex (line.text ++ [cr]) = line.value := by
    rw [SizeLine.text,append_assoc]
    apply strtoulHex_digits line.digits_ne line.digits_hex
    · intro b hb
      rcases line.stop_head hb with rfl | rfl | rfl | rfl <;> decide
    · intro h
      exact absurd (line.stop_head h) (by decide)
    · intro h
      exact absurd (line.stop_head h) (by decide)
    · exact hbound.le
  rw [readSize,hvalue,if_neg]
  rintro (⟨_,h⟩ | h)
  · cases h
  · exact absurd h (Nat.ne_of_lt hbound)

end

section

variable {d : Decoder} {p : Parser} {line : Text}

theorem stripCr_cr (line : Text) : stripCr (line ++ [cr]) = line := by
  rw [stripCr_append line (cons_ne_nil cr [])]
  exact append_nil line

section

variable (hdone : d.headerDone = false)
include hdone

theorem feed_until_cr (hnul : 0 ∉ line) (hlf : lf ∉ line) (rest : Text) :
    feed Decoder.step d (line ++ crlf ++ rest) =
      feed Decoder.step (d.extend (line ++ [cr])) (lf :: rest) := by
  have hnul' : (0 : UInt8) ∉ line ++ [cr] := by
    simp only [mem_append,mem_singleton,not_or]
    exact ⟨hnul,by decide⟩
  have hlf' : lf ∉ line ++ [cr] := by
    simp only [mem_append,mem_singleton,not_or]
    exact ⟨hlf,by decide⟩
  have htext := feed_line_text hdone hlf'
  rw [if_neg hnul'] at htext
  rw [← feed_append_ok htext (lf :: rest)]
  simp [crlf]

theorem feed_header_line (hempty : d.currentHeader = []) (hline : HeaderLine line)
    (hp : d.handleLine line = .ok p) (rest : Text) : feed Decoder.step d (line ++ crlf ++ rest) =
      feed Decoder.step { d with toParser := p } rest := by
  have hstrip : stripCr (d.extend (line ++ [cr])).currentHeader = line := by
    rw [Decoder.extend,hempty]
    exact stripCr_cr line
  rw [feed_until_cr hdone hline.no_nul hline.no_lf]
  apply feed_cons
  rw [step_line (d := d.extend (line ++ [cr])) hdone,Decoder.lineStep,if_neg (by decide),
    if_pos rfl,hstrip,if_neg hline.line_ne]
  have hp' : (d.extend (line ++ [cr])).handleLine line = .ok p := hp
  rw [hp']
  rfl

theorem feed_header_lines {lines : List Text} (hempty : d.currentHeader = [])
    (hlines : ∀ line ∈ lines, HeaderLine line)
    (hp : feed Parser.handleLine d.toParser lines = .ok p) (rest : Text) :
    feed Decoder.step d (lines.flatMap (· ++ crlf) ++ rest) =
      feed Decoder.step { d with toParser := p } rest := by
  induction lines generalizing d with
  | nil =>
    cases hp
    rfl
  | cons line lines ih =>
    obtain ⟨q,hq,hrest⟩ := bind_eq_ok hp
    obtain ⟨hmode,hheader⟩ := handleLine_mode hq
    rw [flatMap_cons,append_assoc,feed_header_line hdone hempty (hlines line mem_cons_self) hq]
    exact ih (d := { d with toParser := q }) (hmode.done.trans hdone) hheader
      (fun line' hmem => hlines line' (mem_cons_of_mem line hmem)) hrest

theorem feed_header_end (hempty : d.currentHeader = []) (rest : Text) :
    feed Decoder.step d (crlf ++ rest) =
      feed Decoder.step { d with toParser := d.finishHeader } rest := by
  have hparser : ({ d.toParser with currentHeader := [] } : Parser) = d.toParser := by
    rw [← hempty]
  have hstrip : stripCr (d.extend [cr]).currentHeader = [] := by
    rw [Decoder.extend,hempty]
    exact stripCr_cr []
  have hfinish : (d.extend [cr]).finish = { d with toParser := d.finishHeader } := by
    show ({ d with
      toParser := ({ d.toParser with currentHeader := [] } : Parser).finishHeader } : Decoder) = _
    rw [hparser]
  have hnil : (0 : UInt8) ∉ ([] : Text) := not_mem_nil
  have hcr := feed_until_cr hdone hnil not_mem_nil rest
  rw [nil_append,nil_append] at hcr
  rw [hcr,← hfinish]
  apply feed_cons
  rw [step_line (d := d.extend [cr]) hdone,Decoder.lineStep,if_neg (by decide),if_pos rfl,
    if_pos hstrip]

end

theorem addHeaderField_lastKey (p : Parser) :
    (p.lastKey.isSome || p.currentHeader.contains colon) = true →
      p.addHeaderField.lastKey.isSome = true := by
  intro h
  unfold Parser.addHeaderField
  split
  · rename_i hcut
    have hnot : p.currentHeader.contains colon = false := by
      simpa using cut_none hcut
    rwa [hnot,Bool.or_false] at h
  · rfl

theorem scanLine_fields (p : Parser) :
    p.scanLine.lastKey = p.lastKey ∧ p.scanLine.currentHeader = p.currentHeader := by
  unfold Parser.scanLine
  split
  · split <;> exact ⟨rfl,rfl⟩
  · exact ⟨rfl,rfl⟩

theorem handleMultiLine_known (h : p.lastKey.isSome = true) :
    ∃ q, p.handleMultiLine = .ok q ∧ q.lastKey.isSome = true := by
  obtain ⟨key,hkey⟩ := Option.isSome_iff_exists.mp h
  simp only [Parser.handleMultiLine,hkey]
  split <;> exact ⟨_,rfl,rfl⟩

theorem handleLine_continued (hcont : continues line = true) (hkey : p.lastKey.isSome = true) :
    ∃ q, p.handleLine line = .ok q ∧ q.lastKey.isSome = true := by
  obtain ⟨hlast,hcurrent⟩ := scanLine_fields ({ p with currentHeader := line } : Parser)
  obtain ⟨q,hq,hkey'⟩ := handleMultiLine_known (hlast ▸ hkey)
  refine ⟨{ q with currentHeader := [] },?_,hkey'⟩
  rw [Parser.handleLine,Parser.storeLine,hcurrent,if_pos hcont,hq]
  rfl

theorem handleLine_field (hcont : continues line = false) : ∃ q, p.handleLine line = .ok q ∧
      ((p.lastKey.isSome || line.contains colon) = true → q.lastKey.isSome = true) := by
  obtain ⟨hlast,hcurrent⟩ := scanLine_fields ({ p with currentHeader := line } : Parser)
  have hfield := addHeaderField_lastKey ({ p with currentHeader := line } : Parser).scanLine
  rw [hlast,hcurrent] at hfield
  refine ⟨{ ({ p with currentHeader := line } : Parser).scanLine.addHeaderField with
    currentHeader := [] },?_,hfield⟩
  rw [Parser.handleLine,Parser.storeLine,hcurrent,if_neg (by rw [hcont]; exact Bool.false_ne_true)]
  rfl

theorem handleLines_anchored {known : Bool} {lines : List Text}
    (hknown : known = true → p.lastKey.isSome = true) (h : anchored known lines = true) :
    ∃ q, feed Parser.handleLine p lines = .ok q := by
  induction lines generalizing known p with
  | nil => exact ⟨p,rfl⟩
  | cons line rest ih =>
    cases hcont : continues line with
    | true =>
      rw [anchored,if_pos hcont,Bool.and_eq_true] at h
      obtain ⟨q,hq,hkey⟩ := handleLine_continued hcont (hknown h.1)
      rw [feed_cons hq]
      exact ih (fun _ => hkey) h.2
    | false =>
      rw [anchored,if_neg (by rw [hcont]; exact Bool.false_ne_true)] at h
      obtain ⟨q,hq,hkey⟩ := handleLine_field (p := p) hcont
      rw [feed_cons hq]
      refine ih (fun hor => hkey ?_) h
      cases known with
      | true => rw [hknown rfl,Bool.true_or]
      | false => rw [Bool.false_or] at hor; rw [hor,Bool.or_true]

end

section

variable {d : Decoder}

structure Decoder.AtSize (d : Decoder) : Prop where
  done : d.headerDone = true
  chunk : d.useChunk = true
  state : d.chunkState = .size
  empty : d.currentHeader = []

structure Decoder.Adds (d d' : Decoder) (content : Text) : Prop where
  headers : d'.headers = d.headers
  status : d'.status = d.status
  body : d'.body = d.body ++ content

def Decoder.announced (d : Decoder) (line : SizeLine) : Decoder :=
  { d.extend (line.text ++ [cr]) with
    chunkSize := line.value, chunkLeft := line.value, chunkState := .data }

theorem SizeLine.no_lf (line : SizeLine) : lf ∉ line.text ++ [cr] := by
  intro h
  rcases mem_append.mp h with htext | hcr
  · rcases mem_append.mp htext with hdigit | hext
    · exact absurd (line.digits_hex lf hdigit) (by decide)
    · exact line.extension_line hext
  · exact absurd (mem_singleton.mp hcr) (by decide)

theorem feed_size_line (hd : d.AtSize) (line : SizeLine) (hbound : line.value < ulongMax)
    (rest : Text) :
    feed Decoder.step d (line.text ++ crlf ++ rest) = feed Decoder.step (d.announced line) rest := by
  have htext := feed_size_text hd.done hd.chunk hd.state line.no_lf
  have hlines : line.text ++ crlf ++ rest = line.text ++ [cr] ++ lf :: rest := by simp [crlf]
  rw [hlines,feed_append_ok htext]
  apply feed_cons
  have hend : endsInCr (d.extend (line.text ++ [cr])).currentHeader = true := by
    rw [Decoder.extend,hd.empty]
    exact endsInCr_append line.text (cons_ne_nil cr [])
  have hsize : readSize false (d.extend (line.text ++ [cr])).currentHeader = some line.value := by
    rw [Decoder.extend,hd.empty]
    exact readSize_sizeLine line hbound
  rw [step_chunk (d := d.extend (line.text ++ [cr])) hd.done hd.chunk,
    chunkStep_size (d := d.extend (line.text ++ [cr])) hd.state,Decoder.sizeStep,if_pos rfl,
    if_pos hend,hsize]
  rfl

theorem feed_chunk_end (hdone : d.headerDone = true) (hchunk : d.useChunk = true)
    (hstate : d.chunkState = .rBody) (rest : Text) :
    feed Decoder.step d (crlf ++ rest) = feed Decoder.step { d with chunkState := .size } rest := by
  have hcr : d.step cr = .ok { d with chunkState := .nBody } := by
    rw [step_chunk hdone hchunk,Decoder.chunkStep,hstate]
    exact if_pos rfl
  have hlf : ({ d with chunkState := .nBody } : Decoder).step lf =
      .ok { d with chunkState := .size } := by
    rw [step_chunk (d := { d with chunkState := .nBody }) hdone hchunk,Decoder.chunkStep]
    exact if_pos rfl
  exact (feed_cons hcr (lf :: rest)).trans (feed_cons hlf rest)

theorem feed_chunk (hd : d.AtSize) (c : Chunk) (rest : Text) :
    ∃ d', feed Decoder.step d (c.encode ++ rest) = feed Decoder.step d' rest ∧ d'.AtSize ∧
      d.Adds d' c.data := by
  have hvalue : c.line.value < ulongMax := c.size_eq ▸ c.size_lt
  have hsize : (d.announced c.line).chunkSize ≠ 0 := by
    show c.line.value ≠ 0
    rw [c.size_eq]
    exact Nat.ne_of_gt (length_pos_of_ne_nil c.data_ne)
  have hdata := feed_data_whole (d := d.announced c.line) hd.done hd.chunk rfl hsize c.data_ne
    c.size_eq.symm
  refine ⟨{ ((d.announced c.line).emit c.data).closeChunk with chunkState := .size },?_,
    ⟨hd.done,hd.chunk,rfl,rfl⟩,⟨rfl,rfl,rfl⟩⟩
  rw [Chunk.encode,append_assoc (c.line.text ++ crlf),append_assoc c.data,
    feed_size_line hd c.line hvalue,feed_append_ok hdata]
  exact feed_chunk_end (d := ((d.announced c.line).emit c.data).closeChunk) hd.done hd.chunk rfl rest

theorem feed_chunks (hd : d.AtSize) (chunks : List Chunk) (rest : Text) :
    ∃ d', feed Decoder.step d (chunks.flatMap Chunk.encode ++ rest) = feed Decoder.step d' rest ∧
      d'.AtSize ∧ d.Adds d' (chunks.flatMap Chunk.data) := by
  induction chunks generalizing d with
  | nil => exact ⟨d,rfl,hd,⟨rfl,rfl,(append_nil d.body).symm⟩⟩
  | cons c chunks ih =>
    obtain ⟨d1,hfeed1,hd1,hadds1⟩ := feed_chunk hd c (chunks.flatMap Chunk.encode ++ rest)
    obtain ⟨d2,hfeed2,hd2,hadds2⟩ := ih hd1
    refine ⟨d2,?_,hd2,⟨hadds2.headers.trans hadds1.headers,
      hadds2.status.trans hadds1.status,?_⟩⟩
    · rw [flatMap_cons,append_assoc,hfeed1,hfeed2]
    · rw [flatMap_cons,hadds2.body,hadds1.body,append_assoc]

theorem feed_last (hd : d.AtSize) (last : SizeLine) (hzero : last.value = 0) (trailer : Text) :
    ∃ d', feed Decoder.step d (last.text ++ crlf ++ trailer) = .ok d' ∧ d.Adds d' [] := by
  have hbound : last.value < ulongMax := by
    rw [hzero]
    decide
  rw [feed_size_line hd last hbound]
  cases trailer with
  | nil => exact ⟨_,rfl,⟨rfl,rfl,(append_nil d.body).symm⟩⟩
  | cons b rest =>
    exact ⟨_,feed_drained (d := d.announced last) hd.done hd.chunk rfl hzero b rest,
      ⟨rfl,rfl,(append_nil d.body).symm⟩⟩

theorem feed_body (hdone : d.headerDone = true) (hempty : d.currentHeader = [])
    (hstate : d.useChunk = true → d.chunkState = .size) (body : Body)
    (hframing : body.isChunked = d.useChunk) :
    ∃ d', feed Decoder.step d body.encode = .ok d' ∧ d.Adds d' body.content := by
  cases body with
  | plain bytes =>
    exact ⟨d.emit bytes,feed_plain hdone hframing.symm bytes,⟨rfl,rfl,rfl⟩⟩
  | chunked chunks last hzero trailer =>
    have hchunk : d.useChunk = true := hframing.symm
    obtain ⟨d1,hfeed1,hd1,hadds1⟩ := feed_chunks ⟨hdone,hchunk,hstate hchunk,hempty⟩ chunks
      (last.text ++ crlf ++ trailer)
    obtain ⟨d2,hfeed2,hadds2⟩ := feed_last hd1 last hzero trailer
    refine ⟨d2,hfeed1.trans hfeed2,⟨hadds2.headers.trans hadds1.headers,
      hadds2.status.trans hadds1.status,?_⟩⟩
    rw [hadds2.body,hadds1.body,append_nil]
    rfl

end

theorem handleLines_mode {p q : Parser} {lines : List Text} (hempty : p.currentHeader = [])
    (h : feed Parser.handleLine p lines = .ok q) : p.SameMode q ∧ q.currentHeader = [] := by
  induction lines generalizing p with
  | nil =>
    cases h
    exact ⟨⟨rfl,rfl,rfl,rfl,rfl,rfl⟩,hempty⟩
  | cons line rest ih =>
    obtain ⟨r,hr,hrest⟩ := bind_eq_ok h
    obtain ⟨hmode,hheader⟩ := handleLine_mode hr
    obtain ⟨hmode',hheader'⟩ := ih hheader hrest
    exact ⟨hmode.trans hmode',hheader'⟩

theorem finishHeader_size {p : Parser} (h : p.useChunk = false) :
    p.finishHeader.useChunk = true → p.finishHeader.chunkState = .size := by
  unfold Parser.finishHeader
  split
  · intro hchunk
    exact absurd (h.symm.trans hchunk) Bool.false_ne_true
  split
  · exact fun _ => rfl
  · intro hchunk
    exact absurd (h.symm.trans hchunk) Bool.false_ne_true

theorem receivedData_segments (lines : List Text) (body : Body) (segments : List Text)
    (hlines : ∀ line ∈ lines, HeaderLine line) (hanchored : anchored false lines = true)
    (hframing : body.isChunked = announcesChunks lines)
    (hstream : segments.flatten = stream lines body)
    (hwhole : Whole Unsplit Session.receive Session.init segments) :
    ∃ p s, feed Parser.handleLine Parser.init lines = .ok p ∧
      feed Session.receive Session.init segments = .ok s ∧ s.transportWatch = true ∧
      s.headers = p.headers ∧ s.status = p.status ∧
      s.delivered = body.content := by
  obtain ⟨p,hp⟩ := handleLines_anchored (p := Parser.init) (fun h => by cases h) hanchored
  obtain ⟨hmode,hheader⟩ := handleLines_mode rfl hp
  obtain ⟨hdone,hcurrent,htable,hstatus⟩ := finishHeader_done p
  have hframing' : body.isChunked = p.finishHeader.useChunk := by
    rw [hframing,announcesChunks,hp]
  obtain ⟨d,hbody,hadds⟩ := feed_body (d := { p.finishHeader with body := [] }) hdone
    (hcurrent.trans hheader) (finishHeader_size hmode.chunk) body hframing'
  have hfeed : feed Decoder.step Session.init.view segments.flatten = .ok d := by
    rw [hstream,stream,feed_header_lines (d := Session.init.view) rfl rfl hlines hp]
    exact (feed_header_end (d := { p with body := [] }) hmode.done hheader body.encode).trans hbody
  have hsound : Session.init.view.Sound :=
    ⟨rfl,fun h => (by cases h),nofun⟩
  obtain ⟨s,hs,hview⟩ := receive_segments hsound hwhole hfeed
  have hwatch := (feed_invariant (fun _ _ _ => step_sound) hsound hfeed).watched
  refine ⟨p,s,hp,hs,?_,?_,?_,?_⟩
  · exact (congrArg (fun d => d.transportWatch) hview).trans hwatch
  · exact (congrArg (fun d => d.headers) hview).trans (hadds.headers.trans htable)
  · exact (congrArg (fun d => d.status) hview).trans (hadds.status.trans hstatus)
  · exact (congrArg Decoder.body hview).trans hadds.body

def statusLine : Text := [72,84,84,80,47,49,46,49,32,50,48,48]

def chunkedField : Text := transferEncoding ++ [colon,space] ++ chunked

def oneDigit (b : UInt8) (hb : isDigit 16 b = true) : SizeLine where
  digits := [b]
  extension := []
  digits_ne := cons_ne_nil b []
  digits_hex := forall_mem_singleton.mpr hb
  extension_start := nofun
  extension_line := by decide

def twoDigit : SizeLine := oneDigit 50 (by decide)

def zeroDigit : SizeLine := oneDigit 48 (by decide)

def greeting : Chunk where
  line := twoDigit
  data := [104,105]
  data_ne := by decide
  size_eq := by decide
  size_lt := by decide

def greetingBody : Body := .chunked [greeting] zeroDigit (by decide) crlf

def greetingSegments : List Text :=
  [statusLine ++ crlf ++ [84],chunkedField.drop 1,crlf ++ crlf ++ [50],crlf ++ [104],[105,cr],
    [lf,48],crlf,crlf]

theorem greeting_segments :
    ∃ p s, feed Parser.handleLine Parser.init [statusLine,chunkedField] = .ok p ∧
      feed Session.receive Session.init greetingSegments = .ok s ∧ s.transportWatch = true ∧
      s.headers = p.headers ∧ s.status = p.status ∧ s.delivered = greetingBody.content :=
  receivedData_segments [statusLine,chunkedField] greetingBody greetingSegments
    (forall_mem_cons.mpr ⟨⟨by decide,by decide,by decide⟩,
      forall_mem_singleton.mpr ⟨by decide,by decide,by decide⟩⟩)
    (by decide) (by decide +kernel) (by decide +kernel) (by decide +kernel)

def delivers (segments : List Text) : Option (UInt16 × Text) :=
  match feed Session.receive Session.init segments with
  | .error _ => none
  | .ok s => some (s.status,s.delivered)

def splitBlankLine : List Text := [statusLine ++ crlf ++ [cr],[lf,104,105]]

def splitSizeLine : List Text :=
  [statusLine ++ crlf ++ chunkedField ++ crlf ++ crlf ++ [50,cr],
    [lf,104,105] ++ crlf ++ [48] ++ crlf ++ crlf]

theorem split_crlf_changes_body :
    (splitBlankLine.flatten = stream [statusLine] (.plain [104,105]) ∧
      delivers [splitBlankLine.flatten] = some (200,[104,105]) ∧
      delivers splitBlankLine = some (200,[])) ∧
    (splitSizeLine.flatten = stream [statusLine,chunkedField] greetingBody ∧
      delivers [splitSizeLine.flatten] = some (200,[104,105]) ∧
      delivers splitSizeLine = some (400,[])) := by
  decide +kernel

end FuzzingTargets.Connman.Gweb
