import FuzzingTargets.Foundation.Bytes
import FuzzingTargets.Foundation.Streams

namespace FuzzingTargets.Connman.Gweb

open Bytes Streams

abbrev Text := List UInt8

def cr : UInt8 := 13

def lf : UInt8 := 10

def tab : UInt8 := 9

def space : UInt8 := 32

def colon : UInt8 := 58

def semicolon : UInt8 := 59

def transferEncoding : Text :=
  [84,114,97,110,115,102,101,114,45,69,110,99,111,100,105,110,103]

def chunked : Text := [99,104,117,110,107,101,100]

def httpSlash : Text := [72,84,84,80,47]

inductive ChunkState where
  | size
  | rBody
  | nBody
  | data
  deriving DecidableEq

structure Parser where
  currentHeader : Text
  headers : List (Text × Text)
  lastKey : Option Text
  status : UInt16
  headerDone : Bool
  useChunk : Bool
  chunkState : ChunkState
  chunkSize : Nat
  chunkLeft : Nat
  transportWatch : Bool
  deriving DecidableEq

structure Result where
  buffer : Text
  status : UInt16
  deriving DecidableEq

structure Session extends Parser where
  results : List Result
  deriving DecidableEq

def Parser.init : Parser where
  currentHeader := []
  headers := []
  lastKey := none
  status := 0
  headerDone := false
  useChunk := false
  chunkState := .size
  chunkSize := 0
  chunkLeft := 0
  transportWatch := true

def Session.init : Session := { Parser.init with results := [] }

inductive Fault where
  | nullKey
  | nulInLine
  deriving DecidableEq

def ulongMax : Nat := 2 ^ 64 - 1

def isSpace (b : UInt8) : Bool := b = 32 ∨ 9 ≤ b ∧ b ≤ 13

def digit (base : Nat) (b : UInt8) : Option Nat :=
  let value :=
    if 48 ≤ b ∧ b ≤ 57 then some (b.toNat - 48)
    else if 97 ≤ b ∧ b ≤ 102 then some (b.toNat - 87)
    else if 65 ≤ b ∧ b ≤ 70 then some (b.toNat - 55)
    else none
  value.filter (· < base)

def isDigit (base : Nat) (b : UInt8) : Bool := (digit base b).isSome

def digitsValue (base : Nat) (digits : Text) : Nat :=
  digits.foldl (fun value b => value * base + (digit base b).getD 0) 0

def splitSign : Text → Bool × Text
  | 45 :: rest => (true,rest)
  | 43 :: rest => (false,rest)
  | str => (false,str)

def skipHexMark : Text → Text
  | 48 :: 120 :: rest => rest
  | 48 :: 88 :: rest => rest
  | str => str

def toUlong (negative : Bool) (value : Nat) : Nat :=
  if ulongMax < value then ulongMax
  else if negative then (2 ^ 64 - value) % 2 ^ 64
  else value

def strtoulHex (str : Text) : Nat :=
  let signed := splitSign (str.dropWhile isSpace)
  toUlong signed.1 (digitsValue 16 ((skipHexMark signed.2).takeWhile (isDigit 16)))

def scanUnsigned (str : Text) : Option Nat :=
  let signed := splitSign (str.dropWhile isSpace)
  let digits := signed.2.takeWhile (isDigit 10)
  if digits = [] then none else some (toUlong signed.1 (digitsValue 10 digits) % 2 ^ 32)

def scanStatus (str : Text) : Option Nat :=
  if httpSlash.isPrefixOf str then
    let version := (str.drop httpSlash.length).dropWhile isSpace
    if (version.takeWhile fun b => !isSpace b) = [] then none
    else scanUnsigned (version.dropWhile fun b => !isSpace b)
  else none

def lookup (table : List (Text × Text)) (key : Text) : Option Text :=
  (table.find? fun entry => entry.1 = key).map Prod.snd

def replace (table : List (Text × Text)) (key value : Text) : List (Text × Text) :=
  (key,value) :: table.filter fun entry => entry.1 ≠ key

def contains (needle str : Text) : Bool := str.tails.any needle.isPrefixOf

def isBlank (b : UInt8) : Bool := b = space ∨ b = tab

variable (p : Parser) (line : Text)

def continues : Bool := line.head?.any isBlank

def Parser.handleMultiLine : Except Fault Parser :=
  let folded := space :: p.currentHeader.dropWhile isBlank
  match p.lastKey with
  | none => .error .nullKey
  | some key =>
    match lookup p.headers key with
    | none => .ok { p with currentHeader := folded }
    | some value =>
      let joined := value ++ folded
      .ok { p with
        currentHeader := joined
        headers := replace p.headers key (cstring joined) }

def Parser.addHeaderField : Parser :=
  match cut colon p.currentHeader with
  | none => p
  | some (name,rest) =>
    let key := cstring name
    let value := rest.dropWhile (· = space)
    let joined :=
      match lookup p.headers key with
      | none => value
      | some old => old ++ semicolon :: space :: value
    { p with
      currentHeader := joined
      headers := replace p.headers key (cstring joined)
      lastKey := some key }

def Parser.scanLine : Parser :=
  if p.status = 0 then
    match scanStatus (cstring p.currentHeader) with
    | none => p
    | some code => { p with status := UInt16.ofNat code }
  else p

def Parser.storeLine : Except Fault Parser :=
  if continues p.currentHeader then p.handleMultiLine else .ok p.addHeaderField

def Parser.handleLine : Except Fault Parser := do
  let stored ← ({ p with currentHeader := line } : Parser).scanLine.storeLine
  return { stored with currentHeader := [] }

def Parser.finishHeader : Parser :=
  let done := { p with headerDone := true }
  match lookup p.headers transferEncoding with
  | none => done
  | some value =>
    if contains chunked value then
      { done with useChunk := true, chunkState := .size, chunkLeft := 0 }
    else done

variable (einval : Bool) (s : Session) (buf : Text)

def readSize (str : Text) : Option Nat :=
  let counter := strtoulHex str
  if (counter = 0 ∧ einval) ∨ counter = ulongMax then none else some counter

def Session.callResultFunc (buffer : Text) (status : UInt16) : Session :=
  let code := if status = 0 then s.status else status
  { s with status := code, results := s.results ++ [⟨buffer,code⟩] }

def endsInCr : Bool := line.getLast? = some cr

def Session.decodeChunked (einval : Bool) : Nat → Session → Text → Session × Bool
  | 0, s, _ => (s,true)
  | _ + 1, s, [] => (s,true)
  | fuel + 1, s, b :: rest =>
    match s.chunkState with
    | .size =>
      match cut lf (b :: rest) with
      | none => ({ s with currentHeader := s.currentHeader ++ b :: rest },true)
      | some (line,after) =>
        if endsInCr line then
          let s := { s with currentHeader := s.currentHeader ++ line }
          match readSize einval s.currentHeader with
          | none => (s,false)
          | some counter =>
            decodeChunked einval fuel
              { s with chunkSize := counter, chunkLeft := counter, chunkState := .data } after
        else (s,false)
    | .rBody =>
      if b = cr then decodeChunked einval fuel { s with chunkState := .nBody } rest
      else (s,false)
    | .nBody =>
      if b = lf then decodeChunked einval fuel { s with chunkState := .size } rest
      else (s,false)
    | .data =>
      if s.chunkSize = 0 then ({ s with currentHeader := [] },true)
      else if s.chunkLeft ≤ (b :: rest).length then
        decodeChunked einval fuel
          { s.callResultFunc ((b :: rest).take s.chunkLeft) 0 with
            chunkLeft := 0, currentHeader := [], chunkState := .rBody }
          ((b :: rest).drop s.chunkLeft)
      else
        ({ s.callResultFunc (b :: rest) 0 with
          chunkLeft := s.chunkLeft - (b :: rest).length },true)

def Session.handleBody : Session × Bool :=
  if s.useChunk then
    let decoded := s.decodeChunked einval (buf.length + 1) buf
    if decoded.2 then decoded else (decoded.1.callResultFunc [] 400,false)
  else if buf = [] then (s,true)
  else (s.callResultFunc buf 0,true)

def Session.receivedBody : Session :=
  let handled := s.handleBody einval buf
  if handled.2 then handled.1 else { handled.1 with transportWatch := false }

def stripCr : Text := if endsInCr line then line.dropLast else line

def Session.receivedLines (einval : Bool) : Nat → Session → Text → Except Fault Session
  | 0, s, _ => .ok s
  | _ + 1, s, [] => .ok s
  | fuel + 1, s, b :: rest =>
    match cut lf (b :: rest) with
    | none => .ok { s with currentHeader := s.currentHeader ++ b :: rest }
    | some (line,after) =>
      if 0 ∈ line then .error .nulInLine
      else
        let header := s.currentHeader ++ stripCr line
        if header = [] then
          .ok (({ s with toParser := s.finishHeader } : Session).receivedBody einval after)
        else do
          let p ← s.handleLine header
          receivedLines einval fuel { s with toParser := p } after

inductive Event where
  | broken
  | ended
  | read (einval : Bool) (bytes : Text)
  deriving DecidableEq

def Session.receivedData : Event → Except Fault Session
  | .broken => .ok { s.callResultFunc [] 400 with transportWatch := false }
  | .ended => .ok { s.callResultFunc [] 0 with transportWatch := false }
  | .read einval bytes =>
    if s.headerDone then .ok (s.receivedBody einval bytes)
    else s.receivedLines einval bytes.length bytes

def Session.dispatch (event : Event) : Except Fault Session :=
  if s.transportWatch then s.receivedData event else .ok s

open Checked Bytes Streams List

structure Decoder extends Parser where
  body : Text

inductive Refusal where
  | header
  | chunk

variable (d : Decoder)

def Decoder.extend (text : Text) : Decoder :=
  { d with currentHeader := d.currentHeader ++ text }

def Decoder.emit (text : Text) : Decoder := { d with body := d.body ++ text }

def Decoder.consume (text : Text) : Decoder :=
  { d.emit text with chunkLeft := d.chunkLeft - text.length }

def Decoder.closeChunk : Decoder :=
  { d with chunkLeft := 0, currentHeader := [], chunkState := .rBody }

def Decoder.truncate : Decoder := { d with currentHeader := [] }

def Decoder.finish : Decoder :=
  { d with toParser := ({ d.toParser with currentHeader := [] } : Parser).finishHeader }

def Decoder.lineStep (b : UInt8) : Except Refusal Decoder :=
  if b = 0 then .error .header
  else if b = lf then
    if stripCr d.currentHeader = [] then .ok d.finish
    else
      match d.handleLine (stripCr d.currentHeader) with
      | .error _ => .error .header
      | .ok p => .ok { d with toParser := p }
  else .ok (d.extend [b])

def Decoder.sizeStep (b : UInt8) : Except Refusal Decoder :=
  if b = lf then
    if endsInCr d.currentHeader then
      match readSize false d.currentHeader with
      | none => .error .chunk
      | some counter =>
        .ok { d with chunkSize := counter, chunkLeft := counter, chunkState := .data }
    else .error .chunk
  else .ok (d.extend [b])

def Decoder.dataStep (b : UInt8) : Decoder :=
  if d.chunkSize = 0 then d.truncate
  else if d.chunkLeft = 1 then (d.emit [b]).closeChunk
  else d.consume [b]

def Decoder.chunkStep (b : UInt8) : Except Refusal Decoder :=
  match d.chunkState with
  | .size => d.sizeStep b
  | .rBody => if b = cr then .ok { d with chunkState := .nBody } else .error .chunk
  | .nBody => if b = lf then .ok { d with chunkState := .size } else .error .chunk
  | .data => .ok (d.dataStep b)

def Decoder.step (b : UInt8) : Except Refusal Decoder :=
  if d.headerDone then
    if d.useChunk then d.chunkStep b else .ok (d.emit [b])
  else d.lineStep b

def Session.delivered (s : Session) : Text := (s.results.map Result.buffer).flatten

def Session.view (s : Session) : Decoder := { s.toParser with body := s.delivered }

structure Parser.Sound (p : Parser) : Prop where
  watched : p.transportWatch = true
  left : p.chunkState = .data → p.chunkSize ≠ 0 → 0 < p.chunkLeft
  between : p.headerDone = true → p.chunkState ≠ .size → p.chunkState ≠ .data →
    p.currentHeader = []

def Unsplit (s : Session) (bytes : Text) : Prop :=
  endsInCr s.currentHeader = true → bytes.head? = some lf →
    s.headerDone = true ∧ (s.useChunk = true → s.chunkState ≠ .size)

instance (s : Session) (bytes : Text) : Decidable (Unsplit s bytes) :=
  inferInstanceAs (Decidable (_ → _ → _))

def Session.receive (s : Session) (bytes : Text) : Except Fault Session :=
  s.dispatch (.read false bytes)

section

variable {line : Text}

theorem endsInCr_append (line : Text) {rest : Text} (h : rest ≠ []) :
    endsInCr (line ++ rest) = endsInCr rest := by
  unfold endsInCr
  rw [getLast?_append_of_ne_nil line h]

theorem stripCr_append (line : Text) {rest : Text} (h : rest ≠ []) :
    stripCr (line ++ rest) = line ++ stripCr rest := by
  unfold stripCr
  rw [endsInCr_append line h]
  split
  · rw [dropLast_append_of_ne_nil h]
  · rfl

theorem stripCr_resumed {current : Text} (h : endsInCr current = true → line ≠ []) :
    stripCr (current ++ line) = current ++ stripCr line := by
  by_cases hline : line = []
  · have hcurrent : endsInCr current = false := by
      cases hend : endsInCr current with
      | false => rfl
      | true => exact absurd hline (h hend)
    rw [hline,append_nil,stripCr,hcurrent]
    exact (append_nil current).symm
  · exact stripCr_append current hline

theorem endsInCr_resumed {current : Text} (h : endsInCr current = true → line ≠ [])
    (hend : endsInCr (current ++ line) = true) : endsInCr line = true := by
  by_cases hline : line = []
  · rw [hline,append_nil] at hend
    exact absurd hline (h hend)
  · rwa [endsInCr_append current hline] at hend

end

section

variable {p p' : Parser}

structure Parser.SameMode (p p' : Parser) : Prop where
  done : p'.headerDone = p.headerDone
  chunk : p'.useChunk = p.useChunk
  state : p'.chunkState = p.chunkState
  size : p'.chunkSize = p.chunkSize
  left : p'.chunkLeft = p.chunkLeft
  watch : p'.transportWatch = p.transportWatch

theorem Parser.SameMode.trans {p'' : Parser} (h : p.SameMode p') (h' : p'.SameMode p'') :
    p.SameMode p'' :=
  ⟨h'.done.trans h.done,h'.chunk.trans h.chunk,h'.state.trans h.state,h'.size.trans h.size,
    h'.left.trans h.left,h'.watch.trans h.watch⟩

theorem Parser.SameMode.sound (h : p.SameMode p') (hp : p.Sound) (hempty : p'.currentHeader = []) :
    p'.Sound where
  watched := h.watch.trans hp.watched
  left := by
    rw [h.state,h.size,h.left]
    exact hp.left
  between := fun _ _ _ => hempty

theorem scanLine_mode (p : Parser) : p.SameMode p.scanLine := by
  unfold Parser.scanLine
  split
  · split <;> exact ⟨rfl,rfl,rfl,rfl,rfl,rfl⟩
  · exact ⟨rfl,rfl,rfl,rfl,rfl,rfl⟩

theorem handleMultiLine_mode (h : p.handleMultiLine = .ok p') : p.SameMode p' := by
  unfold Parser.handleMultiLine at h
  split at h
  · cases h
  · split at h <;> cases h <;> exact ⟨rfl,rfl,rfl,rfl,rfl,rfl⟩

theorem storeLine_mode (h : p.storeLine = .ok p') : p.SameMode p' := by
  unfold Parser.storeLine at h
  split at h
  · exact handleMultiLine_mode h
  · cases h
    unfold Parser.addHeaderField
    split <;> exact ⟨rfl,rfl,rfl,rfl,rfl,rfl⟩

theorem handleLine_mode {line : Text} (h : p.handleLine line = .ok p') :
    p.SameMode p' ∧ p'.currentHeader = [] := by
  obtain ⟨stored,hstored,hp'⟩ := bind_eq_ok h
  cases hp'
  have hscan := scanLine_mode ({ p with currentHeader := line } : Parser)
  have hstore := hscan.trans (storeLine_mode hstored)
  exact ⟨⟨hstore.done,hstore.chunk,hstore.state,hstore.size,hstore.left,hstore.watch⟩,rfl⟩

theorem finishHeader_sound (hp : p.Sound) (hempty : p.currentHeader = []) :
    p.finishHeader.Sound := by
  unfold Parser.finishHeader
  split
  · exact ⟨hp.watched,hp.left,fun _ _ _ => hempty⟩
  · split
    · exact ⟨hp.watched,fun h => (by cases h),fun _ _ _ => hempty⟩
    · exact ⟨hp.watched,hp.left,fun _ _ _ => hempty⟩

theorem finishHeader_done (p : Parser) :
    p.finishHeader.headerDone = true ∧ p.finishHeader.currentHeader = p.currentHeader ∧
      p.finishHeader.headers = p.headers ∧ p.finishHeader.status = p.status := by
  unfold Parser.finishHeader
  split
  · exact ⟨rfl,rfl,rfl,rfl⟩
  · split <;> exact ⟨rfl,rfl,rfl,rfl⟩

end

section

variable {d d' : Decoder} {b : UInt8}

theorem lineStep_sound (hd : d.Sound) (hdone : d.headerDone = false)
    (h : d.lineStep b = .ok d') : d'.Sound := by
  unfold Decoder.lineStep at h
  split at h
  · cases h
  split at h
  · split at h
    · cases h
      exact finishHeader_sound ⟨hd.watched,hd.left,fun _ _ _ => rfl⟩ rfl
    split at h
    · cases h
    rename_i p hp
    cases h
    obtain ⟨hmode,hempty⟩ := handleLine_mode hp
    exact hmode.sound hd hempty
  · cases h
    refine ⟨hd.watched,hd.left,fun hdone' => ?_⟩
    exact absurd (hdone.symm.trans hdone') Bool.false_ne_true

theorem sizeStep_sound (hd : d.Sound) (hstate : d.chunkState = .size)
    (h : d.sizeStep b = .ok d') : d'.Sound := by
  unfold Decoder.sizeStep at h
  split at h
  · split at h
    · split at h
      · cases h
      · cases h
        exact ⟨hd.watched,fun _ hne => Nat.pos_of_ne_zero hne,fun _ _ hne => absurd rfl hne⟩
    · cases h
  · cases h
    exact ⟨hd.watched,hd.left,fun _ hne => absurd hstate hne⟩

theorem dataStep_sound (hd : d.Sound) (hstate : d.chunkState = .data) : (d.dataStep b).Sound := by
  unfold Decoder.dataStep
  split
  · exact ⟨hd.watched,hd.left,fun _ _ _ => rfl⟩
  split
  · exact ⟨hd.watched,fun h => (by cases h),fun _ _ _ => rfl⟩
  rename_i hsize hleft
  refine ⟨hd.watched,fun _ _ => ?_,hd.between⟩
  have := hd.left hstate hsize
  show 0 < d.chunkLeft - 1
  omega

theorem chunkStep_size (hstate : d.chunkState = .size) : d.chunkStep b = d.sizeStep b := by
  rw [Decoder.chunkStep,hstate]

theorem chunkStep_sound (hd : d.Sound) (h : d.chunkStep b = .ok d') : d'.Sound := by
  cases hstate : d.chunkState with
  | size =>
    rw [chunkStep_size hstate] at h
    exact sizeStep_sound hd hstate h
  | rBody =>
    rw [Decoder.chunkStep,hstate] at h
    dsimp only at h
    split at h
    · cases h
      refine ⟨hd.watched,fun hdata => (by cases hdata),fun hdone _ _ => ?_⟩
      exact hd.between hdone (by rw [hstate]; decide) (by rw [hstate]; decide)
    · cases h
  | nBody =>
    rw [Decoder.chunkStep,hstate] at h
    dsimp only at h
    split at h
    · cases h
      exact ⟨hd.watched,fun hdata => (by cases hdata),fun _ hne => absurd rfl hne⟩
    · cases h
  | data =>
    rw [Decoder.chunkStep,hstate] at h
    cases h
    exact dataStep_sound hd hstate

theorem step_sound (hd : d.Sound) (h : d.step b = .ok d') : d'.Sound := by
  unfold Decoder.step at h
  split at h
  · split at h
    · exact chunkStep_sound hd h
    · cases h
      exact ⟨hd.watched,hd.left,hd.between⟩
  · rename_i hdone
    exact lineStep_sound hd (Bool.eq_false_iff.mpr hdone) h

end

section

variable {d : Decoder} {bytes : Text}

theorem extend_nil (d : Decoder) : d.extend [] = d := by
  rw [Decoder.extend,append_nil]

theorem extend_extend (d : Decoder) (xs ys : Text) :
    (d.extend xs).extend ys = d.extend (xs ++ ys) := by
  simp [Decoder.extend]

theorem emit_nil (d : Decoder) : d.emit [] = d := by
  rw [Decoder.emit,append_nil]

theorem emit_emit (d : Decoder) (xs ys : Text) : (d.emit xs).emit ys = d.emit (xs ++ ys) := by
  simp [Decoder.emit]

theorem feed_line_text (hdone : d.headerDone = false) (hlf : lf ∉ bytes) :
    feed Decoder.step d bytes = if 0 ∈ bytes then .error .header else .ok (d.extend bytes) := by
  induction bytes generalizing d with
  | nil =>
    rw [extend_nil]
    rfl
  | cons b rest ih =>
    have hb : b ≠ lf := fun h => hlf (h ▸ mem_cons_self)
    have hrest : lf ∉ rest := fun h => hlf (mem_cons_of_mem b h)
    by_cases hzero : b = 0
    · have hstep : d.step b = .error .header := by
        simp [Decoder.step,Decoder.lineStep,hdone,hzero]
      rw [feed,hstep,bind_error,if_pos (by rw [hzero]; exact mem_cons_self)]
    have hstep : d.step b = .ok (d.extend [b]) := by
      simp [Decoder.step,Decoder.lineStep,hdone,hzero,hb]
    rw [feed_cons hstep,ih (d := d.extend [b]) hdone hrest,extend_extend]
    simp [mem_cons,Ne.symm hzero]

theorem step_line (hdone : d.headerDone = false) (b : UInt8) : d.step b = d.lineStep b := by
  rw [Decoder.step,if_neg (by rw [hdone]; exact Bool.false_ne_true)]

theorem consume_consume (d : Decoder) (xs ys : Text) :
    (d.consume xs).consume ys = d.consume (xs ++ ys) := by
  simp [Decoder.consume,Decoder.emit,Nat.sub_sub]

variable (hdone : d.headerDone = true)
include hdone

theorem feed_size_text (hchunk : d.useChunk = true) (hstate : d.chunkState = .size)
    (hlf : lf ∉ bytes) : feed Decoder.step d bytes = .ok (d.extend bytes) := by
  induction bytes generalizing d with
  | nil =>
    rw [extend_nil]
    rfl
  | cons b rest ih =>
    have hb : b ≠ lf := fun h => hlf (h ▸ mem_cons_self)
    have hrest : lf ∉ rest := fun h => hlf (mem_cons_of_mem b h)
    have hstep : d.step b = .ok (d.extend [b]) := by
      simp [Decoder.step,Decoder.chunkStep,Decoder.sizeStep,hdone,hchunk,hstate,hb]
    rw [feed_cons hstep,ih (d := d.extend [b]) hdone hchunk hstate hrest,extend_extend]
    rfl

theorem feed_plain (hchunk : d.useChunk = false) (bytes : Text) :
    feed Decoder.step d bytes = .ok (d.emit bytes) := by
  induction bytes generalizing d with
  | nil =>
    rw [emit_nil]
    rfl
  | cons b rest ih =>
    have hstep : d.step b = .ok (d.emit [b]) := by
      simp [Decoder.step,hdone,hchunk]
    rw [feed_cons hstep,ih (d := d.emit [b]) hdone hchunk,emit_emit]
    rfl

theorem step_chunk (hchunk : d.useChunk = true) (b : UInt8) : d.step b = d.chunkStep b := by
  rw [Decoder.step,if_pos hdone,if_pos hchunk]

variable (hchunk : d.useChunk = true) (hstate : d.chunkState = .data)
include hchunk hstate

theorem step_data (b : UInt8) : d.step b = .ok (d.dataStep b) := by
  rw [step_chunk hdone hchunk,Decoder.chunkStep,hstate]

theorem feed_drained (hsize : d.chunkSize = 0) (b : UInt8) (rest : Text) :
    feed Decoder.step d (b :: rest) = .ok d.truncate := by
  have hstep : d.dataStep b = d.truncate := if_pos hsize
  induction rest generalizing d b with
  | nil =>
    rw [feed_cons (step_data hdone hchunk hstate b),hstep]
    rfl
  | cons c rest ih =>
    rw [feed_cons (step_data hdone hchunk hstate b),hstep]
    exact ih (d := d.truncate) hdone hchunk hstate hsize c (if_pos hsize)

theorem feed_data_part (hsize : d.chunkSize ≠ 0) (hlen : bytes.length < d.chunkLeft) :
    feed Decoder.step d bytes = .ok (d.consume bytes) := by
  induction bytes generalizing d with
  | nil =>
    rw [Decoder.consume,emit_nil]
    rfl
  | cons b rest ih =>
    rw [length_cons] at hlen
    have hleft : d.chunkLeft ≠ 1 := by omega
    have hrest : rest.length < d.chunkLeft - 1 := by omega
    rw [feed_cons (step_data hdone hchunk hstate b),Decoder.dataStep,if_neg hsize,if_neg hleft,
      ih (d := d.consume [b]) hdone hchunk hstate hsize hrest,consume_consume]
    rfl

theorem feed_data_whole
    (hsize : d.chunkSize ≠ 0) (hne : bytes ≠ []) (hlen : bytes.length = d.chunkLeft) :
    feed Decoder.step d bytes = .ok (d.emit bytes).closeChunk := by
  obtain ⟨front,b,rfl⟩ : ∃ front b, bytes = front ++ [b] :=
    ⟨bytes.dropLast,bytes.getLast hne,(dropLast_append_getLast hne).symm⟩
  rw [length_append,length_singleton] at hlen
  have hfront := feed_data_part hdone hchunk hstate hsize (show front.length < d.chunkLeft by omega)
  have hlast : (d.consume front).chunkLeft = 1 := show d.chunkLeft - front.length = 1 by omega
  rw [feed_append_ok hfront,feed_cons (step_data (d := d.consume front) hdone hchunk hstate b),
    Decoder.dataStep,if_neg (show (d.consume front).chunkSize ≠ 0 from hsize),if_pos hlast,
    ← emit_emit]
  rfl

end

section

variable {s : Session} {t : Decoder} {bytes : Text}

theorem view_callResultFunc (s : Session) (buffer : Text) :
    (s.callResultFunc buffer 0).view = s.view.emit buffer := by
  simp [Session.view,Session.delivered,Session.callResultFunc,Decoder.emit]

theorem sizeStep_lf {d d' : Decoder} (h : d.sizeStep lf = .ok d') :
    endsInCr d.currentHeader = true ∧ ∃ counter, readSize false d.currentHeader = some counter ∧
      d' = { d with chunkSize := counter, chunkLeft := counter, chunkState := .data } := by
  rw [Decoder.sizeStep,if_pos rfl] at h
  split at h
  · rename_i hend
    split at h
    · cases h
    · rename_i counter hsize
      cases h
      exact ⟨hend,counter,hsize,rfl⟩
  · cases h

theorem ne_nil_of_unsplit {current line after : Text}
    (h : endsInCr current = true → (line ++ lf :: after).head? ≠ some lf) :
    endsInCr current = true → line ≠ [] := by
  intro hend hline
  rw [hline] at h
  exact h hend rfl

structure Decoding (s : Session) (bytes : Text) (t : Decoder) : Prop where
  done : s.headerDone = true
  chunk : s.useChunk = true
  sound : s.Sound
  unsplit : s.chunkState = .size → endsInCr s.currentHeader = true → bytes.head? ≠ some lf
  fed : feed Decoder.step s.view bytes = .ok t

inductive Turn (s : Session) (bytes : Text) (t : Decoder) : Prop where
  | last (s' : Session) (hview : s'.view = t)
      (h : ∀ fuel, s.decodeChunked false (fuel + 1) bytes = (s',true))
  | next (s' : Session) (bytes' : Text) (hlen : bytes'.length < bytes.length)
      (hdec : Decoding s' bytes' t)
      (h : ∀ fuel, s.decodeChunked false (fuel + 1) bytes = s'.decodeChunked false fuel bytes')

section

variable {b : UInt8} {rest : Text}

variable (h : Decoding s (b :: rest) t)
include h

theorem turn_size (hstate : s.chunkState = .size) : Turn s (b :: rest) t := by
  have hfeed := h.fed
  cases hcut : cut lf (b :: rest) with
  | none =>
    rw [feed_size_text (d := s.view) h.done h.chunk hstate (cut_none hcut)] at hfeed
    cases hfeed
    refine .last { s with currentHeader := s.currentHeader ++ b :: rest } rfl fun fuel => ?_
    simp only [Session.decodeChunked,hstate,hcut]
  | some parts =>
    obtain ⟨line,after⟩ := parts
    obtain ⟨hbytes,hline⟩ := cut_some hcut
    have hkept := ne_nil_of_unsplit (hbytes ▸ h.unsplit hstate)
    have htext := feed_size_text (d := s.view) h.done h.chunk hstate hline
    rw [hbytes,feed_append_ok htext] at hfeed
    obtain ⟨d,hd,hafter⟩ := bind_eq_ok hfeed
    have hsound := step_sound (feed_invariant (fun _ _ _ => step_sound) h.sound htext) hd
    rw [step_chunk (d := s.view.extend line) h.done h.chunk,
      chunkStep_size (d := s.view.extend line) hstate] at hd
    obtain ⟨hend,counter,hsize,rfl⟩ := sizeStep_lf hd
    refine .next { s with
      currentHeader := s.currentHeader ++ line, chunkSize := counter,
      chunkLeft := counter, chunkState := .data } after ?_
      ⟨h.done,h.chunk,hsound,fun hdata => (by cases hdata),hafter⟩ fun fuel => ?_
    · rw [hbytes,length_append,length_cons]
      omega
    · have hsize' : readSize false (s.currentHeader ++ line) = some counter := hsize
      simp only [Session.decodeChunked,hstate,hcut,endsInCr_resumed hkept hend,hsize',if_true]

theorem turn_rBody (hstate : s.chunkState = .rBody) : Turn s (b :: rest) t := by
  obtain ⟨d,hd,hafter⟩ := bind_eq_ok h.fed
  have hsound := step_sound h.sound hd
  rw [step_chunk (d := s.view) h.done h.chunk,Decoder.chunkStep,
    show s.view.chunkState = .rBody from hstate] at hd
  dsimp only at hd
  split at hd
  · rename_i hb
    cases hd
    refine .next { s with chunkState := .nBody } rest (Nat.lt_succ_self _)
      ⟨h.done,h.chunk,hsound,fun hsize => (by cases hsize),hafter⟩ fun fuel => ?_
    simp only [Session.decodeChunked,hstate,if_pos hb]
  · cases hd

theorem turn_nBody (hstate : s.chunkState = .nBody) : Turn s (b :: rest) t := by
  have hempty : s.currentHeader = [] :=
    h.sound.between h.done (by rw [hstate]; decide) (by rw [hstate]; decide)
  obtain ⟨d,hd,hafter⟩ := bind_eq_ok h.fed
  have hsound := step_sound h.sound hd
  rw [step_chunk (d := s.view) h.done h.chunk,Decoder.chunkStep,
    show s.view.chunkState = .nBody from hstate] at hd
  dsimp only at hd
  split at hd
  · rename_i hb
    cases hd
    refine .next { s with chunkState := .size } rest (Nat.lt_succ_self _)
      ⟨h.done,h.chunk,hsound,fun _ hend => (by rw [hempty] at hend; cases hend),hafter⟩
      fun fuel => ?_
    simp only [Session.decodeChunked,hstate,if_pos hb]
  · cases hd

theorem turn_whole_chunk (hstate : s.chunkState = .data) (hsize : s.chunkSize ≠ 0)
    (hlen : s.chunkLeft ≤ (b :: rest).length) : Turn s (b :: rest) t := by
  have hfeed := h.fed
  have hleft : 0 < s.chunkLeft := h.sound.left hstate hsize
  have htake : ((b :: rest).take s.chunkLeft).length = s.chunkLeft := length_take_of_le hlen
  have hdata := feed_data_whole (d := s.view) h.done h.chunk hstate hsize
    (ne_nil_of_length_pos (by rwa [htake])) htake
  rw [← take_append_drop s.chunkLeft (b :: rest),feed_append_ok hdata,
    ← view_callResultFunc] at hfeed
  refine .next { s.callResultFunc ((b :: rest).take s.chunkLeft) 0 with
      chunkLeft := 0, currentHeader := [], chunkState := .rBody }
    ((b :: rest).drop s.chunkLeft) ?_
    ⟨h.done,h.chunk,⟨h.sound.watched,fun hdata => (by cases hdata),fun _ _ _ => rfl⟩,
      fun hsize => (by cases hsize),hfeed⟩ fun fuel => ?_
  · rw [length_drop,length_cons]
    omega
  · simp only [Session.decodeChunked,hstate,if_neg hsize,if_pos hlen]

theorem turn_data (hstate : s.chunkState = .data) : Turn s (b :: rest) t := by
  have hfeed := h.fed
  by_cases hsize : s.chunkSize = 0
  · rw [feed_drained (d := s.view) h.done h.chunk hstate hsize] at hfeed
    cases hfeed
    refine .last { s with currentHeader := [] } rfl fun fuel => ?_
    simp only [Session.decodeChunked,hstate,if_pos hsize]
  by_cases hlen : s.chunkLeft ≤ (b :: rest).length
  · exact turn_whole_chunk h hstate hsize hlen
  rw [feed_data_part (d := s.view) h.done h.chunk hstate hsize (Nat.lt_of_not_le hlen)] at hfeed
  cases hfeed
  refine .last { s.callResultFunc (b :: rest) 0 with
    chunkLeft := s.chunkLeft - (b :: rest).length } ?_ fun fuel => ?_
  · rw [Decoder.consume,← view_callResultFunc]
    rfl
  · simp only [Session.decodeChunked,hstate,if_neg hsize,if_neg hlen]

theorem decoding_turn : Turn s (b :: rest) t := by
  cases hstate : s.chunkState with
  | size => exact turn_size h hstate
  | rBody => exact turn_rBody h hstate
  | nBody => exact turn_nBody h hstate
  | data => exact turn_data h hstate

end

theorem decodeChunked_feed {fuel : Nat} (hfuel : bytes.length < fuel) (h : Decoding s bytes t) :
    ∃ s', s.decodeChunked false fuel bytes = (s',true) ∧ s'.view = t := by
  induction fuel generalizing s bytes with
  | zero => exact absurd hfuel (Nat.not_lt_zero _)
  | succ fuel ih =>
    cases bytes with
    | nil =>
      cases h.fed
      exact ⟨s,rfl,rfl⟩
    | cons b rest =>
      cases decoding_turn h with
      | last s' hview hlast => exact ⟨s',hlast fuel,hview⟩
      | next s' bytes' hlen hdec hnext =>
        obtain ⟨s'',hs'',hview⟩ := ih (Nat.lt_of_lt_of_le hlen (Nat.le_of_lt_succ hfuel)) hdec
        exact ⟨s'',(hnext fuel).trans hs'',hview⟩

theorem receivedBody_feed (hdone : s.headerDone = true) (hsound : s.Sound)
    (hunsplit : s.useChunk = true → s.chunkState = .size → endsInCr s.currentHeader = true →
      bytes.head? ≠ some lf) (hfeed : feed Decoder.step s.view bytes = .ok t) :
    (s.receivedBody false bytes).view = t := by
  cases hchunk : s.useChunk with
  | true =>
    obtain ⟨s',hs',hview⟩ := decodeChunked_feed (Nat.lt_succ_self _)
      ⟨hdone,hchunk,hsound,hunsplit hchunk,hfeed⟩
    have hhandled : s.handleBody false bytes = (s',true) := by
      simp only [Session.handleBody,hchunk,hs',if_true]
    rw [Session.receivedBody,hhandled]
    exact hview
  | false =>
    rw [feed_plain (d := s.view) hdone hchunk] at hfeed
    cases hfeed
    by_cases hbytes : bytes = []
    · have hhandled : s.handleBody false bytes = (s,true) := by
        simp [Session.handleBody,hchunk,hbytes]
      rw [Session.receivedBody,hhandled,hbytes,emit_nil]
      rfl
    have hhandled : s.handleBody false bytes = (s.callResultFunc bytes 0,true) := by
      simp [Session.handleBody,hchunk,hbytes]
    rw [Session.receivedBody,hhandled,← view_callResultFunc]
    rfl

theorem lineStep_lf {d d' : Decoder} (h : d.lineStep lf = .ok d') :
    (stripCr d.currentHeader = [] ∧ d' = d.finish) ∨
    (stripCr d.currentHeader ≠ [] ∧ ∃ p, d.handleLine (stripCr d.currentHeader) = .ok p ∧
      d' = { d with toParser := p }) := by
  rw [Decoder.lineStep,if_neg (by decide),if_pos rfl] at h
  split at h
  · rename_i hempty
    cases h
    exact .inl ⟨hempty,rfl⟩
  rename_i hline
  split at h
  · cases h
  · rename_i p hp
    cases h
    exact .inr ⟨hline,p,hp,rfl⟩

theorem finish_view (hcurrent : s.currentHeader = []) (line : Text) :
    (s.view.extend line).finish = ({ s with toParser := s.finishHeader } : Session).view := by
  have hparser : ({ s.toParser with currentHeader := [] } : Parser) = s.toParser := by
    rw [← hcurrent]
  show ({ s.view with toParser := ({ s.toParser with currentHeader := [] } : Parser).finishHeader } :
    Decoder) = _
  rw [hparser]
  rfl

theorem receivedLines_feed {fuel : Nat} (hfuel : bytes.length ≤ fuel) (hdone : s.headerDone = false)
    (hsound : s.Sound) (hunsplit : endsInCr s.currentHeader = true → bytes.head? ≠ some lf)
    (hfeed : feed Decoder.step s.view bytes = .ok t) :
    ∃ s', s.receivedLines false fuel bytes = .ok s' ∧ s'.view = t := by
  induction fuel generalizing s bytes with
  | zero =>
    rw [length_eq_zero_iff.mp (Nat.le_zero.mp hfuel)] at hfeed
    cases hfeed
    exact ⟨s,rfl,rfl⟩
  | succ fuel ih =>
    cases bytes with
    | nil =>
      cases hfeed
      exact ⟨s,rfl,rfl⟩
    | cons b rest =>
      rw [length_cons] at hfuel
      cases hcut : cut lf (b :: rest) with
      | none =>
        rw [feed_line_text (d := s.view) hdone (cut_none hcut)] at hfeed
        split at hfeed
        · cases hfeed
        · cases hfeed
          refine ⟨{ s with currentHeader := s.currentHeader ++ b :: rest },?_,rfl⟩
          simp only [Session.receivedLines,hcut]
      | some parts =>
        obtain ⟨line,after⟩ := parts
        obtain ⟨hbytes,hline⟩ := cut_some hcut
        have hlen : after.length ≤ fuel := by
          have := congrArg List.length hbytes
          simp only [length_cons,length_append] at this
          omega
        have hkept := ne_nil_of_unsplit (hbytes ▸ hunsplit)
        have htext := feed_line_text (d := s.view) hdone hline
        split at htext
        · rw [hbytes,feed_append,htext] at hfeed
          cases hfeed
        rename_i hnul
        rw [hbytes,feed_append_ok htext] at hfeed
        obtain ⟨d,hd,hafter⟩ := bind_eq_ok hfeed
        have hsound' := step_sound (feed_invariant (fun _ _ _ => step_sound) hsound htext) hd
        rw [step_line (d := s.view.extend line) hdone] at hd
        have hstrip : stripCr (s.view.extend line).currentHeader =
            s.currentHeader ++ stripCr line := stripCr_resumed hkept
        rcases lineStep_lf hd with ⟨hempty,rfl⟩ | ⟨hfull,p,hp,rfl⟩
        · rw [hstrip] at hempty
          have hcurrent : s.currentHeader = [] := (append_eq_nil_iff.mp hempty).1
          obtain ⟨hdone',hheader,_⟩ := finishHeader_done s.toParser
          rw [finish_view hcurrent line] at hafter
          have hbody := receivedBody_feed (s := { s with toParser := s.finishHeader }) hdone'
            (finishHeader_sound hsound hcurrent)
            (fun _ _ hend => by rw [hheader,hcurrent] at hend; cases hend) hafter
          refine ⟨_,?_,hbody⟩
          simp only [Session.receivedLines,hcut,if_neg hnul,if_pos hempty]
        rw [hstrip] at hp hfull
        obtain ⟨hmode,hheader⟩ := handleLine_mode hp
        obtain ⟨s',hs',hview⟩ := ih (s := { s with toParser := p }) hlen
          (hmode.done.trans hdone) hsound'
          (fun hend => by rw [hheader] at hend; cases hend) hafter
        refine ⟨s',?_,hview⟩
        have hp' : s.handleLine (s.currentHeader ++ stripCr line) = .ok p := hp
        simp only [Session.receivedLines,hcut,if_neg hnul,if_neg hfull,hp']
        exact hs'

theorem receive_feed (hsound : s.view.Sound) (hunsplit : Unsplit s bytes)
    (hfeed : feed Decoder.step s.view bytes = .ok t) :
    ∃ s', s.receive bytes = .ok s' ∧ s'.view = t := by
  have hwatch : s.transportWatch = true := hsound.watched
  cases hdone : s.headerDone with
  | true =>
    refine ⟨s.receivedBody false bytes,?_,receivedBody_feed hdone hsound ?_ hfeed⟩
    · simp only [Session.receive,Session.dispatch,Session.receivedData,hwatch,hdone,if_true]
    · intro hchunk hstate hend hhead
      exact (hunsplit hend hhead).2 hchunk hstate
  | false =>
    obtain ⟨s',hs',hview⟩ := receivedLines_feed le_rfl hdone hsound
      (fun hend hhead => by rw [(hunsplit hend hhead).1] at hdone; cases hdone) hfeed
    refine ⟨s',?_,hview⟩
    simp only [Session.receive,Session.dispatch,Session.receivedData,hwatch,hdone,if_true]
    exact hs'

theorem receive_segments {segments : List Text} (hsound : s.view.Sound)
    (hwhole : Whole Unsplit Session.receive s segments)
    (hfeed : feed Decoder.step s.view segments.flatten = .ok t) :
    ∃ s', feed Session.receive s segments = .ok s' ∧ s'.view = t := by
  have hstep : ∀ (d : Decoder) (b : UInt8) (d' : Decoder), d.Sound → d.step b = .ok d' → d'.Sound :=
    fun _ _ _ => step_sound
  exact feed_segments hstep (fun _ _ _ => receive_feed) hsound hwhole hfeed

end

end FuzzingTargets.Connman.Gweb
