import FuzzingTargets.Foundation.ByteOrder
import FuzzingTargets.Foundation.Checked
import FuzzingTargets.Foundation.LittleEndian
import Mathlib.Data.Vector.Defs

namespace FuzzingTargets.Cereal.PortableBinary
open LittleEndian ByteOrder Checked List

inductive Endianness where
  | big
  | little
  deriving DecidableEq

def Endianness.isLittleEndian : Endianness → UInt8
  | .big => 0
  | .little => 1

inductive Error where
  | write (size written : Nat)
  | read (size got : Nat)
  | length (size : Nat)
  deriving DecidableEq

def memory (host : Endianness) (width : Nat) (v : BitVec (8 * width)) : List UInt8 :=
  match host with
  | .little => le width v.toNat
  | .big => (le width v.toNat).reverse

def fromMemory (host : Endianness) (width : Nat) (bytes : List UInt8) : BitVec (8 * width) :=
  match host with
  | .little => BitVec.ofNat _ (ofLe bytes)
  | .big => BitVec.ofNat _ (ofLe bytes.reverse)

def elementsFrom (host : Endianness) (width : Nat) : Nat → List UInt8 → List (BitVec (8 * width))
  | 0, _ => []
  | n + 1, data =>
    fromMemory host width (data.take width) :: elementsFrom host width n (data.drop width)

structure OutputArchive where
  host : Endianness
  itsStream : List UInt8
  itsConvertEndianness : UInt8
  deriving DecidableEq

def saveBinary (dataSize : Nat) (data : List UInt8) (ar : OutputArchive) :
    Except Error OutputArchive :=
  let written := if ar.itsConvertEndianness ≠ 0
    then streamEach dataSize data (rounds data.length dataSize) 0
    else data
  if written.length ≠ data.length then .error (.write data.length written.length)
  else .ok { ar with itsStream := ar.itsStream ++ written }

structure InputArchive where
  host : Endianness
  itsStream : List UInt8
  itsConvertEndianness : UInt8
  deriving DecidableEq

def loadBinary (dataSize size : Nat) (ar : InputArchive) :
    Except Error (List UInt8 × InputArchive) :=
  let data := ar.itsStream.take size
  let ar := { ar with itsStream := ar.itsStream.drop size }
  if data.length ≠ size then .error (.read size data.length)
  else if ar.itsConvertEndianness ≠ 0 then .ok (swapEach dataSize (rounds size dataSize) 0 data,ar)
  else .ok (data,ar)

inductive Width where
  | one
  | two
  | four
  | eight
  deriving DecidableEq

def Width.bytes : Width → Nat
  | .one => 1
  | .two => 2
  | .four => 4
  | .eight => 8

inductive CharWidth where
  | char
  | char16
  | char32
  deriving DecidableEq

def CharWidth.width : CharWidth → Width
  | .char => .one
  | .char16 => .two
  | .char32 => .four

structure Sequence (w : Width) where
  elements : List (BitVec (8 * w.bytes))
  fits : elements.length * w.bytes < 2 ^ 63
  deriving DecidableEq

inductive Kind where
  | integer (w : Width)
  | string (c : CharWidth)
  | vector (w : Width)
  deriving DecidableEq

def Kind.Value : Kind → Type
  | .integer w => BitVec (8 * w.bytes)
  | .string c => Sequence c.width
  | .vector w => Sequence w

structure Item where
  kind : Kind
  value : kind.Value

def saveInteger (w : Width) (v : BitVec (8 * w.bytes)) (ar : OutputArchive) :
    Except Error OutputArchive := saveBinary w.bytes (memory ar.host w.bytes v) ar

def loadInteger (w : Width) (ar : InputArchive) :
    Except Error (BitVec (8 * w.bytes) × InputArchive) := do
  let (bytes,ar) ← loadBinary w.bytes w.bytes ar
  .ok (fromMemory ar.host w.bytes bytes,ar)

def saveSequence (w : Width) (s : Sequence w) (ar : OutputArchive) : Except Error OutputArchive := do
  let ar ← saveInteger .eight (BitVec.ofNat _ s.elements.length) ar
  saveBinary w.bytes (s.elements.flatMap (memory ar.host w.bytes)) ar

theorem elementsFrom_length (host : Endianness) (width n : Nat) (data : List UInt8) :
    (elementsFrom host width n data).length = n := by
  induction n generalizing data with
  | zero => rfl
  | succ n ih => rw [elementsFrom,length_cons,ih]

def resized (w : Width) (size : Nat) (host : Endianness) (data : List UInt8)
    (h : size * w.bytes < 2 ^ 63) : Sequence w :=
  ⟨elementsFrom host w.bytes size data,by rwa [elementsFrom_length]⟩

def loadElements (w : Width) (size : Nat) (ar : InputArchive) :
    Except Error (Sequence w × InputArchive) :=
  if h : size * w.bytes < 2 ^ 63 then do
    let (data,ar) ← loadBinary w.bytes (size * w.bytes) ar
    .ok (resized w size ar.host data h,ar)
  else .error (.length size)

def loadSequence (w : Width) (ar : InputArchive) : Except Error (Sequence w × InputArchive) := do
  let (size,ar) ← loadInteger .eight ar
  loadElements w size.toNat ar

def saveString (c : CharWidth) (s : Sequence c.width) (ar : OutputArchive) :
    Except Error OutputArchive := saveSequence c.width s ar

def loadString (c : CharWidth) (ar : InputArchive) :
    Except Error (Sequence c.width × InputArchive) := loadSequence c.width ar

def saveVector (w : Width) (s : Sequence w) (ar : OutputArchive) : Except Error OutputArchive :=
  saveSequence w s ar

def loadVector (w : Width) (ar : InputArchive) : Except Error (Sequence w × InputArchive) :=
  loadSequence w ar

def saveItem : Item → OutputArchive → Except Error OutputArchive
  | ⟨.integer w,v⟩ => saveInteger w v
  | ⟨.string c,s⟩ => saveString c s
  | ⟨.vector w,s⟩ => saveVector w s

def loadItem : Kind → InputArchive → Except Error (Item × InputArchive)
  | .integer w => fun ar => do
    let (v,ar) ← loadInteger w ar
    .ok (⟨.integer w,v⟩,ar)
  | .string c => fun ar => do
    let (s,ar) ← loadString c ar
    .ok (⟨.string c,s⟩,ar)
  | .vector w => fun ar => do
    let (s,ar) ← loadVector w ar
    .ok (⟨.vector w,s⟩,ar)

def saveItems : List Item → OutputArchive → Except Error OutputArchive
  | [], ar => .ok ar
  | item :: items, ar => do
    let ar ← saveItem item ar
    saveItems items ar

def loadItems : List Kind → InputArchive → Except Error (List Item × InputArchive)
  | [], ar => .ok ([],ar)
  | kind :: kinds, ar => do
    let (item,ar) ← loadItem kind ar
    let (items,ar) ← loadItems kinds ar
    .ok (item :: items,ar)

def openOutput (host options : Endianness) (stream : List UInt8) : Except Error OutputArchive :=
  saveInteger .one (BitVec.ofNat _ options.isLittleEndian.toNat)
    ⟨host,stream,host.isLittleEndian ^^^ options.isLittleEndian⟩

def openInput (host options : Endianness) (stream : List UInt8) : Except Error InputArchive := do
  let (streamLittleEndian,ar) ← loadInteger .one ⟨host,stream,0⟩
  .ok { ar with itsConvertEndianness :=
    options.isLittleEndian ^^^ UInt8.ofNat streamLittleEndian.toNat }

def save (host options : Endianness) (items : List Item) : Except Error (List UInt8) := do
  let ar ← openOutput host options []
  let ar ← saveItems items ar
  .ok ar.itsStream

def load (host : Endianness) (kinds : List Kind) (stream : List UInt8) :
    Except Error (List Item × List UInt8) := do
  let ar ← openInput host host stream
  let (items,ar) ← loadItems kinds ar
  .ok (items,ar.itsStream)

section

variable {width : Nat} {host order : Endianness}

theorem memory_length (host : Endianness) (v : BitVec (8 * width)) :
    (memory host width v).length = width := by
  cases host with
  | big => rw [memory,length_reverse,le_length]
  | little => rw [memory,le_length]

theorem fromMemory_memory (host : Endianness) (v : BitVec (8 * width)) :
    fromMemory host width (memory host width v) = v := by
  have hlt : v.toNat < 256 ^ width := by
    have h := v.isLt
    rwa [Nat.pow_mul] at h
  cases host with
  | big =>
    rw [fromMemory,memory,reverse_reverse,ofLe_le_of_lt hlt,BitVec.ofNat_toNat,
      BitVec.setWidth_eq]
  | little => rw [fromMemory,memory,ofLe_le_of_lt hlt,BitVec.ofNat_toNat,BitVec.setWidth_eq]

theorem memory_other (h : host ≠ order) (v : BitVec (8 * width)) :
    (memory host width v).reverse = memory order width v := by
  cases host with
  | big =>
    cases order with
    | big => exact absurd rfl h
    | little => exact reverse_reverse _
  | little =>
    cases order with
    | big => rfl
    | little => exact absurd rfl h

theorem convert_iff (host order : Endianness) :
    host.isLittleEndian ^^^ order.isLittleEndian ≠ 0 ↔ host ≠ order := by
  cases host with
  | big | little => cases order <;> decide

variable (host) (vs : List (BitVec (8 * width)))

theorem elementsFrom_memory :
    elementsFrom host width vs.length (vs.flatMap (memory host width)) = vs := by
  induction vs with
  | nil => rfl
  | cons v vs ih =>
    have hlen := memory_length host v
    rw [length_cons,elementsFrom,flatMap_cons,take_left' hlen,
      drop_left' hlen,fromMemory_memory,ih]

theorem blocks_width : ∀ b ∈ vs.map (memory host width), b.length = width := by
  intro b hb
  obtain ⟨v,-,rfl⟩ := List.mem_map.mp hb
  exact memory_length host v

theorem memories_length : (vs.flatMap (memory host width)).length = vs.length * width := by
  have h := flatten_length (blocks_width host vs)
  rwa [length_map,← flatMap_def] at h

variable {host vs}

theorem memories_other (h : host ≠ order) :
    ((vs.map (memory host width)).map List.reverse).flatten = vs.flatMap (memory order width) := by
  rw [map_map,flatMap_def]
  congr 1
  exact map_congr_left fun v _ => memory_other h v

theorem streamEach_memories (hwidth : 0 < width) (h : host ≠ order) :
    streamEach width (vs.flatMap (memory host width))
      (rounds (vs.flatMap (memory host width)).length width) 0 =
        vs.flatMap (memory order width) := by
  have hstream := streamEach_reverses (blocks_width host vs) []
  rw [nil_append,length_nil,← flatMap_def,memories_other h] at hstream
  rw [memories_length,rounds_blocks hwidth,← length_map (f := memory host width),hstream]

theorem swapEach_memories (hwidth : 0 < width) (h : order ≠ host) :
    swapEach width (rounds (vs.length * width) width) 0 (vs.flatMap (memory order width)) =
      vs.flatMap (memory host width) := by
  have hswap := swapEach_reverses (blocks_width order vs) []
  rw [nil_append,nil_append,length_nil,← flatMap_def,memories_other h,length_map] at hswap
  rw [rounds_blocks hwidth,hswap]

end

section

variable {width : Nat} (host order : Endianness) (stream rest : List UInt8)

def writing (host order : Endianness) (stream : List UInt8) : OutputArchive :=
  ⟨host,stream,host.isLittleEndian ^^^ order.isLittleEndian⟩

def reading (host order : Endianness) (stream : List UInt8) : InputArchive :=
  ⟨host,stream,host.isLittleEndian ^^^ order.isLittleEndian⟩

theorem saveBinary_memories (hwidth : 0 < width) (vs : List (BitVec (8 * width))) :
    saveBinary width (vs.flatMap (memory host width)) (writing host order stream) =
      .ok (writing host order (stream ++ vs.flatMap (memory order width))) := by
  unfold saveBinary writing
  by_cases h : host = order
  · rw [if_neg fun hne => (convert_iff host order).mp hne h,if_neg (not_not.mpr rfl),h]
  · rw [if_pos ((convert_iff host order).mpr h),streamEach_memories hwidth h,
      if_neg (by rw [memories_length,memories_length]; exact not_not.mpr rfl)]

theorem loadBinary_memories (hwidth : 0 < width) (vs : List (BitVec (8 * width))) :
    loadBinary width (vs.length * width)
      (reading host order (vs.flatMap (memory order width) ++ rest)) =
        .ok (vs.flatMap (memory host width),reading host order rest) := by
  have hlen := memories_length order vs
  unfold loadBinary reading
  rw [take_left' hlen,drop_left' hlen,if_neg (not_not.mpr hlen)]
  by_cases h : host = order
  · rw [if_neg fun hne => (convert_iff host order).mp hne h,h]
  · rw [if_pos ((convert_iff host order).mpr h),swapEach_memories hwidth (Ne.symm h)]

def sequenceBytes (order : Endianness) (w : Width) (s : Sequence w) : List UInt8 :=
  memory order Width.eight.bytes (BitVec.ofNat _ s.elements.length) ++ s.elements.flatMap (memory order w.bytes)

section

variable (w : Width)
include w

theorem width_pos : 0 < w.bytes := by
  cases w <;> decide

theorem saveInteger_stream (v : BitVec (8 * w.bytes)) :
    saveInteger w v (writing host order stream) =
      .ok (writing host order (stream ++ memory order w.bytes v)) := by
  have h := saveBinary_memories host order stream (width_pos w) [v]
  rw [flatMap_singleton,flatMap_singleton] at h
  exact h

theorem loadInteger_stream (v : BitVec (8 * w.bytes)) :
    loadInteger w (reading host order (memory order w.bytes v ++ rest)) =
      .ok (v,reading host order rest) := by
  have h := loadBinary_memories host order rest (width_pos w) [v]
  rw [flatMap_singleton,flatMap_singleton,length_singleton,Nat.one_mul] at h
  unfold loadInteger
  rw [h,bind_ok]
  exact congrArg (fun v => Except.ok (v,reading host order rest)) (fromMemory_memory host v)

theorem saveSequence_stream (s : Sequence w) : saveSequence w s (writing host order stream) =
      .ok (writing host order (stream ++ sequenceBytes order w s)) := by
  have h := saveBinary_memories host order
    (stream ++ memory order Width.eight.bytes (BitVec.ofNat _ s.elements.length)) (width_pos w)
    s.elements
  rw [append_assoc] at h
  unfold saveSequence
  rw [saveInteger_stream,bind_ok]
  exact h

theorem sequence_size (s : Sequence w) :
    (BitVec.ofNat (8 * Width.eight.bytes) s.elements.length).toNat = s.elements.length := by
  have hle := Nat.le_mul_of_pos_right s.elements.length (width_pos w)
  have hfits := s.fits
  exact Nat.mod_eq_of_lt (Nat.lt_of_le_of_lt hle (Nat.lt_trans hfits (by decide)))

theorem loadElements_stream (s : Sequence w) : loadElements w s.elements.length
      (reading host order (s.elements.flatMap (memory order w.bytes) ++ rest)) =
        .ok (s,reading host order rest) := by
  have hdata := loadBinary_memories host order rest (width_pos w) s.elements
  unfold loadElements
  rw [dif_pos s.fits,hdata,bind_ok]
  dsimp only
  congr 2
  unfold resized
  congr 1
  exact elementsFrom_memory host s.elements

theorem loadSequence_stream (s : Sequence w) :
    loadSequence w (reading host order (sequenceBytes order w s ++ rest)) =
      .ok (s,reading host order rest) := by
  have hsize := loadInteger_stream host order
    (s.elements.flatMap (memory order w.bytes) ++ rest) .eight (BitVec.ofNat _ s.elements.length)
  unfold loadSequence
  rw [sequenceBytes,append_assoc,hsize,bind_ok]
  dsimp only
  rw [sequence_size,loadElements_stream]

end

end

section

variable (host order : Endianness) (stream rest : List UInt8)

def itemBytes (order : Endianness) : Item → List UInt8
  | ⟨.integer w,v⟩ => memory order w.bytes v
  | ⟨.string c,s⟩ => sequenceBytes order c.width s
  | ⟨.vector w,s⟩ => sequenceBytes order w s

theorem saveItem_stream (item : Item) : saveItem item (writing host order stream) =
      .ok (writing host order (stream ++ itemBytes order item)) := by
  obtain ⟨kind,value⟩ := item
  cases kind with
  | integer w => exact saveInteger_stream host order stream w value
  | string c => exact saveSequence_stream host order stream c.width value
  | vector w => exact saveSequence_stream host order stream w value

theorem loadItem_stream (item : Item) :
    loadItem item.kind (reading host order (itemBytes order item ++ rest)) =
      .ok (item,reading host order rest) := by
  obtain ⟨kind,value⟩ := item
  cases kind with
  | integer w =>
    have h := loadInteger_stream host order rest w value
    unfold loadItem
    dsimp only [itemBytes]
    rw [h,bind_ok]
  | string c =>
    have h := loadSequence_stream host order rest c.width value
    unfold loadItem loadString
    dsimp only [itemBytes]
    rw [h,bind_ok]
  | vector w =>
    have h := loadSequence_stream host order rest w value
    unfold loadItem loadVector
    dsimp only [itemBytes]
    rw [h,bind_ok]

theorem saveItems_stream (items : List Item) : saveItems items (writing host order stream) =
      .ok (writing host order (stream ++ items.flatMap (itemBytes order))) := by
  induction items generalizing stream with
  | nil => rw [saveItems,flatMap_nil,append_nil]
  | cons item items ih =>
    rw [saveItems,saveItem_stream,bind_ok,ih,flatMap_cons,append_assoc]

theorem loadItems_stream (items : List Item) : loadItems (items.map Item.kind)
      (reading host order (items.flatMap (itemBytes order) ++ rest)) =
        .ok (items,reading host order rest) := by
  induction items with
  | nil => rfl
  | cons item items ih =>
    rw [map_cons,loadItems,flatMap_cons,append_assoc,loadItem_stream,bind_ok]
    dsimp only
    rw [ih,bind_ok]

def flagBytes (order : Endianness) : List UInt8 :=
  memory order Width.one.bytes (BitVec.ofNat _ order.isLittleEndian.toNat)

theorem memory_byte (host order : Endianness) (v : BitVec (8 * Width.one.bytes)) :
    memory host Width.one.bytes v = memory order Width.one.bytes v := by
  cases host with
  | big | little => cases order <;> rfl

theorem openInput_stream :
    openInput host host (flagBytes order ++ rest) = .ok (reading host order rest) := by
  have hload := loadInteger_stream host host rest .one
    (BitVec.ofNat _ order.isLittleEndian.toNat)
  have hzero : host.isLittleEndian ^^^ host.isLittleEndian = 0 := UInt8.xor_self
  rw [reading,hzero] at hload
  unfold openInput
  rw [flagBytes,memory_byte order host,hload,bind_ok]
  cases order with
  | big | little => rfl

theorem save_stream (items : List Item) :
    save host order items = .ok (flagBytes order ++ items.flatMap (itemBytes order)) := by
  have hopen := saveInteger_stream host order [] .one
    (BitVec.ofNat _ order.isLittleEndian.toNat)
  unfold save openOutput
  rw [show (⟨host,[],host.isLittleEndian ^^^ order.isLittleEndian⟩ : OutputArchive) =
    writing host order [] from rfl,hopen,bind_ok,saveItems_stream,bind_ok]
  rfl

end

theorem load_save (writer options reader : Endianness) (items : List Item) :
    ∃ stream, save writer options items = .ok stream ∧
      ∀ rest, load reader (items.map Item.kind) (stream ++ rest) = .ok (items,rest) := by
  refine ⟨_,save_stream writer options items,?_⟩
  intro rest
  unfold load
  rw [append_assoc,openInput_stream,bind_ok,loadItems_stream,bind_ok]
  rfl

inductive BitsetType where
  | ulong
  | ullong
  | string
  | bits
  deriving DecidableEq

def BitsetType.code : BitsetType → BitVec 8
  | .ulong => 0
  | .ullong => 1
  | .string => 2
  | .bits => 3

def BitsetType.ofCode (t : BitVec 8) : Option BitsetType :=
  [.ulong,.ullong,.string,.bits].find? (·.code = t)

inductive BitsetError where
  | archive (e : Error)
  | exception (what : String)
  | invalidArgument
  deriving DecidableEq

abbrev Bitset (n : Nat) : Type := List.Vector Bool n

def Bitset.ofWord (n : Nat) (b : BitVec 64) : Bitset n := ⟨(range n).map b.getLsbD,by simp⟩

def Bitset.ofText (n : Nat) (text : List (BitVec 8)) : Option (Bitset n) :=
  let used := text.take n
  if ∀ c ∈ used, c = 48 ∨ c = 49 then
    some ⟨(range n).map fun i => used.reverse.getD i 48 = 49,by simp⟩
  else none

def saveByte (v : BitVec 8) (ar : OutputArchive) : Except Error OutputArchive :=
  saveInteger .one v ar

def loadByte (ar : InputArchive) : Except Error (BitVec 8 × InputArchive) := loadInteger .one ar

def saveBits : List Bool → BitVec 8 → BitVec 8 → OutputArchive → Except Error OutputArchive
  | [], chunk, mask, ar => if mask ≠ 0x80 then saveByte chunk ar else .ok ar
  | b :: bs, chunk, mask, ar =>
    let chunk := if b then chunk ||| mask else chunk
    let mask := mask >>> 1
    if mask = 0 then do
      let ar ← saveByte chunk ar
      saveBits bs 0 0x80 ar
    else saveBits bs chunk mask ar

def saveBitset {n : Nat} (bits : Bitset n) (ar : OutputArchive) : Except Error OutputArchive := do
  let ar ← saveByte BitsetType.bits.code ar
  saveBits bits.toList 0 0x80 ar

def nextChunk (chunk mask : BitVec 8) (ar : InputArchive) :
    Except Error (BitVec 8 × BitVec 8 × InputArchive) :=
  if mask = 0 then do
    let (chunk,ar) ← loadByte ar
    .ok (chunk,0x80,ar)
  else .ok (chunk,mask,ar)

def loadBits : (n : Nat) → BitVec 8 → BitVec 8 → InputArchive →
    Except Error (Bitset n × InputArchive)
  | 0, _, _, ar => .ok (.nil,ar)
  | n + 1, chunk, mask, ar => do
    let (chunk,mask,ar) ← nextChunk chunk mask ar
    let (bits,ar) ← loadBits n chunk (mask >>> 1) ar
    .ok (.cons (chunk &&& mask ≠ 0) bits,ar)

def loadBitset (n : Nat) (ar : InputArchive) : Except BitsetError (Bitset n × InputArchive) := do
  let (t,ar) ← (loadByte ar).mapError .archive
  match BitsetType.ofCode t with
  | some .ulong | some .ullong =>
    let (b,ar) ← (loadInteger .eight ar).mapError .archive
    .ok (.ofWord n b,ar)
  | some .string =>
    let (b,ar) ← (loadString .char ar).mapError .archive
    match Bitset.ofText n b.elements with
    | some bits => .ok (bits,ar)
    | none => .error .invalidArgument
  | some .bits => (loadBits n 0 0 ar).mapError .archive
  | none => .error (.exception "Invalid bitset data representation")

def maskAt (k : Nat) : BitVec 8 := 0x80#8 >>> k

def Clear (k : Nat) (chunk : BitVec 8) : Prop := ∀ i, k ≤ i → chunk.getMsbD i = false

def marked (b : Bool) (k : Nat) (chunk : BitVec 8) : BitVec 8 :=
  if b then chunk ||| maskAt k else chunk

def packed : List Bool → Nat → BitVec 8 → List (BitVec 8)
  | [], k, chunk => if k = 0 then [] else [chunk]
  | b :: bs, k, chunk =>
    if k = 7 then marked b k chunk :: packed bs 0 0 else packed bs (k + 1) (marked b k chunk)

def chunkBytes (chunks : List (BitVec 8)) : List UInt8 := chunks.map UInt8.ofBitVec

section

variable {k : Nat} {chunk : BitVec 8} {b : Bool}

theorem maskAt_next (k : Nat) : maskAt k >>> 1 = maskAt (k + 1) := by
  rw [maskAt,maskAt,BitVec.shiftRight_add]

theorem maskAt_getMsbD (hk : k < 8) (i : Nat) : (maskAt k).getMsbD i = decide (i = k) := by
  rcases Nat.lt_or_ge i 8 with hi | hi
  · decide +revert
  · rw [BitVec.getMsbD_of_ge _ _ hi,decide_eq_false (by omega)]

theorem marked_getMsbD (hk : k < 8) (i : Nat) :
    (marked b k chunk).getMsbD i = (chunk.getMsbD i || b && decide (i = k)) := by
  cases b with
  | false => simp [marked]
  | true => simp [marked,BitVec.getMsbD_or,maskAt_getMsbD hk]

theorem marked_clear (hk : k < 8) (hclear : Clear k chunk) : Clear (k + 1) (marked b k chunk) := by
  intro i hi
  rw [marked_getMsbD hk,hclear i (by omega),decide_eq_false (by omega),Bool.and_false]
  rfl

theorem masked_bit (hk : k < 8) : decide (chunk &&& maskAt k ≠ 0) = chunk.getMsbD k := by
  interval_cases k <;> revert chunk <;> decide

end

section

variable {k : Nat} {chunk : BitVec 8} (host order : Endianness) (bits : List Bool)

theorem memory_byte_eq (v : BitVec 8) : memory order Width.one.bytes v = [UInt8.ofBitVec v] := by
  have hbyte : UInt8.ofNat v.toNat = UInt8.ofBitVec v :=
    congrArg UInt8.ofBitVec ((BitVec.ofNat_toNat 8 v).trans (BitVec.setWidth_eq v))
  cases order with
  | big | little => exact congrArg (fun b => [b]) hbyte

theorem saveByte_stream (v : BitVec 8) (stream : List UInt8) :
    saveByte v (writing host order stream) =
      .ok (writing host order (stream ++ [UInt8.ofBitVec v])) := by
  rw [← memory_byte_eq order v]
  exact saveInteger_stream host order stream .one v

theorem loadByte_stream (v : BitVec 8) (rest : List UInt8) :
    loadByte (reading host order (UInt8.ofBitVec v :: rest)) =
      .ok (v,reading host order rest) := by
  have h := loadInteger_stream host order rest .one v
  rw [memory_byte_eq order v] at h
  exact h

theorem packed_length (hk : k < 8) : (packed bits k chunk).length = (k + bits.length + 7) / 8 := by
  induction bits generalizing k chunk with
  | nil =>
    unfold packed
    split <;> simp <;> omega
  | cons b bs ih =>
    unfold packed
    split
    · rw [length_cons,length_cons,ih (by decide)]
      omega
    · rw [ih (by omega),length_cons]
      omega

theorem saveBits_packed (hk : k < 8) (stream : List UInt8) :
    saveBits bits chunk (maskAt k) (writing host order stream) =
      .ok (writing host order (stream ++ chunkBytes (packed bits k chunk))) := by
  induction bits generalizing k chunk stream with
  | nil =>
    have hfull : maskAt k = 0x80 ↔ k = 0 := by
      interval_cases k <;> decide
    simp only [saveBits,packed,ne_eq,hfull]
    by_cases hzero : k = 0
    · simp [hzero,chunkBytes]
    · simp [hzero,chunkBytes,saveByte_stream]
  | cons b bs ih =>
    have hlast : maskAt (k + 1) = 0 ↔ k = 7 := by
      interval_cases k <;> decide
    simp only [saveBits,packed,maskAt_next,hlast]
    split
    · rw [saveByte_stream,bind_ok]
      refine (ih (k := 0) (by decide) _).trans ?_
      simp [chunkBytes,marked]
    · exact ih (by omega) stream

def Restores (bits : List Bool) (rest : List UInt8) (chunk mask : BitVec 8)
    (more : List (BitVec 8)) : Prop :=
  loadBits bits.length chunk mask (reading host order (chunkBytes more ++ rest)) =
    .ok (⟨bits,rfl⟩,reading host order rest)

variable {host order bits} {b : Bool} {rest : List UInt8} {whole old mask : BitVec 8}
  {more more' : List (BitVec 8)}

theorem restores_cons (hk : k < 8) (hclear : Clear k chunk)
    (hsame : ∀ i < k + 1, whole.getMsbD i = (marked b k chunk).getMsbD i)
    (hnext : nextChunk old mask (reading host order (chunkBytes more' ++ rest)) =
      .ok (whole,maskAt k,reading host order (chunkBytes more ++ rest)))
    (hrest : Restores host order bits rest whole (maskAt (k + 1)) more) :
    Restores host order (b :: bits) rest old mask more' := by
  have hbit : decide (whole &&& maskAt k ≠ 0) = b := by
    rw [masked_bit hk,hsame k k.lt_succ_self,marked_getMsbD hk,hclear k le_rfl]
    simp
  have hload := hrest
  rw [Restores,← maskAt_next] at hload
  change loadBits (bits.length + 1) old mask _ = _
  unfold loadBits
  rw [hnext,bind_ok]
  dsimp only
  rw [hload,bind_ok,hbit]
  rfl

theorem packed_restores (rest : List UInt8) :
    (∀ chunk, Restores host order bits rest chunk 0 (packed bits 0 0)) ∧
    ∀ k chunk, 0 < k → k < 8 → Clear k chunk → ∃ whole more, packed bits k chunk = whole :: more ∧
      (∀ i < k, whole.getMsbD i = chunk.getMsbD i) ∧
      Restores host order bits rest whole (maskAt k) more := by
  induction bits with
  | nil =>
    refine ⟨fun _ => rfl,fun k chunk hpos _ _ => ⟨chunk,[],?_,fun _ _ => rfl,rfl⟩⟩
    rw [packed,if_neg (by omega)]
  | cons b bs ih =>
    obtain ⟨hstart,hwithin⟩ := ih
    constructor
    · intro chunk
      have hclear : Clear 0 0 := fun i _ => by simp
      obtain ⟨whole,more,hpacked,hsame,hload⟩ :=
        hwithin 1 (marked b 0 0) (by decide) (by decide) (marked_clear (by decide) hclear)
      rw [packed,if_neg (by decide),hpacked]
      refine restores_cons (by decide) hclear hsame ?_ hload
      rw [nextChunk,if_pos rfl,chunkBytes,map_cons,cons_append,loadByte_stream]
      rfl
    intro k chunk hpos hk hclear
    have hmask : maskAt k ≠ 0 := by
      interval_cases k <;> decide
    have hkeep : ∀ i < k, (marked b k chunk).getMsbD i = chunk.getMsbD i := by
      intro i hi
      rw [marked_getMsbD hk,decide_eq_false (by omega),Bool.and_false,Bool.or_false]
    rw [packed]
    split
    · rename_i hlast
      subst hlast
      exact ⟨_,_,rfl,hkeep,
        restores_cons hk hclear (fun _ _ => rfl) (if_neg hmask) (hstart _)⟩
    · obtain ⟨whole,more,hpacked,hsame,hload⟩ :=
        hwithin (k + 1) (marked b k chunk) (by omega) (by omega) (marked_clear hk hclear)
      exact ⟨whole,more,hpacked,fun i hi => (hsame i (by omega)).trans (hkeep i hi),
        restores_cons hk hclear hsame (if_neg hmask) hload⟩

end

theorem bitset_restored (writer order : Endianness) (n : Nat) (bits : Bitset n) :
    ∃ chunks : List UInt8, chunks.length = (n + 7) / 8 ∧
      (∀ stream, saveBitset bits (writing writer order stream) =
        .ok (writing writer order (stream ++ 3 :: chunks))) ∧
      ∀ reader rest, loadBitset n (reading reader order (3 :: chunks ++ rest)) =
        .ok (bits,reading reader order rest) := by
  obtain ⟨bits,rfl⟩ := bits
  refine ⟨chunkBytes (packed bits 0 0),?_,?_,?_⟩
  · rw [chunkBytes,length_map,packed_length bits (by decide),Nat.zero_add]
  · intro stream
    have hbits := @saveBits_packed 0 0 writer order bits (by decide)
      (stream ++ [3])
    rw [append_assoc] at hbits
    unfold saveBitset
    rw [saveByte_stream,bind_ok]
    exact hbits
  · intro reader rest
    have hload : Restores reader order bits rest 0 0 (packed bits 0 0) :=
      (packed_restores rest).1 0
    have htype : loadByte (reading reader order (3 :: chunkBytes (packed bits 0 0) ++ rest)) =
        .ok (BitsetType.bits.code,reading reader order (chunkBytes (packed bits 0 0) ++ rest)) :=
      loadByte_stream reader order _ _
    rw [loadBitset,htype]
    show Except.mapError _ _ = _
    rw [hload]
    rfl

end FuzzingTargets.Cereal.PortableBinary
