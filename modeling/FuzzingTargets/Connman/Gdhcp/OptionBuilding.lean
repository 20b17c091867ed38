import FuzzingTargets.Connman.Gdhcp.OptionSearch
import FuzzingTargets.Connman.Gdhcp.Receive

namespace FuzzingTargets.Gdhcp
open Checked TaggedOptions List

def dhcpOptionsBufsize : Nat := 308

inductive BuildFault where
  | read (i : Nat)
  | write (i : Nat)
  deriving DecidableEq

structure BinaryOption where
  code : UInt8
  value : List UInt8
  value_lt : value.length < 256

def BinaryOption.bytes (o : BinaryOption) : List UInt8 :=
  o.code :: UInt8.ofNat o.value.length :: o.value

def endOption (options : List UInt8) : Nat → Nat → Except BuildFault Nat
  | 0, i => .error (.read i)
  | fuel + 1, i => do
    let c ← load .read options i
    if c = 255 then .ok i
    else if c = 0 then endOption options fuel (i + 1)
    else do
      let l ← load .read options (i + 1)
      endOption options fuel (i + (l.toNat + 2 - 1) + 1)

variable (options : List UInt8)

def dhcpEndOption : Except BuildFault Nat :=
  endOption options (options.length + 1) 0

def dhcpAddBinaryOption (addopt : BinaryOption) : Except BuildFault (List UInt8) := do
  let last ← dhcpEndOption options
  let len := 2 + addopt.value.length
  if dhcpOptionsBufsize ≤ last + len + 1 then .ok options
  else do
    let options ← storeSlice .write options last addopt.bytes
    storeSlice .write options (last + len) [255]

def checkOption (code : UInt8) (dataLen : Nat) : Bool :=
  let type := (dhcpGetCodeType code).1
  type ≠ .unknown ∧ type.length = dataLen

def addOptionValue (addopt : BinaryOption) : Except BuildFault (List UInt8) :=
  if checkOption addopt.code addopt.value.length then dhcpAddBinaryOption options addopt
  else .ok options

def dhcpAddOptionUint8 (code data : UInt8) :
    Except BuildFault (List UInt8) := addOptionValue options ⟨code,[data],(by decide : 1 < 256)⟩

def dhcpAddOptionUint16 (code : UInt8) (data : UInt16) : Except BuildFault (List UInt8) :=
  addOptionValue options ⟨code,putBe16 data.toNat,(by decide : 2 < 256)⟩

def dhcpAddOptionUint32 (code : UInt8) (data : UInt32) : Except BuildFault (List UInt8) :=
  addOptionValue options ⟨code,putBe32 data.toNat,(by decide : 4 < 256)⟩

def storeCodes : List UInt8 → Nat → List Int → Except BuildFault (List UInt8)
  | options, _, [] => .ok options
  | options, i, code :: codes => do
    let options ← storeSlice .write options i [UInt8.ofInt code]
    storeCodes options (i + 1) codes

def addRequestOptions (requestList : List Int) : Except BuildFault (List UInt8) := do
  let last ← dhcpEndOption options
  let len := requestList.length
  let options ← storeCodes options (last + 2) requestList
  if len = 0 then .ok options
  else do
    let options ← storeSlice .write options last [0x37]
    let options ← storeSlice .write options (last + 1) [UInt8.ofNat len]
    storeSlice .write options (last + 2 + len) [255]

variable (type : UInt8)

def initHeader : List UInt8 :=
  [if type = 2 ∨ type = 5 ∨ type = 6 then 2 else 1,1,6] ++ replicate 233 0 ++ dhcpMagic

def initOptions : Except BuildFault (List UInt8) :=
  dhcpAddOptionUint8 (255 :: replicate 387 0) 0x35 type

inductive BuildCall where
  | binary (addopt : BinaryOption)
  | uint8 (code data : UInt8)
  | uint16 (code : UInt8) (data : UInt16)
  | uint32 (code : UInt8) (data : UInt32)
  | request (requestList : List Int)

def BuildCall.apply : BuildCall → Except BuildFault (List UInt8)
  | .binary addopt => dhcpAddBinaryOption options addopt
  | .uint8 code data => dhcpAddOptionUint8 options code data
  | .uint16 code data => dhcpAddOptionUint16 options code data
  | .uint32 code data => dhcpAddOptionUint32 options code data
  | .request requestList => addRequestOptions options requestList

def buildFrom : List UInt8 → List BuildCall → Except BuildFault (List UInt8)
  | options, [] => .ok options
  | options, call :: calls => do
    let options ← call.apply options
    buildFrom options calls

def build (type : UInt8) (calls : List BuildCall) : Except BuildFault (List UInt8) := do
  let options ← initOptions type
  buildFrom options calls

def EndsAt (last : Nat) : Prop :=
  ∃ (items : List FieldItem) (rest : List UInt8),
    options = encode items ++ 255 :: rest ∧ last = (encode items).length

section

variable {options : List UInt8} {items : List FieldItem}

theorem items_length_le (items : List FieldItem) : items.length ≤ (encode items).length := by
  induction items with
  | nil => exact Nat.le_refl 0
  | cons item items ih =>
    have hpos := item.bytes_pos
    rw [encode_cons,length_append,length_cons]
    omega

theorem load_middle {pre bs : List UInt8} {c : UInt8} :
    load BuildFault.read (pre ++ c :: bs) pre.length = .ok c :=
  load_some (by simp)

theorem endOption_item {pre bs : List UInt8} {item : FieldItem} {fuel : Nat} :
    endOption (pre ++ (item.bytes ++ bs)) (fuel + 1) pre.length =
      endOption (pre ++ (item.bytes ++ bs)) fuel (pre ++ item.bytes).length := by
  cases item with
  | padding =>
    rw [endOption,Item.bytes,singleton_append,load_middle,bind_ok,if_neg (by decide),
      if_pos rfl,length_append]
    rfl
  | option o =>
    have hsecond : load BuildFault.read (pre ++ (o.bytes ++ bs)) (pre.length + 1) =
        .ok (UInt8.ofNat o.value.length) := load_some (by simp [Tagged.bytes])
    have hnext : pre.length + (o.value.length + 2 - 1) + 1 = (pre ++ o.bytes).length := by
      rw [length_append,o.bytes_length]
      omega
    rw [endOption,Item.bytes,hsecond]
    conv_lhs => rw [o.bytes_append,load_middle,bind_ok]
    rw [if_neg o.code_ne_stop,if_neg o.code_ne_pad,bind_ok,o.size_toNat,hnext]
    rfl

theorem endOption_items {pre tail : List UInt8} {fuel : Nat} :
    endOption (pre ++ (encode items ++ tail)) (fuel + items.length) pre.length =
      endOption (pre ++ (encode items ++ tail)) fuel (pre ++ encode items).length := by
  induction items generalizing pre with
  | nil => rw [encode_nil,append_nil,length_nil,Nat.add_zero]
  | cons item items ih =>
    have hrest := @ih (pre ++ item.bytes)
    rw [append_assoc,append_assoc] at hrest
    rw [encode_cons,append_assoc,length_cons,← Nat.add_assoc,endOption_item,hrest]

theorem dhcpEndOption_items {tail : List UInt8} :
    dhcpEndOption (encode items ++ tail) = endOption (encode items ++ tail)
      (tail.length + 1 + ((encode items).length - items.length)) (encode items).length := by
  have hle := items_length_le items
  have hwalk := @endOption_items items [] tail
    (tail.length + 1 + ((encode items).length - items.length))
  rw [nil_append,nil_append,length_nil] at hwalk
  rw [dhcpEndOption,← hwalk,length_append]
  congr 1
  omega

theorem dhcpEndOption_closed {last : Nat} (h : EndsAt options last) :
    dhcpEndOption options = .ok last := by
  obtain ⟨items,rest,rfl,rfl⟩ := h
  rw [dhcpEndOption_items,Nat.add_right_comm,endOption,load_middle,bind_ok,if_pos rfl]

theorem dhcpEndOption_ok {last : Nat} (h : dhcpEndOption options = .ok last) :
    EndsAt options last := by
  obtain ⟨items,tail,rfl,hending⟩ := @items_split 0 255 options
  rw [dhcpEndOption_items,Nat.add_right_comm,endOption] at h
  cases hending with
  | closed rest =>
    rw [load_middle,bind_ok,if_pos rfl] at h
    cases h
    exact ⟨items,rest,rfl,rfl⟩
  | exhausted =>
    rw [load_fault (by simp)] at h
    cases h
  | truncated hcut =>
    obtain ⟨c,rest,rfl,hpad,hstop,hshort⟩ := hcut
    rw [load_middle,bind_ok,if_neg hstop,if_neg hpad] at h
    cases rest with
    | nil =>
      rw [load_fault (by simp)] at h
      cases h
    | cons l value =>
      have hlt := hshort l value rfl
      have hsecond : load BuildFault.read (encode items ++ c :: l :: value)
          ((encode items).length + 1) = .ok l := load_some (by simp)
      rw [hsecond,bind_ok,length_cons,Nat.add_right_comm,endOption,
        load_fault (by simp only [length_append,length_cons]; omega)] at h
      cases h

end

section

variable {items : List FieldItem} {rest : List UInt8}

theorem BinaryOption.bytes_length (o : BinaryOption) : o.bytes.length = 2 + o.value.length := by
  simp only [bytes,length_cons]
  omega

theorem rest_split {n : Nat} (h : n < (255 :: rest).length) (hn : 0 < n) :
    ∃ old x, 255 :: rest = old ++ ([x] ++ rest.drop n) ∧ old.length = n := by
  obtain _ | k := n
  · omega
  have hk : k < rest.length := by simpa using h
  refine ⟨255 :: rest.take k,rest[k],?_,?_⟩
  · rw [cons_append,singleton_append,← drop_eq_getElem_cons hk,take_append_drop]
  · rw [length_cons,length_take]
    omega

theorem storeSlice_end {pre bs old post : List UInt8} {x : UInt8} (hlen : old.length = bs.length) :
    storeSlice BuildFault.write (pre ++ (old ++ ([x] ++ post))) pre.length bs >>=
      (fun options => storeSlice BuildFault.write options (pre.length + bs.length) [255]) =
      .ok (pre ++ (bs ++ 255 :: post)) := by
  have hsecond := @storeSlice_middle _ _ BuildFault.write (pre.length + bs.length) [255] (pre ++ bs)
    [x] post (by rw [length_append]) rfl
  rw [append_assoc,append_assoc] at hsecond
  rw [storeSlice_middle rfl hlen,bind_ok,hsecond]
  rfl

theorem dhcpAddBinaryOption_full {options : List UInt8} {o : BinaryOption} {last : Nat}
    (h : EndsAt options last) (hfull : dhcpOptionsBufsize ≤ last + (2 + o.value.length) + 1) :
    dhcpAddBinaryOption options o = .ok options := by
  rw [dhcpAddBinaryOption,dhcpEndOption_closed h,bind_ok]
  exact if_pos hfull

theorem dhcpAddBinaryOption_fits {o : BinaryOption}
    (hlength : (encode items ++ 255 :: rest).length = 388)
    (hroom : (encode items).length + (2 + o.value.length) + 1 < dhcpOptionsBufsize) :
    dhcpAddBinaryOption (encode items ++ 255 :: rest) o =
      .ok (encode items ++ (o.bytes ++ 255 :: rest.drop (2 + o.value.length))) := by
  have hbytes := o.bytes_length
  unfold dhcpOptionsBufsize at hroom
  rw [length_append] at hlength
  obtain ⟨old,x,hsplit,hold⟩ :=
    @rest_split rest (2 + o.value.length) (by omega) (by omega)
  rw [dhcpAddBinaryOption,dhcpEndOption_closed ⟨items,rest,rfl,rfl⟩,bind_ok]
  rw [if_neg (by unfold dhcpOptionsBufsize; omega),hsplit,← hbytes]
  exact storeSlice_end (by omega)

theorem store_ok {options : List UInt8} {i : Nat} (h : i < options.length) (b : UInt8) :
    ∃ out, storeSlice BuildFault.write options i [b] = .ok out := ⟨_,storeSlice_ok h⟩

theorem storeCodes_length {codes : List Int} {options out : List UInt8} {i : Nat}
    (h : storeCodes options i codes = .ok out) : out.length = options.length := by
  induction codes generalizing options i with
  | nil =>
    cases h
    rfl
  | cons code codes ih =>
    obtain ⟨next,hstore,hrest⟩ := bind_eq_ok h
    rw [ih hrest,storeSlice_length hstore]

theorem storeCodes_ok {codes : List Int} {options : List UInt8} {i : Nat}
    (h : i + codes.length ≤ options.length) : ∃ out, storeCodes options i codes = .ok out := by
  induction codes generalizing options i with
  | nil => exact ⟨options,rfl⟩
  | cons code codes ih =>
    rw [length_cons] at h
    obtain ⟨next,hstore⟩ := store_ok (show i < options.length by omega) (UInt8.ofInt code)
    obtain ⟨out,hrest⟩ := @ih next (i + 1) (by rw [storeSlice_length hstore]; omega)
    refine ⟨out,?_⟩
    rw [storeCodes,hstore,bind_ok,hrest]

end

def binary (o : Tagged 0 255) : BinaryOption := ⟨o.code,o.value,o.value_lt⟩

def messageType : Tagged 0 255 :=
  ⟨0x35,[type],by decide,by decide,(by decide : 1 < 256)⟩

def Room (kept : List (Tagged 0 255)) (o : Tagged 0 255) : Prop :=
  (encode (kept.map Item.option)).length + (2 + o.value.length) + 1 < dhcpOptionsBufsize

instance (kept : List (Tagged 0 255)) (o : Tagged 0 255) : Decidable (Room kept o) :=
  inferInstanceAs (Decidable (_ < _))

def keep (kept : List (Tagged 0 255)) (o : Tagged 0 255) : List (Tagged 0 255) :=
  if Room kept o then kept ++ [o] else kept

def keptOptions (opts : List (Tagged 0 255)) : List (Tagged 0 255) :=
  opts.foldl keep [messageType type]

def packetMemory (options : List UInt8) : Nat → UInt8 :=
  valueBytes (initHeader type ++ options)

def ReadsBack (m : Nat → UInt8) (opts : List (Tagged 0 255)) (code : Int) : Prop :=
  match opts.find? fun o => (o.code.toNat : Int) = code with
  | none => Searches m code (enter .options 0) [] none
  | some o => ∃ offset, Searches m code (enter .options 0) [] (some ⟨offset,o.value.length⟩) ∧
      Stored m offset o.value

structure Holds (kept : List (Tagged 0 255)) : Prop where
  size : options.length = 388
  ended : ∃ rest, options = encode (kept.map Item.option) ++ 255 :: rest
  noOverload : ∀ o ∈ kept, o.code ≠ 0x34

section

variable {options : List UInt8} {kept : List (Tagged 0 255)} {o : Tagged 0 255}

theorem encode_snoc (kept : List (Tagged 0 255)) (o : Tagged 0 255) (tail : List UInt8) :
    encode (kept.map Item.option) ++ (o.bytes ++ tail) =
      encode ((kept ++ [o]).map Item.option) ++ tail := by
  rw [map_append,encode_append,append_assoc,map_singleton,encode_singleton]
  rfl

theorem initOptions_ok : initOptions type = .ok (encode [.option (messageType type)] ++
      255 :: (replicate 387 0).drop 3) := by
  have hlength : (replicate 387 (0 : UInt8)).length = 387 := length_replicate
  have hcheck : checkOption 0x35 1 = true := by decide
  unfold initOptions
  generalize replicate 387 (0 : UInt8) = zeros at hlength
  have hadd := @dhcpAddBinaryOption_fits [] zeros (binary (messageType type))
    (by rw [encode_nil,nil_append,length_cons,hlength])
    (by change 0 + 3 + 1 < 308; decide)
  exact (@if_pos _ _ hcheck _ _ (.ok (255 :: zeros))).trans hadd

theorem initOptions_holds (type : UInt8) :
    ∃ options, initOptions type = .ok options ∧ Holds options [messageType type] := by
  refine ⟨_,initOptions_ok type,?_,⟨_,rfl⟩,?_⟩
  · rw [length_append,length_cons,length_drop,length_replicate]
    rfl
  · have hcode : (messageType type).code = 0x35 := rfl
    exact forall_mem_singleton.mpr (by rw [hcode]; decide)

theorem overloadBits_none (m : Nat → UInt8) (ptr : Nat) (h : ∀ o ∈ kept, o.code ≠ 0x34) :
    overloadBits m ptr (kept.map Item.option) = 0 := by
  induction kept generalizing ptr with
  | nil => rfl
  | cons o kept ih =>
    obtain ⟨ho,hkept⟩ := forall_mem_cons.mp h
    rw [map_cons,overloadBits,if_neg ho,ih _ hkept,UInt8.or_zero]

theorem packetMemory_options (type : UInt8) : Stored (packetMemory type options) 240 options := by
  have hstored := (stored_append.mp (stored_valueBytes (initHeader type ++ options))).2
  rwa [initHeader,length_append,length_append,length_replicate,Nat.zero_add] at hstored

theorem unmatched_options {code : Int} (h : ∀ o ∈ kept, (o.code.toNat : Int) ≠ code) :
    Unmatched code (kept.map Item.option) := by
  intro item hitem
  obtain ⟨o,ho,rfl⟩ := mem_map.mp hitem
  exact h o ho

section

variable (h : Holds options kept)
include h

theorem dhcpAddBinaryOption_noRoom (hroom : ¬Room kept o) :
    dhcpAddBinaryOption options (binary o) = .ok options := by
  obtain ⟨rest,hrest⟩ := h.ended
  exact dhcpAddBinaryOption_full ⟨_,rest,hrest,rfl⟩ (Nat.not_lt.mp hroom)

theorem dhcpAddBinaryOption_keeps (ho : o.code ≠ 0x34) :
    ∃ out, dhcpAddBinaryOption options (binary o) = .ok out ∧ Holds out (keep kept o) := by
  by_cases hroom : Room kept o
  · obtain ⟨rest,rfl⟩ := h.ended
    have hadd := @dhcpAddBinaryOption_fits _ rest (binary o) h.size hroom
    have hsize := h.size
    rw [keep,if_pos hroom]
    unfold Room dhcpOptionsBufsize at hroom
    refine ⟨_,hadd,?_,⟨_,encode_snoc kept o _⟩,?_⟩
    · simp only [length_append,length_cons,length_drop,
        BinaryOption.bytes_length,binary] at hsize ⊢
      omega
    · exact forall_mem_append.mpr ⟨h.noOverload,forall_mem_singleton.mpr ho⟩
  · rw [keep,if_neg hroom]
    exact ⟨options,dhcpAddBinaryOption_noRoom h hroom,h⟩

theorem buildFrom_keeps {opts : List (Tagged 0 255)} (hopts : ∀ o ∈ opts, o.code ≠ 0x34) :
    ∃ out, buildFrom options (opts.map fun o => .binary (binary o)) = .ok out ∧
      Holds out (opts.foldl keep kept) := by
  induction opts generalizing options kept with
  | nil => exact ⟨options,rfl,h⟩
  | cons o opts ih =>
    obtain ⟨ho,hopts⟩ := forall_mem_cons.mp hopts
    obtain ⟨next,hadd,hnext⟩ := dhcpAddBinaryOption_keeps h ho
    obtain ⟨out,hrest,hout⟩ := ih hnext hopts
    refine ⟨out,?_,hout⟩
    rw [map_cons,buildFrom,BuildCall.apply,hadd,bind_ok,hrest]

theorem readsBack_of_holds (type : UInt8) (code : Int) :
    ReadsBack (packetMemory type options) kept code := by
  have hstored := @packetMemory_options options type
  have hfield : fieldAt (packetMemory type options) 240 388 = options := by
    have heq := hstored
    rwa [Stored,h.size] at heq
  obtain ⟨rest,hrest⟩ := h.ended
  unfold ReadsBack
  cases hfind : kept.find? fun o => (o.code.toNat : Int) = code with
  | none =>
    have hunmatched := unmatched_options (fun o ho => by
      simpa using find?_eq_none.mp hfind o ho)
    refine (Searches.closed (hfield.trans hrest) hunmatched).mpr ?_
    rw [overloadBits_none _ _ h.noOverload]
    exact ⟨rfl,rfl⟩
  | some o =>
    obtain ⟨hmatch,pre,post,rfl,hpre⟩ := find?_eq_some_iff_append.mp hfind
    have hunmatched : Unmatched code (pre.map Item.option) := unmatched_options (fun o ho => by
      simpa using hpre o ho)
    have hsplit : options = encode (pre.map Item.option ++ .option o :: post.map Item.option) ++
        255 :: rest := by
      rw [hrest,map_append,map_cons]
    have hvalue : Stored (packetMemory type options)
        (240 + (encode (pre.map Item.option)).length + 2) o.value := by
      have hat := hstored
      nth_rewrite 2 [hsplit] at hat
      rw [encode_append,encode_cons,append_assoc,append_assoc] at hat
      have hoption := (stored_append.mp (stored_append.mp hat).2).1
      exact (stored_cons.mp (stored_cons.mp hoption).2).2
    refine ⟨_,(Searches.matched (hfield.trans hsplit) hunmatched
      (by simpa using hmatch)).mpr ⟨rfl,rfl⟩,hvalue⟩

end

end

theorem options_read_back (type : UInt8) (opts : List (Tagged 0 255))
    (hopts : ∀ o ∈ opts, o.code ≠ 0x34) :
    ∃ options, build type (opts.map fun o => .binary (binary o)) = .ok options ∧
      (∀ code, ReadsBack (packetMemory type options) (keptOptions type opts) code) ∧
      ∀ o, ¬Room (keptOptions type opts) o → dhcpAddBinaryOption options (binary o) = .ok options := by
  obtain ⟨start,hinit,hstart⟩ := initOptions_holds type
  obtain ⟨options,hbuild,hholds⟩ := buildFrom_keeps hstart hopts
  refine ⟨options,?_,readsBack_of_holds hholds type,fun o => dhcpAddBinaryOption_noRoom hholds⟩
  rw [build,hinit,bind_ok,hbuild]

def hostname : Tagged 0 255 := ⟨12,[104,105],by decide,by decide,by decide⟩

theorem hostname_read_back :
    ∃ options, build 1 [.binary (binary hostname)] = .ok options ∧
      ReadsBack (packetMemory 1 options) [messageType 1,hostname] 12 := by
  obtain ⟨options,hbuild,hread,-⟩ := options_read_back 1 [hostname] (by decide)
  exact ⟨options,hbuild,hread 12⟩

end FuzzingTargets.Gdhcp
