import FuzzingTargets.Libbw64.Opening

namespace FuzzingTargets.Bw64
open LittleEndian Checked Slices List

def ExtraData.bytes (e : ExtraData) (stringObject : List UInt8) : List UInt8 :=
  le 2 e.validBitsPerSample ++ (le 4 e.dwChannelMask ++ (le 2 e.subFormat ++ stringObject))

def FormatInfoChunk.bytes (c : FormatInfoChunk) (stringObject : List UInt8) : List UInt8 :=
  c.info.bytes ++ match c.extraData with
    | some e => e.bytes stringObject
    | none => []

namespace ChunkValue

def size : ChunkValue → Nat
  | .format _ => 16
  | .chna ids => 4 + numUids ids * 40
  | .ds64 sizes => 28 + sizes.table.length * 12
  | .axml data => data.length
  | .unknown _ data => data.length

def write (stringObject : List UInt8) : ChunkValue → List UInt8
  | .format c => c.bytes stringObject
  | .chna ids => chnaBytes ids
  | .ds64 sizes => sizes.bytes
  | .axml data => data
  | .unknown _ data => data

def parse (size : Nat) : ChunkValue → Parse ChunkValue
  | .format _ => .format <$> parseFormatInfoChunk size
  | .chna _ => .chna <$> parseChnaChunk size
  | .ds64 _ => .ds64 <$> parseDataSize64Chunk size
  | .axml _ => .axml <$> readBuffer size
  | .unknown id _ => .unknown id <$> readBuffer size

def SameGetters : ChunkValue → ChunkValue → Prop
  | .ds64 d, .ds64 d' => d.bw64Size = d'.bw64Size ∧ d.dataSize = d'.dataSize ∧
      d.dummySize = d'.dummySize ∧ d.table.length = d'.table.length ∧
      ∀ id, d.table.lookup id = d'.table.lookup id
  | c, c' => c = c'

end ChunkValue

structure DataSize64.Valid (d : DataSize64) : Prop where
  bw64Size : d.bw64Size < 2 ^ 64
  dataSize : d.dataSize < 2 ^ 64
  dummySize : d.dummySize < 2 ^ 64
  ordered : (d.table.map Prod.fst).Pairwise (· < ·)
  sizes : ∀ e ∈ d.table, e.2 < 2 ^ 64

def ChunkValue.Valid : ChunkValue → Prop
  | .chna ids => ids.length ≤ 65535
  | .ds64 sizes => sizes.Valid
  | _ => True

def ChunkValue.RoundTrips (stringObject : List UInt8) (c : ChunkValue) : Prop :=
  (c.write stringObject).length = c.size ∧
    ∀ s : IStream, s.Good → At s.file s.pos (c.write stringObject) →
      ∃ c' s', c.parse c.size s = .ok (c',s') ∧ c.SameGetters c'

def ChunkValue.Plain : ChunkValue → Prop
  | .format c => c.extraData = none
  | .ds64 sizes => sizes.dummySize = 0 ∧ sizes.table.length < 2 ^ 32
  | _ => True

section

variable {α β : Type} [DecidableEq α]

theorem lookup_eq_some_of_nodup {l : List (α × β)} (h : (l.map Prod.fst).Nodup) {k : α} {v : β} :
    l.lookup k = some v ↔ (k,v) ∈ l := by
  induction l with
  | nil => simp
  | cons e l ih =>
    obtain ⟨k',v'⟩ := e
    obtain ⟨hk,hl⟩ := nodup_cons.mp h
    rw [lookup_cons]
    by_cases heq : k = k'
    · subst heq
      have hnot : (k,v) ∉ l := fun hmem => hk (mem_map.mpr ⟨_,hmem,rfl⟩)
      simp [hnot,eq_comm]
    · have hne : (k == k') = false := by simpa using heq
      rw [hne]
      simp [heq,ih hl]

theorem lookup_reverse {l : List (α × β)} (h : (l.map Prod.fst).Nodup) (k : α) :
    l.reverse.lookup k = l.lookup k := by
  have hrev : (l.reverse.map Prod.fst).Nodup := by
    rw [map_reverse]
    exact nodup_reverse.mpr h
  refine Option.ext fun v => ?_
  rw [lookup_eq_some_of_nodup hrev,lookup_eq_some_of_nodup h,mem_reverse]

end

def entryBytes (e : UInt32 × Nat) : List UInt8 := le 4 e.1.toNat ++ le 8 e.2

theorem setTable_absent {table : List (UInt32 × Nat)} {id : UInt32} {size : Nat}
    (h : id ∉ table.map Prod.fst) : setTable table id size = (id,size) :: table := by
  unfold setTable
  rw [filter_eq_self.mpr]
  intro e he
  simpa using fun heq => h (mem_map.mpr ⟨e,he,heq⟩)

theorem reads_parseTable {es acc : List (UInt32 × Nat)}
    (hkeys : ((es.reverse ++ acc).map Prod.fst).Nodup) (hsizes : ∀ e ∈ es, e.2 < 2 ^ 64) :
    Reads (parseTable es.length acc) (es.map entryBytes).flatten (es.reverse ++ acc) := by
  induction es generalizing acc with
  | nil => exact .result acc
  | cons e es ih =>
    have hassoc : (e :: es).reverse ++ acc = es.reverse ++ (e :: acc) := by simp
    rw [hassoc] at hkeys ⊢
    have habsent : e.1 ∉ acc.map Prod.fst := by
      rw [map_append,nodup_append] at hkeys
      exact (nodup_cons.mp hkeys.2.1).1
    have hrest := ih hkeys fun x hx => hsizes x (.tail _ hx)
    have hset : setTable acc (UInt32.ofNat e.1.toNat) e.2 = e :: acc := by
      rw [UInt32.ofNat_toNat,setTable_absent habsent]
    rw [← hset] at hrest ⊢
    rw [map_cons,flatten_cons,entryBytes,append_assoc]
    refine .bind (.value e.1.toNat_lt) ?_
    exact .bind (.value (hsizes e mem_cons_self)) hrest

theorem ordered_nodup {d : DataSize64} (h : d.Valid) : (d.table.map Prod.fst).Nodup :=
  h.ordered.imp fun hlt heq => absurd (heq ▸ hlt) (UInt32.lt_irrefl _)

def DataSize64.reread (d : DataSize64) : DataSize64 :=
  ⟨d.bw64Size,d.dataSize,0,(d.table.take (d.table.length % 2 ^ 32)).reverse⟩

def DataSize64.tableBytes (d : DataSize64) : List UInt8 :=
  ((d.table.take (d.table.length % 2 ^ 32)).map entryBytes).flatten

def ds64Fields (size : Nat) : Parse (Nat × DataSize64) := do
  require (28 ≤ size) .ds64Size
  let bw64Size ← readValue 8
  let dataSize ← readValue 8
  let _dummySize ← readValue 8
  let tableLength ← readValue 4
  let table ← parseTable tableLength []
  pure (tableLength,⟨bw64Size,dataSize,0,table⟩)

theorem parseDataSize64Chunk_fields (size : Nat) :
    parseDataSize64Chunk size = (do
      let fields ← ds64Fields size
      seekgCur ((size : Int) - 28 - (12 * fields.1 % 2 ^ 32 : Nat))
      pure fields.2) := by
  unfold parseDataSize64Chunk ds64Fields
  simp only [bind_assoc,pure_bind]

section

variable {d : DataSize64}

theorem ds64_bytes_split (d : DataSize64) : d.bytes =
    (le 8 d.bw64Size ++ (le 8 d.dataSize ++ (le 8 d.dummySize ++
      (le 4 (d.table.length % 2 ^ 32) ++ d.tableBytes)))) ++
      ((d.table.drop (d.table.length % 2 ^ 32)).map entryBytes).flatten := by
  have hfield : le 4 d.table.length = le 4 (d.table.length % 2 ^ 32) := by
    rw [le_eq_iff (le_length _ _),ofLe_le,show (256 : Nat) ^ 4 = 2 ^ 32 by norm_num,Nat.mod_mod]
  have hentries : (d.table.map fun e => le 4 e.1.toNat ++ le 8 e.2).flatten =
      d.tableBytes ++ ((d.table.drop (d.table.length % 2 ^ 32)).map entryBytes).flatten := by
    unfold DataSize64.tableBytes
    rw [← flatten_append,← map_append,take_append_drop]
    rfl
  unfold DataSize64.bytes
  rw [hentries,hfield]
  simp only [append_assoc]

theorem reads_ds64Fields (hd : d.Valid) {size : Nat} (hsize : 28 ≤ size) :
    Reads (ds64Fields size) (le 8 d.bw64Size ++ (le 8 d.dataSize ++ (le 8 d.dummySize ++
      (le 4 (d.table.length % 2 ^ 32) ++ d.tableBytes)))) (d.table.length % 2 ^ 32,d.reread) := by
  have htaken : (d.table.take (d.table.length % 2 ^ 32)).length = d.table.length % 2 ^ 32 := by
    rw [length_take,Nat.min_eq_left (Nat.mod_le _ _)]
  have hkeys : (((d.table.take (d.table.length % 2 ^ 32)).reverse ++ []).map Prod.fst).Nodup := by
    rw [append_nil,map_reverse,nodup_reverse,map_take]
    exact (ordered_nodup hd).sublist (take_sublist _ _)
  have htable := reads_parseTable hkeys fun e he => hd.sizes e (mem_of_mem_take he)
  rw [htaken,append_nil] at htable
  refine .silent (.check hsize _) ?_
  refine .bind (.value hd.bw64Size) ?_
  refine .bind (.value hd.dataSize) ?_
  refine .bind (.value hd.dummySize) ?_
  refine .bind (.value (Nat.mod_lt _ (by norm_num))) ?_
  exact .mapped htable fun table => (_,(⟨_,_,0,table⟩ : DataSize64))

theorem parseDataSize64Chunk_reread (hd : d.Valid) {size : Nat} (hsize : 28 ≤ size)
    {s : IStream} (hs : s.Good) (hat : At s.file s.pos d.bytes) :
    ∃ s', parseDataSize64Chunk size s = .ok (d.reread,s') := by
  rw [ds64_bytes_split] at hat
  have hrun := reads_ds64Fields hd hsize s hs (at_append.mp hat).1
  rw [parseDataSize64Chunk_fields,run_bind,hrun,bind_ok]
  exact ⟨_,rfl⟩

theorem reread_same_iff (hd : d.Valid) : (ChunkValue.ds64 d).SameGetters (.ds64 d.reread) ↔
      d.dummySize = 0 ∧ d.table.length < 2 ^ 32 := by
  constructor
  · rintro ⟨-,-,hdummy,hlength,-⟩
    refine ⟨hdummy,?_⟩
    change d.table.length = (d.table.take (d.table.length % 2 ^ 32)).reverse.length at hlength
    rw [length_reverse,length_take,Nat.min_eq_left (Nat.mod_le _ _)] at hlength
    rw [hlength]
    exact Nat.mod_lt _ (by norm_num)
  rintro ⟨hdummy,hlength⟩
  have hall : d.reread.table = d.table.reverse := by
    unfold DataSize64.reread
    rw [Nat.mod_eq_of_lt hlength,take_length]
  refine ⟨rfl,rfl,hdummy,?_,fun id => ?_⟩
  · rw [hall,length_reverse]
  · rw [hall,lookup_reverse (ordered_nodup hd)]

end

theorem run_map {α β : Type} (f : α → β) {p : Parse α} {s s' : IStream} {a : α}
    (h : p s = .ok (a,s')) : (f <$> p) s = .ok (f a,s') := by
  rw [map_eq_pure_bind,run_bind,h,bind_ok]
  rfl

theorem same_refl (c : ChunkValue) : c.SameGetters c := by
  cases c with
  | ds64 d => exact ⟨rfl,rfl,rfl,rfl,fun _ => rfl⟩
  | format c | chna ids | axml text | unknown id content => rfl

theorem roundTrips_of_reads {c : ChunkValue} {stringObject : List UInt8}
    (hsize : (c.write stringObject).length = c.size)
    (hread : ∀ s : IStream, s.Good → At s.file s.pos (c.write stringObject) →
      ∃ s', c.parse c.size s = .ok (c,s')) : c.RoundTrips stringObject := by
  refine ⟨hsize,fun s hs hat => ?_⟩
  obtain ⟨s',h⟩ := hread s hs hat
  exact ⟨c,s',h,same_refl c⟩

theorem format_roundTrips_iff (c : FormatInfoChunk) (stringObject : List UInt8) :
    (ChunkValue.format c).RoundTrips stringObject ↔ c.extraData = none := by
  obtain ⟨info,extraData⟩ := c
  have hinfo : info.bytes.length = 16 := format_writes info
  cases extraData with
  | some e =>
    refine ⟨fun h => ?_,nofun⟩
    have hsize : (info.bytes ++ e.bytes stringObject).length = 16 := h.1
    rw [length_append,ExtraData.bytes,length_append,le_length] at hsize
    omega
  | none =>
    have hwrite : (ChunkValue.format ⟨info,none⟩).write stringObject = info.bytes :=
      append_nil _
    refine ⟨fun _ => rfl,fun _ => roundTrips_of_reads ?_ fun s hs hat => ?_⟩
    · rw [hwrite,hinfo]
      rfl
    · rw [hwrite] at hat
      exact ⟨_,run_map _ (reads_formatInfo info s hs hat)⟩

theorem ds64_roundTrips_iff {d : DataSize64} (hd : d.Valid) (stringObject : List UInt8) :
    (ChunkValue.ds64 d).RoundTrips stringObject ↔ d.dummySize = 0 ∧ d.table.length < 2 ^ 32 := by
  have hreread : ∀ s : IStream, s.Good → At s.file s.pos d.bytes →
      ∃ s', (ChunkValue.ds64 d).parse (28 + d.table.length * 12) s = .ok (.ds64 d.reread,s') := by
    intro s hs hat
    obtain ⟨s',h⟩ := parseDataSize64Chunk_reread hd (Nat.le_add_right 28 _) hs hat
    exact ⟨s',run_map _ h⟩
  refine Iff.trans ⟨fun h => ?_,fun h => ⟨ds64_writes d,fun s hs hat => ?_⟩⟩ (reread_same_iff hd)
  · have hopen : At (IStream.openFile d.bytes fun _ _ => 0).file 0 d.bytes := at_full rfl
    obtain ⟨c',s',hparse,hsame⟩ := h.2 (.openFile d.bytes fun _ _ => 0) ⟨rfl,rfl⟩ hopen
    obtain ⟨s'',hagain⟩ := hreread _ ⟨rfl,rfl⟩ hopen
    rw [ChunkValue.size,hagain] at hparse
    cases hparse
    exact hsame
  · obtain ⟨s',hparse⟩ := hreread s hs hat
    exact ⟨_,s',hparse,h⟩

theorem roundTrips_iff_plain {c : ChunkValue} (hc : c.Valid) (stringObject : List UInt8) :
    c.RoundTrips stringObject ↔ c.Plain := by
  cases c with
  | format c => exact format_roundTrips_iff c stringObject
  | chna ids =>
    have hfew : ids.length < 65536 := Nat.lt_succ_of_le hc
    refine ⟨fun _ => trivial,fun _ => roundTrips_of_reads (chna_writes hfew) fun s hs hat => ?_⟩
    exact ⟨_,run_map _ (reads_chna hfew (Nat.le_add_right 4 _) s hs hat)⟩
  | ds64 d => exact ds64_roundTrips_iff hc stringObject
  | axml data | unknown id data =>
    refine ⟨fun _ => trivial,fun _ => roundTrips_of_reads rfl fun s hs hat => ?_⟩
    exact ⟨_,run_map _ (reads_readBuffer data s hs hat)⟩

def largeSizes (dummySize : Nat) : DataSize64 := ⟨2 ^ 33,2 ^ 33 - 100,dummySize,[(5,2 ^ 32),(7,12)]⟩

theorem largeSizes_valid {dummySize : Nat} (h : dummySize < 2 ^ 64) : (largeSizes dummySize).Valid where
  bw64Size := (by norm_num : 2 ^ 33 < 2 ^ 64)
  dataSize := (by norm_num : 2 ^ 33 - 100 < 2 ^ 64)
  dummySize := h
  ordered := (by decide : [(5 : UInt32),7].Pairwise (· < ·))
  sizes := (by decide : ∀ e ∈ [((5 : UInt32),2 ^ 32),(7,12)], e.2 < 2 ^ 64)

theorem largeSizes_roundTrip : (ChunkValue.ds64 (largeSizes 0)).RoundTrips [] := by
  have hvalid : (ChunkValue.ds64 (largeSizes 0)).Valid := largeSizes_valid (by norm_num)
  exact (roundTrips_iff_plain hvalid []).mpr ⟨rfl,(by norm_num : 2 < 2 ^ 32)⟩

def extensibleFormat : FormatInfoChunk := ⟨monoInfo,some ⟨16,3,1,replicate 14 0⟩⟩

theorem extensibleFormat_and_dummySize_lost :
    (ChunkValue.format extensibleFormat).size = 16 ∧
      ((ChunkValue.format extensibleFormat).write (List.replicate 32 0)).length = 56 ∧
      ¬(ChunkValue.format extensibleFormat).RoundTrips (List.replicate 32 0) ∧
      ¬(ChunkValue.ds64 (largeSizes 1)).RoundTrips [] := by
  refine ⟨rfl,by decide,fun h => ?_,fun h => ?_⟩
  · cases (format_roundTrips_iff _ _).mp h
  · exact absurd ((ds64_roundTrips_iff (largeSizes_valid (by norm_num)) []).mp h).1 (by decide)

end FuzzingTargets.Bw64
