import FuzzingTargets.UBoot.Gpt.Table

namespace FuzzingTargets.UBoot.Gpt
open LittleEndian Checked Memory List

variable {dev : Device} {lba : Nat} {block : List UInt8} {stray : Nat → UInt8}

def Contained {α : Type} (m : Except Fault α) : Prop := Avoids (fun _ => True) m

def word (buf : List UInt8) (offset n : Nat) : Nat := ofLe ((buf.drop offset).take n)

def tableBytes (head : List UInt8) : Nat := word head 80 4 * word head 84 4 % 2 ^ 32

def Sized (head : List UInt8) : Prop :=
  word head 0 8 = gptHeaderSignature → word head 12 4 ≤ head.length

def HeaderFits (dev : Device) (stray : Nat → UInt8) (lba : Nat) : Prop :=
  ∀ block, blkDread dev lba 1 = some block → Sized (headerBuffer dev stray block)

def EntryUsed (pte : List UInt8) (k : Nat) : Prop :=
  (((pte.drop (k * sizeofGptEntry)).take 16).any fun b => b ≠ 0) = true

def EntryFits (pte : List UInt8) (size k : Nat) : Prop :=
  k * sizeofGptEntry + 16 ≤ size ∧ (EntryUsed pte k → (k + 1) * sizeofGptEntry ≤ size)

def EntriesFit (dev : Device) (t : Loaded) : Prop :=
  ∀ k < word t.head 80 4, EntryFits t.pte (padSize (tableBytes t.head) dev.blksz) k

def TableFits (crc : List UInt8 → UInt32) (stray : Nat → UInt8) (dev : Device) : Prop :=
  HeaderFits dev stray primaryLba ∧
  (isGptValid crc stray dev primaryLba = .ok none → HeaderFits dev stray (lastBlock dev)) ∧
  ∀ t, findTable crc stray dev = .ok (some t) → EntriesFit dev t

theorem Contained.ok {α : Type} (a : α) : Contained (.ok a : Except Fault α) := avoids_ok _ a

theorem contained_error {α : Type} (e : Fault) : ¬Contained (.error e : Except Fault α) := by
  intro h
  exact h e rfl trivial

theorem contained_loadSlice {fault : Nat → Fault} {buf : List UInt8} {i n : Nat} :
    Contained (loadSlice fault buf i n) ↔ i + n ≤ buf.length := by
  constructor
  · intro h
    by_contra hn
    rw [loadSlice,if_neg hn] at h
    exact contained_error _ h
  · intro h
    rw [loadSlice_ok h]
    exact .ok _

section

variable {s pad : Nat}

theorem padSize_ge (hpad : 0 < pad) : s ≤ padSize s pad := by
  have h := Nat.lt_mul_div_succ (s - 1) hpad
  rw [padSize,padCount,Nat.mul_comm]
  omega

end

theorem blkDread_length {start cnt : Nat} {bytes : List UInt8}
    (h : blkDread dev start cnt = some bytes) : bytes.length = cnt * dev.blksz := by
  unfold blkDread at h
  split at h
  · cases h
    exact Buffer.bytes_length _ _ _
  · cases h

section

variable (h : blkDread dev lba 1 = some block)
include h

theorem blkDread_zero : ∃ mbr, blkDread dev 0 1 = some mbr := by
  unfold blkDread at h
  split at h
  · exact ⟨_,if_pos (by omega)⟩
  · cases h

theorem headerBuffer_length :
    (headerBuffer dev stray block).length = padSize sizeofGptHeader dev.blksz := by
  have hblock := blkDread_length h
  have hge : dev.blksz ≤ padSize sizeofGptHeader dev.blksz :=
    Nat.le_mul_of_pos_left _ (Nat.succ_pos _)
  rw [headerBuffer,length_append,length_map,length_range]
  omega

theorem headerBuffer_holds : sizeofGptHeader ≤ (headerBuffer dev stray block).length := by
  rw [headerBuffer_length h]
  exact padSize_ge dev.blksz_pos

end

section

variable {head : List UInt8} (crc : List UInt8 → UInt32)

theorem field_word {o n : Nat} (h : o + n ≤ head.length) : field head o n = .ok (word head o n) := by
  rw [field,loadSlice_ok h,bind_ok,word]

theorem cleared_size {out : List UInt8} (h : storeSlice Fault.header head 16 [0,0,0,0] = .ok out) :
    word out 12 4 = word head 12 4 := by
  obtain ⟨hle,rfl⟩ := storeSlice_eq_ok h
  have htake : (head.take 16).length = 16 := by
    rw [length_take]
    omega
  have hdrop : ((head.take 16).drop 12).length = 4 := by
    rw [length_drop,htake]
  unfold word
  rw [append_assoc,drop_append_of_le_length (by omega),
    take_append_of_le_length (by omega),drop_take,take_take,Nat.min_self]

theorem headerCrc_reads (h : 20 ≤ head.length) :
    ∃ cleared : List UInt8, cleared.length = head.length ∧
      headerCrc crc head = (loadSlice Fault.header cleared 0 (word head 12 4) >>= fun bytes =>
        .ok ((crc bytes).toNat,word head 16 4)) := by
  obtain ⟨cleared,hstore⟩ : ∃ c, storeSlice Fault.header head 16 [0,0,0,0] = .ok c :=
    ⟨_,storeSlice_ok (by simp only [length_cons,length_nil]; omega)⟩
  have hlen := storeSlice_length hstore
  have hsize := cleared_size hstore
  refine ⟨cleared,hlen,?_⟩
  rw [headerCrc,field_word (by omega),bind_ok,hstore,bind_ok,field_word (by omega),bind_ok,
    hsize]

theorem headerCrc_overread (hwide : head.length < word head 12 4) (h : 20 ≤ head.length) :
    headerCrc crc head = .error (.header head.length) := by
  obtain ⟨cleared,hlen,hreads⟩ := headerCrc_reads crc h
  rw [hreads,loadSlice,if_neg (by omega),bind_error,hlen,Nat.zero_max]

theorem contained_headerCrc (h : 20 ≤ head.length) :
    Contained (headerCrc crc head) ↔ word head 12 4 ≤ head.length := by
  rcases Nat.lt_or_ge head.length (word head 12 4) with hwide | hfit
  · rw [headerCrc_overread crc hwide h]
    exact ⟨fun hin => absurd hin (contained_error _),fun hle => absurd hle (by omega)⟩
  · obtain ⟨cleared,hlen,hreads⟩ := headerCrc_reads crc h
    rw [hreads,loadSlice_ok (by omega),bind_ok]
    exact ⟨fun _ => hfit,fun _ => .ok _⟩

theorem validateGptHeader_overread {lastlba : Nat} (hsig : word head 0 8 = gptHeaderSignature)
    (hwide : head.length < word head 12 4) (h : 20 ≤ head.length) :
    validateGptHeader crc head lba lastlba = .error (.header head.length) := by
  rw [validateGptHeader,field_word (by omega),bind_ok,if_neg (not_not.mpr hsig),
    headerCrc_overread crc hwide h,bind_error]

section

variable (h : sizeofGptHeader ≤ head.length)
include h

theorem contained_usableWithin (lastlba : Nat) : Contained (usableWithin head lastlba) := by
  unfold sizeofGptHeader at h
  rw [usableWithin,field_word (by omega),bind_ok]
  split
  · exact .ok _
  · rw [field_word (by omega),bind_ok]
    exact .ok _

theorem contained_validateGptHeader (lba lastlba : Nat) :
    Contained (validateGptHeader crc head lba lastlba) ↔ Sized head := by
  have husable := contained_usableWithin h lastlba
  unfold sizeofGptHeader at h
  have hcrc := contained_headerCrc crc (by omega : 20 ≤ head.length)
  rw [validateGptHeader,field_word (by omega),bind_ok,Sized]
  split
  · rename_i hsig
    exact ⟨fun _ hs => absurd hs hsig,fun _ => .ok _⟩
  rename_i hsig
  rw [Contained,avoids_bind]
  constructor
  · rintro ⟨hin,-⟩ -
    exact hcrc.mp hin
  intro hfit
  refine ⟨hcrc.mpr (hfit (not_not.mp hsig)),?_⟩
  rintro sums -
  split
  · exact avoids_ok _ _
  rw [field_word (by omega),bind_ok]
  split
  · exact avoids_ok _ _
  · exact husable

theorem entriesCount_eq : entriesCount head = .ok (tableBytes head) := by
  unfold sizeofGptHeader at h
  rw [entriesCount,field_word (by omega),bind_ok,field_word (by omega),bind_ok,tableBytes]

theorem allocReadGptEntries_eq (dev : Device) : ∃ pte, allocReadGptEntries dev head = .ok pte ∧
      ∀ bytes, pte = some bytes → bytes.length = padSize (tableBytes head) dev.blksz := by
  rw [allocReadGptEntries,entriesCount_eq h,bind_ok]
  unfold sizeofGptHeader at h
  split
  · exact ⟨none,rfl,nofun⟩
  · rw [field_word (by omega),bind_ok]
    exact ⟨_,rfl,fun bytes hb => blkDread_length hb⟩

theorem validateGptEntries_returns {pte : List UInt8} (hpte : tableBytes head ≤ pte.length) :
    ∃ good, validateGptEntries crc head pte = .ok good := by
  rw [validateGptEntries,entriesCount_eq h,bind_ok,loadSlice_ok (by omega),bind_ok]
  unfold sizeofGptHeader at h
  rw [field_word (by omega),bind_ok]
  exact ⟨_,rfl⟩

theorem checkEntries_returns {pte : Option (List UInt8)}
    (hpte : ∀ bytes, pte = some bytes → tableBytes head ≤ bytes.length) :
    ∃ r, checkEntries crc head pte = .ok r ∧
      ∀ t, r = some t → t.head = head ∧ pte = some t.pte := by
  cases pte with
  | none => exact ⟨none,rfl,nofun⟩
  | some bytes =>
    obtain ⟨good,hgood⟩ := validateGptEntries_returns crc h (hpte bytes rfl)
    rw [checkEntries,hgood,bind_ok]
    refine ⟨_,rfl,?_⟩
    intro t ht
    cases good with
    | false => cases ht
    | true => cases ht; exact ⟨rfl,rfl⟩

theorem loadTable_returns (dev : Device) :
    ∃ r, (allocReadGptEntries dev head >>= checkEntries crc head) = .ok r ∧
      ∀ t, r = some t → t.head = head ∧ t.pte.length = padSize (tableBytes head) dev.blksz := by
  obtain ⟨pte,hpte,hlen⟩ := allocReadGptEntries_eq h dev
  have hroom : ∀ bytes, pte = some bytes → tableBytes head ≤ bytes.length := by
    intro bytes hb
    rw [hlen bytes hb]
    exact padSize_ge dev.blksz_pos
  obtain ⟨r,hr,ht⟩ := checkEntries_returns crc h hroom
  rw [hpte,bind_ok]
  refine ⟨r,hr,?_⟩
  intro t hrt
  obtain ⟨hhead,hsome⟩ := ht t hrt
  exact ⟨hhead,hlen _ hsome⟩

theorem contained_readTable (dev : Device) (lba : Nat) :
    Contained (readTable crc dev lba head) ↔ Sized head := by
  obtain ⟨r,hr,-⟩ := loadTable_returns crc h dev
  rw [readTable,Contained,avoids_bind]
  constructor
  · rintro ⟨hin,-⟩
    exact (contained_validateGptHeader crc h lba dev.lba).mp hin
  intro hfit
  refine ⟨(contained_validateGptHeader crc h lba dev.lba).mpr hfit,?_⟩
  rintro good -
  split
  · rw [hr]
    exact avoids_ok _ _
  · exact avoids_ok _ _

theorem readTable_loaded {t : Loaded}
    (ht : readTable crc dev lba head = .ok (some t)) :
    t.head = head ∧ t.pte.length = padSize (tableBytes head) dev.blksz := by
  obtain ⟨r,hr,hshape⟩ := loadTable_returns crc h dev
  obtain ⟨good,-,hrest⟩ := bind_eq_ok ht
  split at hrest
  · rw [hr] at hrest
    cases hrest
    exact hshape t rfl
  · cases hrest

end

end

section

variable {crc : List UInt8 → UInt32} {stray : Nat → UInt8} {dev : Device} {lba : Nat} {t : Loaded}

theorem isGptValid_unread (h : blkDread dev lba 1 = none) :
    isGptValid crc stray dev lba = .ok none := by
  unfold isGptValid
  split
  · rfl
  · rw [h]

theorem isGptValid_read (h : blkDread dev lba 1 = some block) :
    isGptValid crc stray dev lba = readTable crc dev lba (headerBuffer dev stray block) := by
  obtain ⟨mbr,hmbr⟩ := blkDread_zero h
  rw [isGptValid,hmbr,h]

theorem contained_isGptValid :
    Contained (isGptValid crc stray dev lba) ↔ HeaderFits dev stray lba := by
  cases hblock : blkDread dev lba 1 with
  | none =>
    rw [isGptValid_unread hblock]
    refine ⟨fun _ block hb => ?_,fun _ => .ok _⟩
    rw [hblock] at hb
    cases hb
  | some block =>
    rw [isGptValid_read hblock,contained_readTable crc (headerBuffer_holds hblock)]
    constructor
    · intro hfit block' hb
      rw [hblock] at hb
      cases hb
      exact hfit
    · intro hfit
      exact hfit block hblock

def WellLoaded (dev : Device) (t : Loaded) : Prop :=
  sizeofGptHeader ≤ t.head.length ∧ t.pte.length = padSize (tableBytes t.head) dev.blksz

theorem isGptValid_loaded (h : isGptValid crc stray dev lba = .ok (some t)) : WellLoaded dev t := by
  cases hblock : blkDread dev lba 1 with
  | none =>
    rw [isGptValid_unread hblock] at h
    cases h
  | some block =>
    rw [isGptValid_read hblock] at h
    have hholds : sizeofGptHeader ≤ (headerBuffer dev stray block).length :=
      headerBuffer_holds hblock
    obtain ⟨hhead,hpte⟩ := readTable_loaded crc hholds h
    rw [WellLoaded,hhead]
    exact ⟨hholds,hpte⟩

theorem findTable_loaded (h : findTable crc stray dev = .ok (some t)) : WellLoaded dev t := by
  obtain ⟨primary,hprimary,hrest⟩ := bind_eq_ok h
  cases primary with
  | some t' =>
    cases hrest
    exact isGptValid_loaded hprimary
  | none => exact isGptValid_loaded hrest

theorem contained_findTable : Contained (findTable crc stray dev) ↔
      HeaderFits dev stray primaryLba ∧
      (isGptValid crc stray dev primaryLba = .ok none → HeaderFits dev stray (lastBlock dev)) := by
  rw [findTable,Contained,avoids_bind]
  refine and_congr contained_isGptValid ?_
  constructor
  · intro h hnone
    exact contained_isGptValid.mp (h none hnone)
  intro h primary hprimary
  cases primary with
  | some t => exact avoids_ok _ _
  | none => exact contained_isGptValid.mpr (h hprimary)

end

section

variable {pte : List UInt8} {k : Nat}

theorem isPteValid_eq (h : k * sizeofGptEntry + 16 ≤ pte.length) : isPteValid pte k =
      .ok (((pte.drop (k * sizeofGptEntry)).take 16).any fun b => b ≠ 0) := by
  rw [isPteValid,loadSlice_ok h,bind_ok]

theorem loadEntry_returns (h : (k + 1) * sizeofGptEntry ≤ pte.length) :
    ∃ e, loadEntry pte k = .ok e := by
  unfold sizeofGptEntry at h
  unfold loadEntry sizeofGptEntry
  rw [loadSlice_ok (by omega),bind_ok,loadSlice_ok (by omega),bind_ok,
    loadSlice_ok (by omega),bind_ok,loadSlice_ok (by omega),bind_ok,
    loadSlice_ok (by omega),bind_ok,loadSlice_ok (by omega),bind_ok]
  exact ⟨_,rfl⟩

theorem loadEntry_fits {e : Entry} (h : loadEntry pte k = .ok e) :
    (k + 1) * sizeofGptEntry ≤ pte.length := by
  obtain ⟨start,_,hlast⟩ := bind_eq_ok h
  obtain ⟨last,_,hrest⟩ := bind_eq_ok hlast
  obtain ⟨name,hname,_⟩ := bind_eq_ok hrest
  have hle := (loadSlice_eq_ok hname).1
  unfold sizeofGptEntry at *
  omega

theorem contained_isPteValid :
    Contained (isPteValid pte k) ↔ k * sizeofGptEntry + 16 ≤ pte.length := by
  rw [isPteValid,Contained,avoids_bind]
  constructor
  · rintro ⟨hin,-⟩
    exact contained_loadSlice.mp hin
  · intro h
    exact ⟨contained_loadSlice.mpr h,fun _ _ => avoids_ok _ _⟩

theorem contained_loadEntry :
    Contained (loadEntry pte k) ↔ (k + 1) * sizeofGptEntry ≤ pte.length := by
  constructor
  · intro h
    cases he : loadEntry pte k with
    | ok e => exact loadEntry_fits he
    | error f =>
      rw [he] at h
      exact absurd h (contained_error f)
  intro h
  obtain ⟨e,he⟩ := loadEntry_returns h
  rw [he]
  exact .ok e

theorem contained_entry {β : Type} {use : Entry → Except Fault β} {skip : β}
    (huse : ∀ e, Contained (use e)) :
    Contained (isPteValid pte k >>= fun valid =>
        if valid then loadEntry pte k >>= use else .ok skip) ↔
      EntryFits pte pte.length k := by
  rw [Contained,avoids_bind,EntryFits]
  refine and_congr_right_iff.mpr ?_ |>.trans (and_congr_left' contained_isPteValid)
  intro hvalid
  have heq := isPteValid_eq (contained_isPteValid.mp hvalid)
  constructor
  · intro h hused
    have hrest := h true (by rw [heq,hused])
    rw [if_pos rfl,avoids_bind] at hrest
    exact contained_loadEntry.mp hrest.1
  intro h valid hv
  rw [heq] at hv
  cases valid with
  | false => exact avoids_ok _ _
  | true =>
    rw [if_pos rfl,avoids_bind]
    exact ⟨contained_loadEntry.mpr (h (Except.ok.inj hv)),fun e _ => huse e⟩

end

section

variable {crc : List UInt8 → UInt32} {stray : Nat → UInt8} {dev : Device} {t : Loaded}

theorem contained_entryInfo (ht : WellLoaded dev t) (part : Nat) :
    Contained (entryInfo dev t part) ↔ (part ≤ word t.head 80 4 →
        EntryFits t.pte (padSize (tableBytes t.head) dev.blksz) (part - 1)) := by
  obtain ⟨hhead,hlen⟩ := ht
  unfold sizeofGptHeader at hhead
  rw [entryInfo,field_word (by omega),bind_ok,← hlen]
  split
  · rename_i hpart
    exact ⟨fun _ hle => absurd hle (by omega),fun _ => .ok _⟩
  · rename_i hpart
    refine (contained_entry fun e => .ok _).trans ?_
    exact ⟨fun h _ => h,fun h => h (by omega)⟩

theorem contained_printEntries {pte : List UInt8} (n : Nat) :
    ∀ i, (∀ k, i ≤ k → k < i + n → EntryFits pte pte.length k) →
      Contained (printEntries pte n i) := by
  induction n with
  | zero =>
    intro i _
    exact .ok _
  | succ n ih =>
    intro i h
    have hrest := ih (i + 1) fun k hle hlt => h k (by omega) (by omega)
    refine (contained_entry fun e => ?_).mpr (h i (by omega) (by omega))
    rw [Contained,avoids_bind]
    exact ⟨hrest,fun _ _ => avoids_ok _ _⟩

theorem contained_printTable (ht : WellLoaded dev t) (hfit : EntriesFit dev t) :
    Contained (printTable (some t)) := by
  obtain ⟨hhead,hlen⟩ := ht
  unfold sizeofGptHeader at hhead
  rw [printTable,field_word (by omega),bind_ok]
  apply contained_printEntries
  intro k _ hk
  rw [hlen]
  exact hfit k (by omega)

theorem contained_partGetInfoEfi :
    (∀ part, Contained (partGetInfoEfi crc stray dev part)) ↔ TableFits crc stray dev := by
  constructor
  · intro h
    have hfirst := h 1
    rw [partGetInfoEfi,if_neg (by decide),Contained,avoids_bind] at hfirst
    obtain ⟨hprimary,hbackup⟩ := contained_findTable.mp hfirst.1
    refine ⟨hprimary,hbackup,?_⟩
    intro t ht k hk
    have hpart := h (k + 1 : Nat)
    rw [partGetInfoEfi,if_neg (by omega),Int.toNat_natCast,ht,bind_ok] at hpart
    exact (contained_entryInfo (findTable_loaded ht) (k + 1)).mp hpart hk
  rintro ⟨hprimary,hbackup,hentries⟩ part
  unfold partGetInfoEfi
  split
  · exact .ok _
  rename_i hpart
  rw [Contained,avoids_bind]
  refine ⟨contained_findTable.mpr ⟨hprimary,hbackup⟩,?_⟩
  intro found hfound
  cases found with
  | none => exact avoids_ok _ _
  | some t =>
    refine (contained_entryInfo (findTable_loaded hfound) part.toNat).mpr ?_
    intro hle
    exact hentries t hfound _ (by omega)

theorem contained_partPrintEfi (h : TableFits crc stray dev) :
    Contained (partPrintEfi crc stray dev) := by
  obtain ⟨hprimary,hbackup,hentries⟩ := h
  rw [partPrintEfi,Contained,avoids_bind]
  refine ⟨contained_findTable.mpr ⟨hprimary,hbackup⟩,?_⟩
  intro found hfound
  cases found with
  | none => exact avoids_ok _ _
  | some t => exact contained_printTable (findTable_loaded hfound) (hentries t hfound)

end

theorem gpt_reads_contained (crc : List UInt8 → UInt32) (stray : Nat → UInt8) (dev : Device) :
    (∀ lba, Contained (isGptValid crc stray dev lba) ↔ HeaderFits dev stray lba) ∧
    ((∀ part, Contained (partGetInfoEfi crc stray dev part)) ∧
        Contained (partPrintEfi crc stray dev) ↔
      TableFits crc stray dev) := by
  refine ⟨fun lba => contained_isGptValid,?_⟩
  rw [contained_partGetInfoEfi]
  exact ⟨fun h => h.1,fun h => ⟨h,contained_partPrintEfi h⟩⟩

def wideHeaderBlock : List UInt8 :=
  le 8 gptHeaderSignature ++ le 4 0x10000 ++ le 4 4096

def wideHeaderDisk : Device where
  blksz := 512
  lba := 70
  data := Buffer.put (fun _ => 0) 512 wideHeaderBlock
  blksz_pos := sector_pos
  lba_lt := by decide

def wideHeader : List UInt8 := wideHeaderDisk.data.bytes 512 512

theorem wideHeaderDisk_header (crc : List UInt8 → UInt32) (stray : Nat → UInt8) :
    isGptValid crc stray wideHeaderDisk primaryLba = .error (.header 512) := by
  have hread : blkDread wideHeaderDisk primaryLba 1 = some wideHeader := rfl
  have hhead : headerBuffer wideHeaderDisk stray wideHeader = wideHeader := append_nil _
  have hlen : wideHeader.length = 512 := Buffer.bytes_length _ _ _
  obtain ⟨hsig,hwide⟩ : word wideHeader 0 8 = gptHeaderSignature ∧
      wideHeader.length < word wideHeader 12 4 := by decide +kernel
  rw [isGptValid_read hread,hhead,readTable,validateGptHeader_overread crc hsig hwide (by omega),
    bind_error,hlen]

def Overread (dev : Device) (offset : Nat) : Prop :=
  ∀ (crc : List UInt8 → UInt32) (stray : Nat → UInt8),
    isGptValid crc stray dev primaryLba = .error (.header offset) ∧
    partGetInfoEfi crc stray dev 1 = .error (.header offset) ∧
    partPrintEfi crc stray dev = .error (.header offset)

theorem wideHeaderDisk_overread : Overread wideHeaderDisk 512 := by
  intro crc stray
  have h := wideHeaderDisk_header crc stray
  have hfind : findTable crc stray wideHeaderDisk = .error (.header 512) := by
    rw [findTable,h,bind_error]
  refine ⟨h,?_,?_⟩
  · rw [partGetInfoEfi,if_neg (by decide),hfind,bind_error]
  · rw [partPrintEfi,hfind,bind_error]

end FuzzingTargets.UBoot.Gpt
