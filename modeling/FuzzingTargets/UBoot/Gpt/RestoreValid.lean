import FuzzingTargets.UBoot.Gpt.Written
import Mathlib.Data.List.TakeWhile

namespace FuzzingTargets.UBoot.Gpt
open LittleEndian Checked Memory Slices List

def InSpan (s : Nat × Nat) (b : Nat) : Prop := s.1 ≤ b ∧ b < s.1 + s.2

def Entry.span (e : Entry) : Nat × Nat := (e.startingLba,spanSize e.startingLba e.endingLba)

def SoundSpans (first last : Nat) (spans : List (Nat × Nat)) : Prop :=
  spans.Pairwise (fun s u => ∀ b, ¬(InSpan s b ∧ InSpan u b)) ∧
  ∀ s ∈ spans, ∀ b, InSpan s b → first ≤ b ∧ b ≤ last

def SoundTable (t : Loaded) (n : Nat) : Prop :=
  ∃ es : List Entry, es.length = n ∧ (∀ i e, es[i]? = some e → loadEntry t.pte i = .ok e) ∧
    SoundSpans (word t.head 40 8) (word t.head 48 8) (es.map Entry.span)

structure Reported (p : Partition) (info : Info) : Prop where
  start : p.start ≠ 0 → info.start = p.start
  size : p.size ≠ 0 → info.size = p.size
  name : info.name = cString p.name

variable (crc : List UInt8 → UInt32) (stray : Nat → UInt8) (dev : Device)
  (partitions : List Partition)

structure Restored : Prop where
  primary : ∃ t, isGptValid crc stray dev primaryLba = .ok (some t) ∧
    SoundTable t partitions.length
  backup : ∃ t, isGptValid crc stray dev (lastBlock dev) = .ok (some t)
  infos : ∀ i p, partitions[i]? = some p →
    ∃ info, partGetInfoEfi crc stray dev (i + 1 : Nat) = .ok (some info) ∧ Reported p info
  verified : gptVerifyPartitions crc stray dev partitions = .ok true

def requested (last : Nat) : Nat → List Partition → List (Nat × Nat)
  | _, [] => []
  | offset, p :: rest =>
    (p.from offset,
      if rest.isEmpty ∧ p.size = 0 then last + 1 - p.from offset else p.size) ::
      requested last (p.from offset + p.size) rest

def UsedType (p : Partition) : Prop :=
  ∀ guid, partitionType p.typeGuid = some guid → (guid.any fun b => b ≠ 0) = true

def SoundRequest : Prop :=
  SoundSpans 34 (dev.lba - 34) (requested (dev.lba - 34) 34 partitions) ∧
  ∀ p ∈ partitions, (∀ c ∈ cString p.name, isPrint c = true) ∧ UsedType p

section

def shown (c : UInt8) : UInt8 := if c ≠ 0 ∧ ¬isPrint c then 46 else c

variable {c : UInt8} {name : List UInt8}

theorem shown_eq_zero : shown c = 0 ↔ c = 0 := by
  unfold shown
  split
  · rename_i h
    exact ⟨fun h46 => absurd h46 (by decide),fun h0 => absurd h0 h.1⟩
  · rfl

theorem shown_eq_self (hc : c ≠ 0) : shown c = c ↔ isPrint c = true := by
  unfold shown
  split
  · rename_i h
    exact ⟨fun h46 => h46 ▸ by decide,fun hp => absurd hp h.2⟩
  · rename_i h
    exact ⟨fun _ => not_not.mp fun hp => h ⟨hc,hp⟩,fun _ => rfl⟩

theorem cString_shown (s : List UInt8) : cString (s.map shown) = (cString s).map shown := by
  have hsame : (fun c => decide (c ≠ 0)) ∘ shown = fun c => decide (c ≠ 0) := by
    funext c
    exact decide_eq_decide.mpr (not_congr shown_eq_zero)
  rw [cString,takeWhile_map,hsame,cString]

theorem cString_ended (s rest : List UInt8) : cString (s ++ 0 :: rest) = cString s := by
  induction s with
  | nil => rfl
  | cons c s ih =>
    unfold cString at ih ⊢
    rw [cons_append,takeWhile_cons,takeWhile_cons,ih]

theorem mem_cString_ne (h : c ∈ cString name) : c ≠ 0 := by
  simpa using mem_takeWhile_imp h

theorem pairs_getElem (s : List UInt8) (i : Nat) : (s.flatMap fun c => [c,0])[2 * i]? = s[i]? := by
  induction s generalizing i with
  | nil => rfl
  | cons c s ih =>
    cases i with
    | zero => rfl
    | succ i =>
      rw [Nat.mul_add,flatMap_cons,getElem?_cons_succ,← ih i]
      rfl

theorem pairs_length (s : List UInt8) : (s.flatMap fun c => [c,0]).length = 2 * s.length := by
  simp [length_flatMap,Nat.mul_comm]

theorem printEfiname_pairs {full : List UInt8} (h : full.length = partnameSz) :
    printEfiname (full.flatMap fun c => [c,0]) = full.map shown := by
  refine ext_getElem (by simp [printEfiname,h]) fun i hi hi' => ?_
  rw [length_map] at hi'
  simp only [printEfiname,getElem_map,getElem_range,getD_eq_getElem?_getD,pairs_getElem,
    getElem?_eq_getElem hi',Option.getD_some]
  rfl

theorem gptConvertEfiNameToChar_pairs {pte : List UInt8} (name : List UInt8) :
    ∀ pos n, name.length < n → At pte pos ((name.flatMap fun c => [c,0]) ++ [0]) →
      gptConvertEfiNameToChar pte pos n = .ok (cString name) := by
  induction name with
  | nil =>
    intro pos n hn hat
    obtain _ | m := n
    · omega
    rw [gptConvertEfiNameToChar,load_some (at_cons.mp hat).1,bind_ok,if_pos rfl]
    rfl
  | cons c name ih =>
    intro pos n hn hat
    obtain _ | m := n
    · omega
    obtain ⟨hc,hrest⟩ := at_cons.mp hat
    have hnext := ih (pos + 2) m (Nat.lt_of_succ_lt_succ hn) (at_cons.mp hrest).2
    rw [gptConvertEfiNameToChar,load_some hc,bind_ok]
    split
    · rename_i h0
      rw [h0]
      rfl
    rename_i h0
    have hkeep : cString (c :: name) = c :: cString name :=
      takeWhile_cons_of_pos (by simpa using h0)
    rw [hnext,bind_ok,hkeep]

variable (h : name.length = partNameLen)
include h

theorem efiName_eq : efiName name = (name ++ replicate 4 0).flatMap fun c => [c,0] := by
  rw [efiName,padTo,take_of_length_le (by rw [h]; decide),pairs_length,h,flatMap_append]
  rfl

theorem cString_printEfiname :
    cString (printEfiname (efiName name)) = (cString name).map shown := by
  have hlen : (name ++ replicate 4 0).length = partnameSz := by
    rw [length_append,h,length_replicate]
    rfl
  rw [efiName_eq h,printEfiname_pairs hlen,cString_shown]
  exact congrArg (map shown) (cString_ended name (replicate 3 0))

theorem printed_name : cString (printEfiname (efiName name)) = cString name ↔
      ∀ c ∈ cString name, isPrint c = true := by
  rw [cString_printEfiname h]
  conv_lhs => rhs; rw [← map_id (cString name)]
  rw [map_inj_left]
  exact forall₂_congr fun c hc => shown_eq_self (mem_cString_ne hc)

theorem gptConvertEfiNameToChar_efiName {pte : List UInt8} {pos : Nat}
    (hload : loadSlice Fault.entries pte pos 72 = .ok (efiName name)) :
    gptConvertEfiNameToChar pte pos (partnameSz + 1) = .ok (cString name) := by
  have hat : At pte pos (efiName name) := by
    rw [(loadSlice_eq_ok hload).2]
    exact at_slice 72
  rw [efiName_eq h,flatMap_append] at hat
  have hzero : ((replicate 4 0).flatMap fun c : UInt8 => [c,0]) =
      [0] ++ replicate 7 (0 : UInt8) := rfl
  rw [hzero,← append_assoc] at hat
  exact gptConvertEfiNameToChar_pairs name pos _ (by rw [h]; decide) (at_append.mp hat).1

theorem namesAgree_cString : namesAgree (cString name) name = true := by
  have hle : (cString name).length ≤ partNameLen :=
    h ▸ (List.takeWhile_prefix _).length_le
  have hidem : cString (cString name) = cString name :=
    takeWhile_eq_self_iff.mpr fun c hc => decide_eq_true (mem_cString_ne hc)
  rw [namesAgree,take_of_length_le hle]
  exact decide_eq_true hidem

end

section

variable {dev : Device} {h : Header} {p : Partition} {e : Entry} {es : List Entry}
  {parts : List Partition} {isLast : Bool} {offset last : Nat}

theorem partitionType_length {s : List Char} {guid : List UInt8}
    (hs : partitionType s = some guid) : guid.length = 16 := by
  unfold partitionType at hs
  split at hs
  · cases hs
    rfl
  · exact uuidStrToBin_length hs

theorem Partition.from_lt (p : Partition) (hoff : offset < 2 ^ 64) : p.from offset < 2 ^ 64 := by
  unfold Partition.from
  split
  · exact hoff
  · exact p.start_lt

structure EntryOf (last offset : Nat) (p : Partition) (isLast : Bool) (e : Entry) : Prop where
  encodable : e.Encodable
  typeGuid : partitionType p.typeGuid = some e.typeGuid
  start : e.startingLba = p.from offset
  size : spanSize e.startingLba e.endingLba =
    if isLast ∧ p.size = 0 then last + 1 - p.from offset else p.size
  partitionName : e.partitionName = efiName p.name

theorem spanSize_next {start size : Nat} (hs : start < 2 ^ 64) (hz : size < 2 ^ 64) :
    spanSize start (((start + size) % 2 ^ 64 + (2 ^ 64 - 1)) % 2 ^ 64) = size := by
  unfold spanSize
  omega

theorem spanSize_endingLba (hf : Filled dev h) (hlba : 70 ≤ dev.lba) (hoff : offset < 2 ^ 64)
    (hroom : p.next offset ≤ h.lastUsableLba + 1) :
    spanSize (p.from offset) (endingLba h p isLast (p.next offset)) =
      if isLast ∧ p.size = 0 then h.lastUsableLba + 1 - p.from offset else p.size := by
  have hfrom := p.from_lt hoff
  have hlt := dev.lba_lt
  have hlast := hf.lastUsableLba
  unfold endingLba
  split
  · rename_i hgrow
    unfold Partition.next at hroom
    unfold spanSize
    omega
  · exact spanSize_next hfrom p.size_lt

theorem fillEntry_entryOf (hf : Filled dev h) (hlba : 70 ≤ dev.lba) (hoff : offset < 2 ^ 64)
    (he : fillEntry dev h offset p isLast = some e) :
    EntryOf h.lastUsableLba offset p isLast e := by
  have hlt := dev.lba_lt
  have hlast := hf.lastUsableLba
  unfold fillEntry at he
  split at he
  · cases he
  split at he
  · cases he
  rename_i hroom
  obtain ⟨typeGuid,htype,he⟩ := Option.bind_eq_some_iff.mp he
  obtain ⟨uniqueGuid,hunique,he⟩ := Option.bind_eq_some_iff.mp he
  cases he
  refine ⟨⟨partitionType_length htype,uuidStrToBin_length hunique,p.from_lt hoff,?_,?_,?_⟩,
    htype,rfl,spanSize_endingLba hf hlba hoff (by omega),rfl⟩
  · change endingLba h p isLast (p.next offset) < 256 ^ 8
    unfold endingLba
    split <;> omega
  · change (if p.bootable then 4 else 0) < 256 ^ 8
    split <;> decide
  · change (efiName p.name).length = 72
    rw [efiName_eq p.name_length,pairs_length,length_append,p.name_length]
    rfl

theorem EntryOf.span_given (he : EntryOf last offset p isLast e) (hs : p.start ≠ 0)
    (hz : p.size ≠ 0) : e.span = (p.start,p.size) := by
  rw [Entry.span,he.size,he.start,Partition.from,if_neg hs,if_neg fun hn => hz hn.2]

inductive Placed (last : Nat) : Nat → List Partition → List Entry → Prop
  | nil (offset : Nat) : Placed last offset [] []
  | cons {offset : Nat} {p : Partition} {parts : List Partition} {e : Entry} {es : List Entry}
      (head : EntryOf last offset p parts.isEmpty e) (tail : Placed last (p.next offset) parts es) :
      Placed last offset (p :: parts) (e :: es)

theorem fillFrom_placed (hf : Filled dev h) (hlba : 70 ≤ dev.lba) :
    ∀ offset es, offset < 2 ^ 64 → fillFrom dev h offset parts = some es →
      Placed h.lastUsableLba offset parts es := by
  induction parts with
  | nil =>
    intro offset es _ hfill
    cases hfill
    exact .nil offset
  | cons p parts ih =>
    intro offset es hoff hfill
    obtain ⟨e,he,hfill⟩ := Option.bind_eq_some_iff.mp hfill
    obtain ⟨rest,hrest,hfill⟩ := Option.bind_eq_some_iff.mp hfill
    cases hfill
    exact .cons (fillEntry_entryOf hf hlba hoff he)
      (ih _ rest (Nat.mod_lt _ (by decide)) hrest)

variable (hp : Placed last offset parts es)
include hp

theorem Placed.length : es.length = parts.length := by
  induction hp with
  | nil => rfl
  | cons head tail ih => rw [length_cons,length_cons,ih]

theorem Placed.encodable : ∀ e ∈ es, e.Encodable := by
  induction hp with
  | nil => exact nofun
  | cons head tail ih => exact forall_mem_cons.mpr ⟨head.encodable,ih⟩

theorem Placed.entry : ∀ (i : Nat) p, parts[i]? = some p →
      ∃ e offset' isLast, es[i]? = some e ∧ EntryOf last offset' p isLast e := by
  induction hp with
  | nil => exact nofun
  | cons head tail ih =>
    intro i p hi
    cases i with
    | zero =>
      cases hi
      exact ⟨_,_,_,rfl,head⟩
    | succ i => exact ih i p hi

theorem Placed.spans (hlast : last + 1 < 2 ^ 64) (hoff : offset < 2 ^ 64)
    (hin : (∀ s ∈ es.map Entry.span, ∀ b, InSpan s b → b ≤ last) ∨
      (∀ s ∈ requested last offset parts, ∀ b, InSpan s b → b ≤ last)) :
    es.map Entry.span = requested last offset parts := by
  induction hp with
  | nil => rfl
  | @cons offset p parts e es head tail ih =>
    have hspan : e.span = (p.from offset,
        if parts.isEmpty ∧ p.size = 0 then last + 1 - p.from offset else p.size) := by
      rw [Entry.span,head.size,head.start]
    have hfrom := p.from_lt hoff
    have hfit : ∀ b, InSpan e.span b → b ≤ last := by
      rcases hin with hin | hin
      · exact hin e.span mem_cons_self
      · exact hin e.span (by rw [hspan]; exact mem_cons_self)
    have hnext : p.next offset = p.from offset + p.size := by
      apply Nat.mod_eq_of_lt
      rcases Nat.eq_zero_or_pos p.size with hz | hz
      · omega
      · rw [if_neg (by omega)] at hspan
        have hend := hfit (p.from offset + p.size - 1) (by rw [hspan,InSpan]; omega)
        omega
    have htail := ih (Nat.mod_lt _ (by decide)) (hin.imp
      (fun hin s hs => hin s (.tail _ hs))
      (fun hin s hs => hin s (by rw [hnext] at hs; exact .tail _ hs)))
    rw [map_cons,requested,hspan,htail,hnext]

end

section

variable {crc : List UInt8 → UInt32} {stray : Nat → UInt8} {dev : Device} {t : Loaded}
  {p : Partition} {e : Entry} {es : List Entry} {parts : List Partition} {isLast : Bool}
  {offset last i : Nat}

theorem verifyEntry_entryOf (he : EntryOf last offset p isLast e) (hh : Holds t.pte i e) :
    verifyEntry t.pte i p isLast = .ok true := by
  have hname : loadSlice Fault.entries t.pte (i * sizeofGptEntry + 56) 72 =
      .ok (efiName p.name) := by
    rw [← he.partitionName]
    exact hh.partitionName
  have hsize := he.size
  rw [verifyEntry,gptConvertEfiNameToChar_efiName p.name_length hname,bind_ok,
    if_pos (namesAgree_cString p.name_length),hh.endingLba,bind_ok,hh.startingLba,bind_ok,
    ofLe_le_of_lt he.encodable.startingLba,ofLe_le_of_lt he.encodable.endingLba]
  split
  · rename_i hdiff
    have hgrow : isLast ∧ p.size = 0 := by
      by_contra hn
      rw [if_neg hn] at hsize
      exact hdiff hsize
    rw [hgrow.1,hgrow.2]
    rfl
  have hstart : p.start = 0 ∨ e.startingLba = p.start := by
    rw [he.start,Partition.from]
    split
    · exact .inl (by assumption)
    · exact .inr rfl
  rw [decide_eq_true hstart]

theorem Placed.verifies (hp : Placed last offset parts es) :
    ∀ i, (∀ k e, es[k]? = some e → Holds t.pte (i + k) e) → 92 ≤ t.head.length →
      i + parts.length ≤ word t.head 80 4 → verifyFrom t i parts = .ok true := by
  induction hp with
  | nil => exact fun _ _ _ _ => rfl
  | @cons offset p parts e es head tail ih =>
    intro i hholds hhead hnum
    rw [length_cons] at hnum
    have hfirst : Holds t.pte i e := hholds 0 e rfl
    have hnext := ih (i + 1) (fun k e hk => by
      rw [Nat.add_assoc,Nat.add_comm 1 k]
      exact hholds (k + 1) e hk) hhead (by omega)
    rw [verifyFrom,field_word (by omega),bind_ok,if_neg (by omega),
      verifyEntry_entryOf head hfirst,bind_ok,if_pos rfl,hnext]

theorem entryInfo_holds (hh : Holds t.pte i e) (he : e.Encodable) (hhead : 92 ≤ t.head.length)
    (hnum : i < word t.head 80 4) :
    entryInfo dev t (i + 1) =
      .ok (if e.typeGuid.any fun b => b ≠ 0 then some (infoOf dev e) else none) := by
  rw [entryInfo,field_word (by omega),bind_ok,if_neg (by omega),Nat.add_sub_cancel,isPteValid,
    hh.typeGuid,bind_ok,bind_ok]
  split
  · rw [hh.loads he,bind_ok]
  · rfl

theorem infoOf_reported (he : EntryOf last offset p isLast e) :
    Reported p (infoOf dev e) ↔ ∀ c ∈ cString p.name, isPrint c = true := by
  have hname : (infoOf dev e).name = cString (printEfiname (efiName p.name)) := by
    rw [← he.partitionName]
    rfl
  rw [← printed_name p.name_length]
  constructor
  · intro hr
    exact hname.symm.trans hr.name
  intro hprint
  refine ⟨?_,?_,hname.trans hprint⟩
  · intro hs
    exact he.start.trans (if_neg hs)
  · intro hs
    exact he.size.trans (if_neg fun hn => hs hn.2)

end

section

variable {crc : List UInt8 → UInt32} {stray : Nat → UInt8} {dev dev' : Device} {guid : List Char}
  {partitions : List Partition}

structure Outcome (crc : List UInt8 → UInt32) (stray : Nat → UInt8) (dev dev' : Device)
    (partitions : List Partition) (t : Loaded) (es : List Entry) : Prop where
  placed : Placed (dev.lba - 34) 34 partitions es
  header : 92 ≤ t.head.length
  first : word t.head 40 8 = 34
  last : word t.head 48 8 = dev.lba - 34
  num : word t.head 80 4 = gptEntryNumbers
  holds : ∀ i e, es[i]? = some e → Holds t.pte i e
  primary : isGptValid crc stray dev' primaryLba = .ok (some t)
  backup : ∃ t', isGptValid crc stray dev' (lastBlock dev') = .ok (some t') ∧
    t'.pte = t.pte ∧ 92 ≤ t'.head.length ∧ word t'.head 80 4 = gptEntryNumbers

theorem gptRestore_cases (hr : gptRestore crc dev guid partitions = .ok dev') :
    ∃ h es, gptFillHeader dev guid = some h ∧ gptFillPte dev h partitions = some es ∧
      writeGptTable crc dev h es = .ok dev' := by
  unfold gptRestore at hr
  split at hr
  · cases hr
  rename_i h hh
  split at hr
  · cases hr
  · rename_i es hes
    exact ⟨h,es,hh,hes,hr⟩

theorem headerBlock_reads {h : Header} (hblk : dev.blksz = 512) (hh : h.Encodable) :
    92 ≤ (headerBlock dev h).length ∧ Reads (headerBlock dev h) h := by
  have hlen : (headerBlock dev h).length = 1 * dev.blksz := headerBlock_length hblk hh.diskGuid
  refine ⟨by omega,?_⟩
  exact Header.bytes_reads hh

theorem Filled.shaped {h : Header} (hf : Filled dev h) (hs : SameShape dev dev') :
    Filled dev' h := by
  refine { hf with alternateLba := ?_, lastUsableLba := ?_ }
  · rw [hs.lba,hf.alternateLba]
  · rw [hs.lba,hf.lastUsableLba]

theorem gptFillPte_placed {h : Header} {es : List Entry} (hlba : 70 ≤ dev.lba) (hf : Filled dev h)
    (hpte : gptFillPte dev h partitions = some es) : Placed (dev.lba - 34) 34 partitions es := by
  have hp := fillFrom_placed hf hlba h.firstUsableLba es (by rw [hf.firstUsableLba]; decide) hpte
  rwa [hf.lastUsableLba,hf.firstUsableLba] at hp

section

variable (hblk : dev.blksz = 512) (hlba : 70 ≤ dev.lba) (hlen : partitions.length ≤ gptEntryNumbers)
include hblk hlba hlen

theorem gptRestore_outcome (stray : Nat → UInt8)
    (hr : gptRestore crc dev guid partitions = .ok dev') :
    SameShape dev dev' ∧ ∃ t es, Outcome crc stray dev dev' partitions t es := by
  obtain ⟨h,es,hfill,hpte,hwrite⟩ := gptRestore_cases hr
  have hf := gptFillHeader_filled hlba hfill
  have hplaced := gptFillPte_placed hlba hf hpte
  have hes := hplaced.encodable
  obtain ⟨dev'',hok,hshape,hw⟩ : ∃ dev'', writeGptTable crc dev h es = .ok dev'' ∧
      SameShape dev dev'' ∧ Written crc dev'' h (entriesBlocks dev es) :=
    writeGptTable_written hblk hlba hf hes (by rwa [hplaced.length])
  rw [hwrite] at hok
  cases hok
  have hholds : ∀ i e, es[i]? = some e → Holds (entriesBlocks dev es) i e :=
    fun i e hi => entriesBlocks_holds hes hi
  generalize entriesBlocks dev es = pte at hw hholds
  have hf' := hf.shaped hshape
  have hblk' : dev'.blksz = 512 := hshape.blksz.trans hblk
  have hlba' : 70 ≤ dev'.lba := by rw [hshape.lba]; exact hlba
  have hpenc : ((arrayed crc h pte).summed crc).Encodable :=
    Header.summed_encodable hf'.arrayed_encodable
  have hbenc : ((mirrored crc h pte).summed crc).Encodable :=
    Header.summed_encodable (hf'.mirrored_proper hlba').encodable
  obtain ⟨hprimary,hbackup⟩ := hw.accepted hf' hblk' hlba' stray
  obtain ⟨hplen,hpreads⟩ := headerBlock_reads hblk' hpenc
  obtain ⟨hblen,hbreads⟩ := headerBlock_reads hblk' hbenc
  refine ⟨hshape,⟨headerBlock dev' ((arrayed crc h pte).summed crc),pte⟩,es,?_⟩
  exact {
    placed := hplaced
    header := hplen
    first := hpreads.firstUsableLba.trans hf.firstUsableLba
    last := hpreads.lastUsableLba.trans hf.lastUsableLba
    num := hpreads.numPartitionEntries.trans hf.numPartitionEntries
    holds := hholds
    primary := hprimary
    backup := ⟨_,hbackup,rfl,hblen,
      hbreads.numPartitionEntries.trans hf.numPartitionEntries⟩ }

theorem gptRestore_returns
    (hfill : ((gptFillHeader dev guid).bind fun h => gptFillPte dev h partitions).isSome) :
    ∃ dev', gptRestore crc dev guid partitions = .ok dev' := by
  obtain ⟨es,hbind⟩ := Option.isSome_iff_exists.mp hfill
  obtain ⟨h,hh,hes⟩ := Option.bind_eq_some_iff.mp hbind
  have hf := gptFillHeader_filled hlba hh
  have hplaced := gptFillPte_placed hlba hf hes
  obtain ⟨dev',hwrite,-⟩ : ∃ dev', writeGptTable crc dev h es = .ok dev' ∧
      SameShape dev dev' ∧ Written crc dev' h (entriesBlocks dev es) :=
    writeGptTable_written hblk hlba hf hplaced.encodable (by rwa [hplaced.length])
  refine ⟨dev',?_⟩
  rw [gptRestore,hh]
  simp only [hes,hwrite]

end

variable {t : Loaded} {es : List Entry}

variable (ho : Outcome crc stray dev dev' partitions t es)
include ho

theorem Outcome.loads {i : Nat} {e : Entry} (hi : es[i]? = some e) : loadEntry t.pte i = .ok e :=
  (ho.holds i e hi).loads (ho.placed.encodable e (mem_of_getElem? hi))

theorem Outcome.loaded_unique {es' : List Entry} (hlen : es'.length = partitions.length)
    (hloads : ∀ i e, es'[i]? = some e → loadEntry t.pte i = .ok e) : es' = es := by
  refine ext_getElem (hlen.trans ho.placed.length.symm) fun i hi hi' => ?_
  have hes' := hloads i _ (getElem?_eq_getElem hi)
  have hes := ho.loads (getElem?_eq_getElem hi')
  exact Except.ok.inj (hes'.symm.trans hes)

theorem Outcome.soundTable (hlba : 70 ≤ dev.lba) : SoundTable t partitions.length ↔
      SoundSpans 34 (dev.lba - 34) (requested (dev.lba - 34) 34 partitions) := by
  have hlt := dev.lba_lt
  have hspans := ho.placed.spans (by omega) (by decide)
  constructor
  · rintro ⟨es',hlen,hloads,hsound⟩
    rw [ho.loaded_unique hlen hloads,ho.first,ho.last] at hsound
    rwa [hspans (.inl fun s hs b hb => (hsound.2 s hs b hb).2)] at hsound
  · intro hsound
    refine ⟨es,ho.placed.length,fun i e hi => ho.loads hi,?_⟩
    rwa [ho.first,ho.last,hspans (.inr fun s hs b hb => (hsound.2 s hs b hb).2)]

variable (hlen : partitions.length ≤ gptEntryNumbers)
include hlen

theorem Outcome.verified : gptVerifyPartitions crc stray dev' partitions = .ok true := by
  obtain ⟨t',hbackup,hpte,hhead,hnum⟩ := ho.backup
  have hverify : verifyFrom t' 0 partitions = .ok true := by
    apply ho.placed.verifies 0 _ hhead (by omega)
    intro k e hk
    rw [hpte,Nat.zero_add]
    exact ho.holds k e hk
  rw [gptVerifyPartitions,gptVerifyHeaders,ho.primary,bind_ok,Option.isNone_some,
    if_neg Bool.false_ne_true,hbackup,bind_ok,verifyLoaded,hverify]

theorem Outcome.info {i : Nat} {e : Entry}
    (hi : es[i]? = some e) :
    partGetInfoEfi crc stray dev' (i + 1 : Nat) =
      .ok (if e.typeGuid.any fun b => b ≠ 0 then some (infoOf dev' e) else none) := by
  have hlt : i < es.length := (List.getElem?_eq_some_iff.mp hi).1
  rw [ho.placed.length] at hlt
  have hfind : findTable crc stray dev' = .ok (some t) := by
    rw [findTable,ho.primary,bind_ok]
    rfl
  rw [partGetInfoEfi,if_neg (by omega),hfind,bind_ok,Int.toNat_natCast,tableInfo]
  exact entryInfo_holds (ho.holds i e hi) (ho.placed.encodable e (mem_of_getElem? hi))
    ho.header (by rw [ho.num]; omega)

theorem Outcome.reported {i : Nat} {p : Partition} (hi : partitions[i]? = some p) :
    (∃ info, partGetInfoEfi crc stray dev' (i + 1 : Nat) = .ok (some info) ∧ Reported p info) ↔
      (∀ c ∈ cString p.name, isPrint c = true) ∧ UsedType p := by
  obtain ⟨e,offset,isLast,he,hof⟩ := ho.placed.entry i p hi
  have hname : Reported p (infoOf dev' e) ↔ ∀ c ∈ cString p.name, isPrint c = true :=
    infoOf_reported hof
  rw [ho.info hlen he,← hname]
  constructor
  · rintro ⟨info,hinfo,hrep⟩
    split at hinfo
    · rename_i hused
      cases hinfo
      refine ⟨hrep,?_⟩
      intro guid hguid
      rw [hof.typeGuid] at hguid
      cases hguid
      exact hused
    · cases hinfo
  · rintro ⟨hrep,hused⟩
    exact ⟨_,by rw [if_pos (hused _ hof.typeGuid)],hrep⟩

theorem Outcome.restored (hlba : 70 ≤ dev.lba) :
    Restored crc stray dev' partitions ↔ SoundRequest dev partitions := by
  constructor
  · intro hres
    obtain ⟨t',ht',hsound⟩ := hres.primary
    rw [ho.primary] at ht'
    cases ht'
    refine ⟨(ho.soundTable hlba).mp hsound,?_⟩
    intro p hp
    obtain ⟨i,hi⟩ := mem_iff_getElem?.mp hp
    exact (ho.reported hlen hi).mp (hres.infos i p hi)
  rintro ⟨hspans,hparts⟩
  obtain ⟨t',hbackup,-⟩ := ho.backup
  refine ⟨⟨t,ho.primary,(ho.soundTable hlba).mpr hspans⟩,⟨t',hbackup⟩,?_,
    ho.verified hlen⟩
  intro i p hi
  exact (ho.reported hlen hi).mpr (hparts p (mem_of_getElem? hi))

end

theorem gptRestore_restores (dev dev' : Device)
    (strDiskGuid : List Char) (partitions : List Partition) (hblk : dev.blksz = 512)
    (hlba : 70 ≤ dev.lba) (hlen : partitions.length ≤ gptEntryNumbers)
    (hr : gptRestore crc dev strDiskGuid partitions = .ok dev') :
    Restored crc stray dev' partitions ↔ SoundRequest dev partitions := by
  obtain ⟨-,t,es,ho⟩ := gptRestore_outcome hblk hlba hlen stray hr
  exact ho.restored hlen hlba

def blankDisk : Device where
  blksz := 512
  lba := 200
  data := fun _ => 0
  blksz_pos := sector_pos
  lba_lt := by decide

def sampleGuid : List Char := "12345678-1234-1234-1234-123456789abc".toList

def samplePartition (start size : Nat) (hstart : start < 2 ^ 64) (hsize : size < 2 ^ 64) :
    Partition where
  start := start
  size := size
  name := padTo partNameLen [0x72,0x6f,0x6f,0x74]
  bootable := false
  uuid := sampleGuid
  typeGuid := []
  start_lt := hstart
  size_lt := hsize
  name_length := by decide

def adjacentPartitions : List Partition :=
  [samplePartition 100 10 (by decide) (by decide),samplePartition 0 0 (by decide) (by decide)]

def overlappingPartitions : List Partition :=
  [samplePartition 100 10 (by decide) (by decide),samplePartition 105 10 (by decide) (by decide)]

def noSum : List UInt8 → UInt32 := fun _ => 0

theorem adjacentPartitions_sound : SoundRequest blankDisk adjacentPartitions := by
  have hrequested : requested (blankDisk.lba - 34) 34 adjacentPartitions = [(100,10),(110,57)] :=
    rfl
  have hnames : ∀ p ∈ adjacentPartitions, ∀ c ∈ cString p.name, isPrint c = true := by
    decide +kernel
  have htypes : ∀ p ∈ adjacentPartitions, p.typeGuid = [] := by
    decide
  refine ⟨?_,fun p hp => ⟨hnames p hp,?_⟩⟩
  · rw [hrequested]
    constructor
    · simp only [pairwise_cons,mem_singleton,not_mem_nil,InSpan,
        List.Pairwise.nil,forall_eq,IsEmpty.forall_iff,implies_true,and_true]
      omega
    intro s hs b hb
    have hlast : blankDisk.lba - 34 = 166 := rfl
    simp only [mem_cons,not_mem_nil,or_false] at hs
    rcases hs with rfl | rfl <;> unfold InSpan at hb <;> omega
  intro guid hguid
  rw [htypes p hp] at hguid
  cases hguid
  decide

theorem adjacentPartitions_restored :
    ∃ dev', gptRestore noSum blankDisk sampleGuid adjacentPartitions = .ok dev' ∧
      Restored noSum (fun _ => 0) dev' adjacentPartitions := by
  obtain ⟨dev',hr⟩ : ∃ dev', gptRestore noSum blankDisk sampleGuid adjacentPartitions = .ok dev' :=
    gptRestore_returns rfl (by decide) (by decide) (by decide +kernel)
  refine ⟨dev',hr,?_⟩
  exact (gptRestore_restores noSum (fun _ => 0) blankDisk dev' sampleGuid adjacentPartitions rfl
    (by decide) (by decide) hr).mpr adjacentPartitions_sound

def SharesBlock (guid : List Char) (parts : List Partition) (lba : Nat) : Prop :=
  ∀ (crc : List UInt8 → UInt32) (stray : Nat → UInt8), ∃ dev' t e f,
    gptRestore crc dev guid parts = .ok dev' ∧
    isGptValid crc stray dev' primaryLba = .ok (some t) ∧
    loadEntry t.pte 0 = .ok e ∧ loadEntry t.pte 1 = .ok f ∧
    InSpan e.span lba ∧ InSpan f.span lba

theorem overlappingPartitions_accepted :
    SharesBlock blankDisk sampleGuid overlappingPartitions 105 := by
  intro crc stray
  obtain ⟨dev',hr⟩ : ∃ dev', gptRestore crc blankDisk sampleGuid overlappingPartitions =
      .ok dev' := gptRestore_returns rfl (by decide) (by decide) (by decide +kernel)
  obtain ⟨-,t,es,ho⟩ := gptRestore_outcome rfl (by decide) (by decide) stray hr
  obtain ⟨e,_,_,he,hof⟩ := ho.placed.entry 0 _ rfl
  obtain ⟨f,_,_,hf,hog⟩ := ho.placed.entry 1 _ rfl
  have hspan := hof.span_given (by decide) (by decide)
  have hspan' := hog.span_given (by decide) (by decide)
  refine ⟨dev',t,e,f,hr,ho.primary,ho.loads he,ho.loads hf,?_,?_⟩
  · rw [hspan]
    exact ⟨by decide,by decide⟩
  · rw [hspan']
    exact ⟨by decide,by decide⟩

end FuzzingTargets.UBoot.Gpt
