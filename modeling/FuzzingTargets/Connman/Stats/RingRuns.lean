import Mathlib.Algebra.Group.Nat.Defs
import Mathlib.Tactic.Common
import FuzzingTargets.Foundation.Runs
import Mathlib.Data.List.Induction

namespace FuzzingTargets.Connman.Stats
open Runs List

structure StatsData where
  rxPackets : UInt32
  txPackets : UInt32
  rxBytes : UInt32
  txBytes : UInt32
  rxErrors : UInt32
  txErrors : UInt32
  rxDropped : UInt32
  txDropped : UInt32
  time : UInt32
  deriving DecidableEq

structure StatsRecord where
  ts : Int
  roaming : Bool
  data : StatsData
  deriving DecidableEq

def zeroData : StatsData := ⟨0,0,0,0,0,0,0,0,0⟩

def zeroRecord : StatsRecord := ⟨0,false,zeroData⟩

structure StatsFileHeader where
  magic : Nat
  begin_ : Nat
  end_ : Nat
  home : Nat
  roaming : Nat
  deriving DecidableEq

structure StatsFile where
  len : Nat
  maxLen : Nat
  header : StatsFileHeader
  records : Nat → StatsRecord
  first : Nat
  last : Nat
  home : Option Nat
  roaming : Option Nat

def magicNumber : Nat := 0xFA00B916

def uintMax : Nat := 2 ^ 32 - 1

def sizeofHeader : Nat := 20

def sizeofRecord : Nat := 48

def toUint (n : Nat) : Nat := n % 2 ^ 32

def markPointer (offset : Nat) : Option Nat := if offset = uintMax then none else some offset

variable (page : Nat) (file : StatsFile)

def getNext (cur : Nat) : Nat :=
  if file.last < cur + sizeofRecord then file.first else cur + sizeofRecord

def maxEntries (len : Nat) : Nat := toUint ((len - sizeofHeader) / sizeofRecord)

def statsFileUpdateCache : StatsFile :=
  { file with
    first := sizeofHeader
    last := sizeofHeader + maxEntries file.len * sizeofRecord - sizeofRecord
    home := markPointer file.header.home
    roaming := markPointer file.header.roaming }

def roundUp (page size : Nat) : Nat := (size + page - 1) / page * page

def statsFileRemap (size : Nat) : StatsFile :=
  statsFileUpdateCache { file with len := roundUp page size }

def headerValid : Bool :=
  let hdr := file.header
  hdr.magic = magicNumber ∧ sizeofHeader ≤ hdr.begin_ ∧ sizeofHeader ≤ hdr.end_ ∧
  sizeofHeader ≤ hdr.home ∧ sizeofHeader ≤ hdr.roaming ∧ hdr.begin_ ≤ file.len ∧
  hdr.end_ ≤ file.len

def freshHeader : StatsFileHeader := ⟨magicNumber,sizeofHeader,sizeofHeader,uintMax,uintMax⟩

def statsFileSetup (size : Nat) : StatsFile :=
  let mapped := statsFileRemap page file (max size page)
  if headerValid mapped then mapped
  else statsFileUpdateCache { mapped with header := freshHeader }

def blankFile (maxLen : Nat) : StatsFile where
  len := 0
  maxLen := maxLen
  header := ⟨0,0,0,0,0⟩
  records := fun _ => zeroRecord
  first := 0
  last := 0
  home := none
  roaming := none

variable (hdr : StatsFileHeader) (roaming : Bool)

def setMark (next : Nat) : StatsFileHeader :=
  if roaming then { hdr with roaming := toUint next } else { hdr with home := toUint next }

def writeRecord (rec : StatsRecord) : StatsFile :=
  let next := getNext file file.header.end_
  { file with
    records := fun offset => if offset = next then rec else file.records offset
    header := { setMark file.header rec.roaming next with end_ := toUint next } }

structure UpdateCall where
  record : StatsRecord
  remaps : Bool
  deriving DecidableEq

def needsGrowth : Bool :=
  file.len < file.maxLen ∧ file.last = file.header.end_

def statsUpdate (call : UpdateCall) : Option StatsFile :=
  if needsGrowth file then
    if call.remaps then some (writeRecord (statsFileRemap page file (file.len + page)) call.record)
    else none
  else some (writeRecord file call.record)

def statsGet (roaming : Bool) : Option StatsData :=
  (if roaming then file.roaming else file.home).map fun rec => (file.records rec).data

def readFrom (file : StatsFile) (stop : Nat) : Nat → Nat → List StatsRecord
  | 0, _ => []
  | fuel + 1, it =>
    if it = stop then [] else file.records it :: readFrom file stop fuel (getNext file it)

def ringRecords : List StatsRecord :=
  readFrom file (getNext file file.header.end_) (maxEntries file.len)
    (getNext file file.header.begin_)

structure World where
  file : StatsFile
  updates : List StatsRecord
  refreshed : Nat

def World.init (page maxLen : Nat) : World := ⟨statsFileSetup page (blankFile maxLen) 0,[],0⟩

def World.record (w : World) (rec : StatsRecord) (file : StatsFile) : World where
  file := file
  updates := w.updates ++ [rec]
  refreshed := if file.len = w.file.len then w.refreshed else w.updates.length

def World.update (w : World) (call : UpdateCall) : World :=
  match statsUpdate page w.file call with
  | none => w
  | some file => w.record call.record file

def Step (w : World) (call : UpdateCall) (w' : World) : Prop :=
  w' = w.update page call

def finalLen (page maxLen : Nat) : Nat := max page (roundUp page maxLen)

def entries (len : Nat) : Nat := (len - sizeofHeader) / sizeofRecord

def capacity (page maxLen : Nat) : Nat := entries (finalLen page maxLen)

def slot (i : Nat) : Nat := sizeofHeader + i * sizeofRecord

def lastIndex (updates : List StatsRecord) : Option Nat :=
  (updates.zipIdx.reverse.find? fun x => x.1.roaming = roaming).map Prod.snd

def markOf (cap : Nat) (roaming : Bool) (updates : List StatsRecord) : Option Nat :=
  (lastIndex roaming updates).map fun i => slot ((i + 1) % cap)

def StatsFileHeader.mark : Nat :=
  if roaming then hdr.roaming else hdr.home

def StatsFile.cached (roaming : Bool) : Option Nat :=
  if roaming then file.roaming else file.home

section

variable {cap i j : Nat}

theorem slot_inj : slot i = slot j ↔ i = j := by
  unfold slot sizeofRecord
  omega

theorem slots_differ (hij : i < j) (hj : j < i + cap) : (i + 1) % cap ≠ (j + 1) % cap := by
  intro heq
  have hdvd : cap ∣ j + 1 - (i + 1) :=
    Nat.dvd_of_mod_eq_zero (Nat.sub_mod_eq_zero_of_mod_eq heq.symm)
  have hle := Nat.le_of_dvd (by omega) hdvd
  omega

theorem succ_mod (hcap : 0 < cap) :
    (i + 1) % cap = if i % cap + 1 = cap then 0 else i % cap + 1 := by
  have hlt := Nat.mod_lt i hcap
  rw [Nat.add_mod_eq_add_mod_right 1 (Nat.mod_mod i cap).symm]
  split
  · rename_i h
    rw [h,Nat.mod_self]
  · exact Nat.mod_eq_of_lt (by omega)

end

section

variable {cap : Nat} {roaming : Bool} {updates : List StatsRecord} {rec : StatsRecord}

theorem lastIndex_snoc : lastIndex roaming (updates ++ [rec]) =
    if rec.roaming = roaming then some updates.length else lastIndex roaming updates := by
  unfold lastIndex
  rw [zipIdx_append,reverse_append]
  split
  · rename_i h
    simp [h]
  · rename_i h
    simp [h]

end

section

variable {page len maxLen : Nat}

theorem roundUp_bounds (hpage : 0 < page) (size : Nat) :
    page ∣ roundUp page size ∧ size ≤ roundUp page size ∧ roundUp page size < size + page := by
  have hdiv := Nat.div_add_mod (size + page - 1) page
  have hmod := Nat.mod_lt (size + page - 1) hpage
  rw [roundUp,Nat.mul_comm]
  exact ⟨Nat.dvd_mul_right _ _,by omega,by omega⟩

theorem multiple_step {a b : Nat} (ha : page ∣ a) (hb : page ∣ b) (hlt : a < b) : a + page ≤ b := by
  have hle := Nat.le_of_dvd (by omega) (Nat.dvd_sub hb ha)
  omega

theorem multiple_eq {a b : Nat} (ha : page ∣ a) (hb : page ∣ b) (hle : a ≤ b) (hlt : b < a + page) :
    a = b := by
  rcases Nat.lt_or_ge a b with h | h
  · have hstep := multiple_step ha hb h
    omega
  · omega

theorem roundUp_next (hpage : 0 < page) (hlen : page ∣ len) :
    roundUp page (len + page) = len + page := by
  obtain ⟨hdvd,hle,hlt⟩ := roundUp_bounds hpage (len + page)
  exact (multiple_eq (Nat.dvd_add hlen (Nat.dvd_refl page)) hdvd hle hlt).symm

theorem finalLen_grow (hpage : 0 < page) (hlen : page ∣ len) (hlt : len < maxLen) :
    len + page ≤ finalLen page maxLen := by
  obtain ⟨hdvd,hle,-⟩ := roundUp_bounds hpage maxLen
  exact Nat.le_trans (multiple_step hlen hdvd (by omega)) (Nat.le_max_right _ _)

theorem finalLen_reached (hpage : 0 < page) (hlen : page ∣ len) (hmin : page ≤ len)
    (hle : len ≤ finalLen page maxLen) (hge : maxLen ≤ len) : len = finalLen page maxLen := by
  obtain ⟨hdvd,-,hlt⟩ := roundUp_bounds hpage maxLen
  have hround : roundUp page maxLen ≤ len := by
    rcases Nat.lt_or_ge len (roundUp page maxLen) with h | h
    · have hstep := multiple_step hlen hdvd h
      omega
    · exact h
  exact Nat.le_antisymm hle (Nat.max_le.mpr ⟨hmin,hround⟩)

theorem entries_mono {a b : Nat} (h : a ≤ b) : entries a ≤ entries b :=
  Nat.div_le_div_right (Nat.sub_le_sub_right h _)

theorem entries_grow (hpage : 116 ≤ page) (hlen : page ≤ len) :
    2 ≤ entries len ∧ entries len < entries (len + page) := by
  unfold entries sizeofHeader sizeofRecord
  omega

theorem maxEntries_eq (h : len ≤ 2 ^ 32) : maxEntries len = entries len := by
  apply Nat.mod_eq_of_lt
  unfold sizeofHeader sizeofRecord
  omega

end

structure Kept (page maxLen : Nat) (w : World) : Prop where
  limit : w.file.maxLen = maxLen
  pages : page ∣ w.file.len
  least : page ≤ w.file.len
  most : w.file.len ≤ finalLen page maxLen
  first : w.file.first = slot 0
  last : w.file.last = slot (entries w.file.len - 1)
  begin_ : w.file.header.begin_ = slot 0
  end_ : w.file.header.end_ = slot (w.updates.length % capacity page maxLen)
  inside : w.updates.length % capacity page maxLen < entries w.file.len
  growing : w.file.len < maxLen → w.updates.length < entries w.file.len
  slots : ∀ i rec, w.updates[i]? = some rec → w.updates.length ≤ i + capacity page maxLen →
    w.file.records (slot ((i + 1) % capacity page maxLen)) = rec
  marks : ∀ roaming, markPointer (w.file.header.mark roaming) =
    markOf (capacity page maxLen) roaming w.updates
  refreshed : w.refreshed ≤ w.updates.length
  cached : ∀ roaming, w.file.cached roaming =
    markOf (capacity page maxLen) roaming (w.updates.take w.refreshed)

section

variable {page maxLen : Nat} {w : World} {file : StatsFile}

theorem last_eq {len : Nat} (h : len ≤ 2 ^ 32) (hpos : 0 < entries len) :
    sizeofHeader + maxEntries len * sizeofRecord - sizeofRecord = slot (entries len - 1) := by
  rw [maxEntries_eq h,slot]
  unfold sizeofRecord
  omega

theorem getNext_slot {file : StatsFile} (hfirst : file.first = slot 0)
    (hlast : file.last = slot (entries file.len - 1)) {i : Nat} (hi : i < entries file.len) :
    getNext file (slot i) = if i + 1 = entries file.len then slot 0 else slot (i + 1) := by
  have hnext : slot i + sizeofRecord = slot (i + 1) := by
    unfold slot
    rw [Nat.add_mul,Nat.one_mul,Nat.add_assoc]
  rw [getNext,hfirst,hlast,hnext]
  unfold slot sizeofRecord
  split
  · rw [if_pos (by omega)]
  · rw [if_neg (by omega)]

theorem capacity_ge (hpage : 116 ≤ page) (maxLen : Nat) : 2 ≤ capacity page maxLen :=
  Nat.le_trans (entries_grow hpage (Nat.le_refl page)).1 (entries_mono (Nat.le_max_left _ _))

theorem setup_len (hpage : 116 ≤ page) (maxLen : Nat) :
    statsFileSetup page (blankFile maxLen) 0 = statsFileUpdateCache
      { blankFile maxLen with len := page, header := freshHeader } := by
  have hround : roundUp page (max 0 page) = page := by
    have h := roundUp_next (by omega : 0 < page) (Nat.dvd_zero page)
    rwa [Nat.zero_add] at h
  have hinvalid : headerValid (statsFileRemap page (blankFile maxLen) (max 0 page)) = false := by
    unfold headerValid
    exact decide_eq_false fun h => absurd h.1 (show ¬0 = magicNumber by decide)
  rw [statsFileSetup,hinvalid,if_neg Bool.false_ne_true,statsFileRemap,hround]
  rfl

section

variable (hk : Kept page maxLen w)
include hk

theorem Kept.entries_le : entries w.file.len ≤ capacity page maxLen :=
  entries_mono hk.most

theorem Kept.needsGrowth_iff : needsGrowth w.file = true ↔
      w.file.len < maxLen ∧ w.updates.length % capacity page maxLen = entries w.file.len - 1 := by
  rw [needsGrowth,hk.limit,hk.last,hk.end_,decide_eq_true_iff,slot_inj]
  exact and_congr_right fun _ => eq_comm

section

variable (hpage : 116 ≤ page) (hroom : needsGrowth w.file = false)
include hpage hroom

theorem Kept.next_slot : (w.updates.length + 1) % capacity page maxLen =
      if w.updates.length % capacity page maxLen + 1 = entries w.file.len then 0
      else w.updates.length % capacity page maxLen + 1 := by
  have hle := hk.entries_le
  have hin := hk.inside
  have hfull : w.updates.length % capacity page maxLen + 1 = entries w.file.len ↔
      w.updates.length % capacity page maxLen + 1 = capacity page maxLen := by
    constructor
    · intro hlast
      have hnot : ¬w.file.len < maxLen := by
        intro hlt
        have h := hk.needsGrowth_iff.mpr ⟨hlt,by omega⟩
        rw [hroom] at h
        cases h
      have hlen := finalLen_reached (by omega) hk.pages hk.least hk.most (Nat.not_lt.mp hnot)
      rw [hlast,hlen,capacity]
    · intro hlast
      omega
  rw [succ_mod (by omega)]
  by_cases h : w.updates.length % capacity page maxLen + 1 = capacity page maxLen
  · rw [if_pos (hfull.mpr h),if_pos h]
  · rw [if_neg fun hn => h (hfull.mp hn),if_neg h]

theorem Kept.next : getNext w.file w.file.header.end_ =
      slot ((w.updates.length + 1) % capacity page maxLen) := by
  rw [hk.end_,getNext_slot hk.first hk.last hk.inside,hk.next_slot hpage hroom]
  split <;> rfl

end

theorem Kept.next_growing (hroom : needsGrowth w.file = false) (hlt : w.file.len < maxLen) :
    w.updates.length + 1 < entries w.file.len := by
  have hn := hk.growing hlt
  have hmod := Nat.mod_eq_of_lt (Nat.lt_of_lt_of_le hn hk.entries_le)
  have hnot : ¬w.updates.length = entries w.file.len - 1 := by
    intro heq
    have h := hk.needsGrowth_iff.mpr ⟨hlt,hmod.trans heq⟩
    rw [hroom] at h
    cases h
  omega

end

theorem slot_toUint (hsize : finalLen page maxLen ≤ 2 ^ 32) {i : Nat}
    (hi : i < capacity page maxLen) :
    toUint (slot i) = slot i ∧ markPointer (slot i) = some (slot i) := by
  unfold capacity entries at hi
  unfold slot sizeofHeader sizeofRecord at *
  constructor
  · exact Nat.mod_eq_of_lt (by omega)
  · rw [markPointer,if_neg]
    unfold uintMax
    omega

theorem setMark_mark (roaming flag : Bool) (next stop : Nat) :
    ({ setMark hdr roaming next with end_ := stop } : StatsFileHeader).mark flag =
      if roaming = flag then toUint next else hdr.mark flag := by
  cases roaming <;> cases flag <;> rfl

def position (file : StatsFile) (i : Nat) : Nat := if i = entries file.len then slot 0 else slot i

theorem readFrom_window (hfirst : file.first = slot 0)
    (hlast : file.last = slot (entries file.len - 1)) {k : Nat} (hk : k < entries file.len) :
    ∀ count fuel i, i + count = k + 1 → 0 < i → count < fuel →
      readFrom file (position file (k + 1)) fuel (position file i) =
        (range' i count).map fun j => file.records (slot j) := by
  intro count
  induction count with
  | zero =>
    intro fuel i hi _ hfuel
    obtain _ | m := fuel
    · omega
    rw [Nat.add_zero] at hi
    rw [hi,readFrom,if_pos rfl]
    rfl
  | succ count ih =>
    intro fuel i hi hpos hfuel
    obtain _ | m := fuel
    · omega
    have hhere : position file i = slot i := if_neg (by omega)
    have hnext : getNext file (slot i) = position file (i + 1) :=
      getNext_slot hfirst hlast (by omega)
    have hgo : slot i ≠ position file (k + 1) := by
      unfold position
      split <;> exact fun heq => absurd (slot_inj.mp heq) (by omega)
    rw [hhere,readFrom,if_neg hgo,hnext,ih m (i + 1) (by omega) (by omega) (by omega),
      range'_succ,map_cons]

theorem lastIndex_take {roaming : Bool} {updates : List StatsRecord} {r i : Nat}
    (h : lastIndex roaming updates = some i) (hi : i < r) :
    lastIndex roaming (updates.take r) = some i := by
  induction updates using List.reverseRecOn with
  | nil => cases h
  | append_singleton updates rec ih =>
    rcases Nat.lt_or_ge updates.length r with hr | hr
    · rw [take_of_length_le (by rw [length_append,length_singleton]; omega)]
      exact h
    rw [take_append_of_le_length hr]
    rw [lastIndex_snoc] at h
    split at h
    · cases h
      omega
    · exact ih h

theorem Kept.get_fresh (hk : Kept page maxLen w) {roaming : Bool} {i : Nat} {rec : StatsRecord}
    (hi : lastIndex roaming w.updates = some i) (hrec : w.updates[i]? = some rec)
    (hfresh : i < w.refreshed) (hrecent : w.updates.length ≤ i + capacity page maxLen) :
    statsGet w.file roaming = some rec.data := by
  have hcached := hk.cached roaming
  rw [markOf,lastIndex_take hi hfresh,Option.map_some] at hcached
  change (w.file.cached roaming).map _ = _
  rw [hcached,Option.map_some,hk.slots i rec hrec hrecent]

section

variable (hpage : 116 ≤ page) (hsize : finalLen page maxLen ≤ 2 ^ 32)
include hpage hsize

theorem kept_init : Kept page maxLen (World.init page maxLen) := by
  have hle : page ≤ finalLen page maxLen := Nat.le_max_left _ _
  have hentries := (entries_grow hpage (Nat.le_refl page)).1
  rw [World.init,setup_len hpage]
  constructor
  case limit => rfl
  case pages => exact Nat.dvd_refl page
  case least => exact Nat.le_refl page
  case most => exact hle
  case first => rfl
  case last => exact last_eq (Nat.le_trans hle hsize) (Nat.lt_of_lt_of_le (by decide) hentries)
  case begin_ => rfl
  case end_ => rw [length_nil,Nat.zero_mod]; rfl
  case inside =>
    rw [length_nil,Nat.zero_mod]
    exact Nat.lt_of_lt_of_le (by decide) hentries
  case growing => exact fun _ => Nat.lt_of_lt_of_le Nat.two_pos hentries
  case slots =>
    intro i rec hi
    cases hi
  case marks =>
    intro roaming
    cases roaming <;> rfl
  case refreshed => exact Nat.le_refl 0
  case cached =>
    intro roaming
    cases roaming <;> rfl

section

variable (hk : Kept page maxLen w)
include hk

theorem Kept.remap (hgrow : needsGrowth w.file = true) : Kept page maxLen
      ⟨statsFileRemap page w.file (w.file.len + page),w.updates,w.updates.length⟩ ∧
    needsGrowth (statsFileRemap page w.file (w.file.len + page)) = false := by
  obtain ⟨hlt,hend⟩ := hk.needsGrowth_iff.mp hgrow
  have hpos : 0 < page := by omega
  have hround := roundUp_next hpos hk.pages
  have hmore := entries_grow hpage hk.least
  have hmost := finalLen_grow hpos hk.pages hlt
  have hn := hk.growing hlt
  have hlast := last_eq (Nat.le_trans hmost hsize) (by omega)
  have hkept : Kept page maxLen
      ⟨statsFileRemap page w.file (w.file.len + page),w.updates,w.updates.length⟩ := by
    rw [statsFileRemap,hround]
    exact {
      limit := hk.limit
      pages := Nat.dvd_add hk.pages (Nat.dvd_refl page)
      least := Nat.le_add_left page _
      most := hmost
      first := rfl
      last := hlast
      begin_ := hk.begin_
      end_ := hk.end_
      inside := Nat.lt_trans hk.inside hmore.2
      growing := fun _ => Nat.lt_trans hn hmore.2
      slots := hk.slots
      marks := hk.marks
      refreshed := Nat.le_refl _
      cached := fun roaming => by
        rw [take_length]
        cases roaming with
        | false => exact hk.marks false
        | true => exact hk.marks true }
  refine ⟨hkept,Bool.eq_false_iff.mpr fun h => ?_⟩
  obtain ⟨-,hend'⟩ := hkept.needsGrowth_iff.mp h
  change w.updates.length % capacity page maxLen = entries (roundUp page (w.file.len + page)) - 1
    at hend'
  rw [hround] at hend'
  omega

theorem Kept.write (hroom : needsGrowth w.file = false) (rec : StatsRecord) :
    Kept page maxLen ⟨writeRecord w.file rec,w.updates ++ [rec],w.refreshed⟩ := by
  have hcap := capacity_ge hpage maxLen
  have hnext := hk.next hpage hroom
  have hlt : (w.updates.length + 1) % capacity page maxLen < capacity page maxLen :=
    Nat.mod_lt _ (by omega)
  obtain ⟨huint,hpointer⟩ := slot_toUint hsize hlt
  have hlen : (w.updates ++ [rec]).length = w.updates.length + 1 := by
    rw [length_append,length_singleton]
  constructor
  case limit => exact hk.limit
  case pages => exact hk.pages
  case least => exact hk.least
  case most => exact hk.most
  case first => exact hk.first
  case last => exact hk.last
  case begin_ =>
    have hbegin : ∀ b n, (setMark w.file.header b n).begin_ = w.file.header.begin_ := by
      intro b n
      cases b <;> rfl
    exact (hbegin _ _).trans hk.begin_
  case end_ =>
    change toUint (getNext w.file w.file.header.end_) = _
    rw [hnext,huint,hlen]
  case inside =>
    have hin := hk.inside
    rw [hlen,hk.next_slot hpage hroom]
    change _ < entries w.file.len
    split <;> omega
  case growing =>
    intro hgrow
    rw [hlen]
    exact hk.next_growing hroom hgrow
  case slots =>
    intro i rec' hi hrecent
    change (if slot ((i + 1) % capacity page maxLen) = getNext w.file w.file.header.end_ then rec
      else w.file.records (slot ((i + 1) % capacity page maxLen))) = rec'
    rw [hlen] at hrecent
    rw [hnext]
    rcases Nat.lt_or_ge i w.updates.length with hold | hnew
    · rw [getElem?_append_left hold] at hi
      rw [if_neg fun heq => slots_differ hold (by omega) (slot_inj.mp heq)]
      exact hk.slots i rec' hi (by omega)
    have hlast : i = w.updates.length := by
      have hbound : i < (w.updates ++ [rec]).length := (List.getElem?_eq_some_iff.mp hi).1
      omega
    subst hlast
    rw [getElem?_concat_length] at hi
    rw [if_pos rfl]
    exact Option.some.inj hi
  case marks =>
    intro roaming
    rw [writeRecord,setMark_mark,markOf,lastIndex_snoc,hnext,huint]
    split
    · exact hpointer
    · exact hk.marks roaming
  case refreshed =>
    rw [hlen]
    exact Nat.le_succ_of_le hk.refreshed
  case cached =>
    intro roaming
    rw [take_append_of_le_length hk.refreshed]
    exact hk.cached roaming

theorem Kept.update (call : UpdateCall) : Kept page maxLen (w.update page call) := by
  unfold World.update statsUpdate
  cases hgrow : needsGrowth w.file with
  | false =>
    have hlen : (writeRecord w.file call.record).len = w.file.len := rfl
    change Kept page maxLen (w.record call.record (writeRecord w.file call.record))
    rw [World.record,if_pos hlen]
    exact hk.write hpage hsize hgrow call.record
  | true =>
    cases call.remaps with
    | false => exact hk
    | true =>
      obtain ⟨hmapped,hroom⟩ := hk.remap hpage hsize hgrow
      have hwrite := hmapped.write hpage hsize hroom call.record
      have hlen : (writeRecord (statsFileRemap page w.file (w.file.len + page)) call.record).len ≠
          w.file.len := by
        change roundUp page (w.file.len + page) ≠ w.file.len
        rw [roundUp_next (by omega) hk.pages]
        omega
      change Kept page maxLen (w.record call.record
        (writeRecord (statsFileRemap page w.file (w.file.len + page)) call.record))
      rw [World.record,if_neg hlen]
      exact hwrite

theorem Kept.ringRecords_eq : ringRecords w.file = w.updates.drop
      (w.updates.length - w.updates.length % capacity page maxLen) := by
  have hin := hk.inside
  have hcap := capacity_ge hpage maxLen
  have hmod := Nat.mod_le w.updates.length (capacity page maxLen)
  have hlt := Nat.mod_lt w.updates.length (by omega : 0 < capacity page maxLen)
  have hbegin : getNext w.file w.file.header.begin_ = position w.file 1 := by
    rw [hk.begin_,getNext_slot hk.first hk.last (by omega)]
    rfl
  have hend : getNext w.file w.file.header.end_ =
      position w.file (w.updates.length % capacity page maxLen + 1) := by
    rw [hk.end_,getNext_slot hk.first hk.last hin]
    rfl
  have hentries := maxEntries_eq (Nat.le_trans hk.most hsize)
  rw [ringRecords,hbegin,hend,hentries,
    readFrom_window hk.first hk.last hin _ _ 1 (Nat.add_comm 1 _) Nat.one_pos hin]
  apply ext_getElem?
  intro t
  rw [getElem?_map,getElem?_drop]
  rcases Nat.lt_or_ge t (w.updates.length % capacity page maxLen) with ht | ht
  · have hi : w.updates.length - w.updates.length % capacity page maxLen + t < w.updates.length := by
      omega
    have hslot : (w.updates.length - w.updates.length % capacity page maxLen + t + 1) %
        capacity page maxLen = 1 + t := by
      have hmul := Nat.div_add_mod w.updates.length (capacity page maxLen)
      have heq : w.updates.length - w.updates.length % capacity page maxLen + t + 1 =
          (1 + t) + capacity page maxLen * (w.updates.length / capacity page maxLen) := by
        omega
      rw [heq,Nat.add_mul_mod_self_left,Nat.mod_eq_of_lt (by omega)]
    have hrec := hk.slots _ _ (getElem?_eq_getElem hi) (by omega)
    rw [hslot] at hrec
    rw [getElem?_range' ht,getElem?_eq_getElem hi,Option.map_some,Nat.one_mul,hrec]
  · rw [getElem?_eq_none (by rwa [length_range']),getElem?_eq_none (by omega)]
    rfl

theorem Kept.ring_iff : (∃ k, 1 ≤ k ∧ k ≤ w.updates.length ∧
        ringRecords w.file = w.updates.drop (w.updates.length - k) ∧
        (w.file.len < maxLen → k = w.updates.length)) ↔
      w.updates.length % capacity page maxLen ≠ 0 := by
  have hring := hk.ringRecords_eq hpage hsize
  constructor
  · rintro ⟨k,hpos,hle,heq,-⟩ hzero
    rw [hring,hzero] at heq
    have hlen := congrArg List.length heq
    rw [length_drop,length_drop] at hlen
    omega
  intro hne
  refine ⟨w.updates.length % capacity page maxLen,by omega,Nat.mod_le _ _,hring,?_⟩
  intro hlt
  exact Nat.mod_eq_of_lt (Nat.lt_of_lt_of_le (hk.growing hlt) hk.entries_le)

end

theorem reach_kept (hw : Reach (World.init page maxLen) (Step page) w) : Kept page maxLen w := by
  refine reach_invariant (kept_init hpage hsize) ?_ hw
  rintro v call v' hk rfl
  exact hk.update hpage hsize call

end

end

theorem ring_keeps_latest (page maxLen : Nat) (w : World) (hpage : 116 ≤ page)
    (hsize : finalLen page maxLen ≤ 2 ^ 32)
    (hw : Reach (World.init page maxLen) (Step page) w) :
    ((∃ k, 1 ≤ k ∧ k ≤ w.updates.length ∧
        ringRecords w.file = w.updates.drop (w.updates.length - k) ∧
        (w.file.len < maxLen → k = w.updates.length)) ↔
      w.updates.length % capacity page maxLen ≠ 0) ∧
    ∀ roaming i rec, lastIndex roaming w.updates = some i → w.updates[i]? = some rec →
      i < w.refreshed → w.updates.length ≤ i + capacity page maxLen →
      statsGet w.file roaming = some rec.data := by
  have hk := reach_kept hpage hsize hw
  refine ⟨hk.ring_iff hpage hsize,?_⟩
  intro roaming i rec hi hrec hfresh hrecent
  exact hk.get_fresh hi hrec hfresh hrecent

def World.run (w : World) (calls : List UpdateCall) : World :=
  calls.foldl (World.update page) w

theorem reach_run {page : Nat} {start w : World} (hw : Reach start (Step page) w)
    (calls : List UpdateCall) : Reach start (Step page) (w.run page calls) := by
  induction calls generalizing w with
  | nil => exact hw
  | cons call calls ih => exact ih (.next hw rfl)

def homeRecord : StatsRecord := ⟨1,false,{ zeroData with rxPackets := 7 }⟩

def roamingRecord : StatsRecord := ⟨2,true,{ zeroData with rxPackets := 9 }⟩

def grownCalls : List UpdateCall :=
  replicate 83 ⟨homeRecord,true⟩ ++ [⟨roamingRecord,true⟩]

theorem grown_keeps_latest :
    (∃ k, 1 ≤ k ∧ ringRecords ((World.init 4096 8192).run 4096 grownCalls).file =
      ((World.init 4096 8192).run 4096 grownCalls).updates.drop (84 - k)) ∧
    statsGet ((World.init 4096 8192).run 4096 grownCalls).file false = some homeRecord.data := by
  have hw : Reach (World.init 4096 8192) (Step 4096) ((World.init 4096 8192).run 4096 grownCalls) :=
    reach_run .start grownCalls
  have hlen : ((World.init 4096 8192).run 4096 grownCalls).updates.length = 84 := by
    decide +kernel
  have hrefreshed : ((World.init 4096 8192).run 4096 grownCalls).refreshed = 83 := by
    decide +kernel
  have hindex : lastIndex false ((World.init 4096 8192).run 4096 grownCalls).updates = some 82 := by
    decide +kernel
  have hrec : ((World.init 4096 8192).run 4096 grownCalls).updates[82]? = some homeRecord := by
    decide +kernel
  obtain ⟨hring,hget⟩ := ring_keeps_latest 4096 8192 _ (by decide) (by decide) hw
  constructor
  · obtain ⟨k,hpos,-,heq,-⟩ := hring.mpr (by rw [hlen]; decide)
    rw [hlen] at heq
    exact ⟨k,hpos,heq⟩
  · exact hget false 82 homeRecord hindex hrec (by rw [hrefreshed]; decide)
      (by rw [hlen]; decide)

theorem latest_not_returned :
    (∃ w, Reach (World.init 4096 4096) (Step 4096) w ∧ w.updates = [homeRecord] ∧
      statsGet w.file false = none) ∧
    (∃ w, Reach (World.init 4096 4096) (Step 4096) w ∧ w.updates.length = 84 ∧
      ringRecords w.file = []) := by
  constructor
  · exact ⟨_,reach_run .start [⟨homeRecord,true⟩],by decide +kernel,by decide +kernel⟩
  · exact ⟨_,reach_run .start (List.replicate 84 ⟨homeRecord,true⟩),by decide +kernel,
      by decide +kernel⟩

end FuzzingTargets.Connman.Stats
