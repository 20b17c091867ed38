import FuzzingTargets.Connman.DnsProxy.CacheTyping
import FuzzingTargets.Connman.DnsProxy.Expansion

namespace FuzzingTargets.DnsProxy.Cache
open Bytes Checked Slices List

inductive Spelling where
  | root
  | label (l : Label) (rest : Spelling)
  | pointer (b lo : UInt8) (rest : Spelling)
  deriving DecidableEq

namespace Spelling

def labels : Spelling → List Label
  | root => []
  | label l rest => l :: rest.labels
  | pointer _ _ rest => rest.labels

def hops : Spelling → Nat
  | root => 0
  | label _ rest => rest.hops
  | pointer _ _ rest => rest.hops + 1

def size : Spelling → Nat
  | root => 1
  | label l rest => 1 + l.length + rest.size
  | pointer _ _ _ => 2

def first : Spelling → UInt8
  | root => 0
  | label l _ => UInt8.ofNat l.length
  | pointer b _ _ => b

def Stands (pkt : List UInt8) : Spelling → Nat → Prop
  | root, p => pkt[p]? = some 0
  | label l rest, p =>
    1 ≤ l.length ∧ l.length ≤ nsMaxLabel ∧ At pkt p (UInt8.ofNat l.length :: l) ∧
      rest.Stands pkt (p + l.length + 1)
  | pointer b lo rest, p =>
    compressed b = true ∧ At pkt p [b,lo] ∧ rest.Stands pkt (pointerOffset b lo)

def after : Spelling → UInt8
  | root => 0
  | label _ rest => if rest.labels = [] then rest.first else rest.after
  | pointer _ _ rest => rest.after

def copied (l : Label) (rest : Spelling) : List UInt8 := UInt8.ofNat l.length :: (l ++ [rest.first])

def appendLabel (s : NameScan) (l : Label) (rest : Spelling) : NameScan :=
  { s with
    outputLen := 2
    name := s.name.take s.nameLen ++ copied l rest ++ s.name.drop (s.nameLen + (copied l rest).length)
    nameLen := s.nameLen + 1 + l.length }

def scan : Spelling → Nat → NameScan → NameScan
  | root, _, s => s
  | label l rest, p, s => rest.scan (p + l.length + 1) ((appendLabel s l rest).mark (p + l.length + 1))
  | pointer b lo rest, p, s => rest.scan (pointerOffset b lo) (s.mark (p + 2))

def Expandable (name : List UInt8) : Spelling → Prop
  | pointer _ _ rest => if rest.labels = [] then name.head? = some 0 else rest.after = 0
  | _ => False

end Spelling

def Expands (pkt name : List UInt8) (p : Nat) (sp : Spelling) : Prop :=
  ∃ s, getName pkt pkt.length (nsMaxCdname - 1) (nameFuel pkt.length) 0 p (emptyScan name) =
      .ok (none,s) ∧
    wire sp.labels <+: s.name ∧ s.nameLen + 1 = (wire sp.labels).length ∧ s.next = some (p + sp.size)

section

variable {pkt : List UInt8} {max outputMax fuel counter p : Nat} {s : NameScan}

theorem getName_pointer {b lo : UInt8} (hcounter : counter ≤ 10) (hcomp : compressed b = true)
    (h : At pkt p [b,lo]) (htarget : pointerOffset b lo < max) :
    getName pkt max outputMax (fuel + 1) counter p s =
      getName pkt max outputMax fuel (counter + 1) (pointerOffset b lo) (s.mark (p + 2)) := by
  obtain ⟨hb,hlo⟩ := at_cons.mp h
  have hzero : b ≠ 0 := by
    rintro rfl
    cases hcomp
  rw [getName,if_neg (by omega),loadByte,load_some hb,bind_ok,if_neg hzero,if_pos hcomp,
    loadByte,load_some (at_cons.mp hlo).1,bind_ok,if_neg (by omega)]

theorem length_byte_plain {l : Label} (hpos : 1 ≤ l.length) (hmax : l.length ≤ nsMaxLabel) :
    (UInt8.ofNat l.length).toNat = l.length ∧ UInt8.ofNat l.length ≠ 0 ∧
      compressed (UInt8.ofNat l.length) = false := by
  unfold nsMaxLabel at hmax
  have hcases : ∀ n : Fin 64, 1 ≤ n.val → (UInt8.ofNat n).toNat = n.val ∧ UInt8.ofNat n ≠ 0 ∧
      compressed (UInt8.ofNat n) = false := by decide
  exact hcases ⟨l.length,by omega⟩ hpos

theorem copied_length (l : Label) (rest : Spelling) :
    (Spelling.copied l rest).length = l.length + 2 := by
  simp [Spelling.copied]

theorem getName_label {l : Label} {rest : Spelling} (hcounter : counter ≤ 10) (hpos : 1 ≤ l.length)
    (hlong : l.length ≤ nsMaxLabel) (h : At pkt p (Spelling.copied l rest))
    (hmax : p + l.length + 1 < max) (houtput : s.outputLen ≤ outputMax)
    (hroom : s.nameLen + l.length + 2 ≤ s.name.length) :
    getName pkt max outputMax (fuel + 1) counter p s =
      getName pkt max outputMax fuel counter (p + l.length + 1)
        ((Spelling.appendLabel s l rest).mark (p + l.length + 1)) := by
  obtain ⟨hbyte,hzero,hplain⟩ := length_byte_plain hpos hlong
  obtain ⟨hb,hlabel⟩ := at_cons.mp h
  have hend := at_end hlabel (by simp)
  have htake := at_take hlabel
  rw [length_append,length_singleton] at hend htake
  have hstore : storeSlice Fault.name s.name s.nameLen (Spelling.copied l rest) =
      .ok (Spelling.appendLabel s l rest).name := storeSlice_ok (by rw [copied_length]; omega)
  rw [getName,if_neg (by omega),loadByte,load_some hb,bind_ok,if_neg hzero,hplain,hbyte,
    if_neg Bool.false_ne_true,if_neg (by omega),if_neg (by omega),loadBytes,loadSlice_ok hend,
    bind_ok,htake]
  change (storeSlice Fault.name s.name s.nameLen (Spelling.copied l rest) >>= _) = _
  rw [hstore,bind_ok]
  exact if_neg (by omega)

end

section

variable {pkt : List UInt8} {sp rest : Spelling} {p : Nat} {s : NameScan} {l : Label}

theorem stands_first (h : sp.Stands pkt p) : pkt[p]? = some sp.first := by
  cases sp with
  | root => exact h
  | label l rest => exact (at_cons.mp h.2.2.1).1
  | pointer b lo rest => exact (at_cons.mp h.2.1).1

theorem stands_inside (h : sp.Stands pkt p) : p < pkt.length :=
  (List.getElem?_eq_some_iff.mp (stands_first h)).1

theorem appendLabel_length (h : s.nameLen + l.length + 2 ≤ s.name.length) :
    (Spelling.appendLabel s l rest).name.length = s.name.length := by
  simp only [Spelling.appendLabel,length_append,length_take,length_drop,copied_length]
  omega

theorem appendLabel_copied :
    s.name.take s.nameLen ++ Spelling.copied l rest <+: (Spelling.appendLabel s l rest).name :=
  prefix_append _ _

theorem appendLabel_front (h : s.nameLen + l.length + 2 ≤ s.name.length) :
    (Spelling.appendLabel s l rest).name.take (Spelling.appendLabel s l rest).nameLen =
      s.name.take s.nameLen ++ UInt8.ofNat l.length :: l := by
  have hfront : s.name.take s.nameLen ++ UInt8.ofNat l.length :: l <+:
      (Spelling.appendLabel s l rest).name := by
    refine IsPrefix.trans ⟨[rest.first],?_⟩ appendLabel_copied
    rw [Spelling.copied,append_assoc,cons_append]
  rw [prefix_iff_eq_take.mp hfront]
  congr 1
  simp only [Spelling.appendLabel,length_append,length_take,length_cons]
  omega

theorem room_of_label (h : s.nameLen + (wire (l :: rest.labels)).length ≤ s.name.length) :
    s.nameLen + l.length + 2 ≤ s.name.length ∧
      (Spelling.appendLabel s l rest).nameLen + (wire rest.labels).length ≤
        (Spelling.appendLabel s l rest).name.length := by
  have hpos := length_pos_iff.mpr (wire_ne_nil rest.labels)
  rw [wire_length_cons] at h
  refine ⟨by omega,?_⟩
  rw [appendLabel_length (by omega)]
  simp only [Spelling.appendLabel]
  omega

theorem getName_scan {outputMax fuel counter : Nat} (h : sp.Stands pkt p)
    (hhops : counter + sp.hops ≤ 10) (houtput : s.outputLen ≤ outputMax) (hmax : 2 ≤ outputMax)
    (hroom : s.nameLen + (wire sp.labels).length ≤ s.name.length) :
    getName pkt pkt.length outputMax fuel counter p s = .error .stuck ∨
      getName pkt pkt.length outputMax fuel counter p s = .ok (none,sp.scan p s) := by
  induction sp generalizing fuel counter p s with
  | root =>
    cases fuel with
    | zero => exact .inl rfl
    | succ fuel =>
      right
      rw [getName,if_neg (show ¬10 < counter from not_lt.mpr hhops),loadByte,load_some h,bind_ok,if_pos rfl]
      rfl
  | label l rest ih =>
    cases fuel with
    | zero => exact .inl rfl
    | succ fuel =>
      obtain ⟨hpos,hlong,hat,hrest⟩ := h
      obtain ⟨hfit,hnext⟩ := room_of_label hroom
      have hcopied : At pkt p (Spelling.copied l rest) :=
        at_append.mpr ⟨hat,at_cons.mpr ⟨stands_first hrest,at_nil _ _⟩⟩
      rw [getName_label (by omega) hpos hlong hcopied (stands_inside hrest) houtput hfit]
      exact ih hrest hhops hmax hnext
  | pointer b lo rest ih =>
    cases fuel with
    | zero => exact .inl rfl
    | succ fuel =>
      obtain ⟨hcomp,hat,hrest⟩ := h
      rw [Spelling.hops] at hhops
      rw [getName_pointer (by omega) hcomp hat (stands_inside hrest)]
      exact ih hrest (by omega) houtput hroom

theorem scan_nameLen : (sp.scan p s).nameLen + 1 = s.nameLen + (wire sp.labels).length := by
  induction sp generalizing p s with
  | root => rfl
  | label l rest ih =>
    rw [Spelling.scan,ih,Spelling.labels,wire_length_cons]
    simp only [NameScan.mark,Spelling.appendLabel]
    omega
  | pointer b lo rest ih => exact ih

theorem scan_next_kept {e : Nat} (h : s.next = some e) : (sp.scan p s).next = some e := by
  induction sp generalizing p s with
  | root => exact h
  | label l rest ih =>
    apply ih
    simp only [NameScan.mark,Spelling.appendLabel,h,Option.getD_some]
  | pointer b lo rest ih =>
    apply ih
    simp only [NameScan.mark,h,Option.getD_some]

theorem scan_next (h : s.next = none) :
    (sp.scan p s).next = some (p + sp.size) ↔ ∃ b lo rest, sp = .pointer b lo rest := by
  cases sp with
  | root => simp [Spelling.scan,h]
  | label l rest =>
    have hpos : 1 ≤ rest.size := by
      cases rest <;> simp only [Spelling.size] <;> omega
    have hnext : ((Spelling.appendLabel s l rest).mark (p + l.length + 1)).next =
        some (p + l.length + 1) := by
      simp only [NameScan.mark,Spelling.appendLabel,h,Option.getD_none]
    rw [Spelling.scan,scan_next_kept hnext,Option.some_inj,Spelling.size]
    constructor
    · omega
    · rintro ⟨b,lo,rest,hsp⟩
      cases hsp
  | pointer b lo rest =>
    have hnext : (s.mark (p + 2)).next = some (p + 2) := by
      simp only [NameScan.mark,h,Option.getD_none]
    have hkept : (rest.scan (pointerOffset b lo) (s.mark (p + 2))).next = some (p + 2) :=
      scan_next_kept hnext
    exact ⟨fun _ => ⟨b,lo,rest,rfl⟩,fun _ => hkept⟩

theorem scan_name_root (h : sp.labels = []) : (sp.scan p s).name = s.name := by
  induction sp generalizing p s with
  | root => rfl
  | label l rest ih => cases h
  | pointer b lo rest ih => exact ih h

theorem scan_name (h : sp.labels ≠ []) (hroom : s.nameLen + (wire sp.labels).length ≤ s.name.length) :
    s.name.take s.nameLen ++ (text sp.labels ++ [sp.after]) <+: (sp.scan p s).name := by
  induction sp generalizing p s with
  | root => exact absurd rfl h
  | label l rest ih =>
    obtain ⟨hfit,hnext⟩ := room_of_label hroom
    rw [Spelling.scan,Spelling.labels,Spelling.after,text]
    split
    · rename_i hrest
      rw [scan_name_root hrest,hrest,text,append_nil]
      exact appendLabel_copied
    rename_i hrest
    have hlater := ih hrest (p := p + l.length + 1)
      (s := (Spelling.appendLabel s l rest).mark (p + l.length + 1)) hnext
    rw [NameScan.mark,appendLabel_front hfit,append_assoc,cons_append] at hlater
    rw [cons_append,cons_append,append_assoc]
    exact hlater
  | pointer b lo rest ih =>
    have hlater := ih h hroom (s := s.mark (p + 2)) (p := pointerOffset b lo)
    exact hlater

theorem scan_wire (hempty : s.nameLen = 0) (hroom : (wire sp.labels).length ≤ s.name.length) :
    wire sp.labels <+: (sp.scan p s).name ↔
      if sp.labels = [] then s.name.head? = some 0 else sp.after = 0 := by
  split
  · rename_i h
    rw [scan_name_root h,h,wire]
    cases s.name with
    | nil => simp
    | cons c cs => simp [eq_comm]
  rename_i h
  have hname := scan_name h (p := p) (by rwa [hempty,Nat.zero_add])
  rw [hempty,take_zero,nil_append] at hname
  rw [wire_eq_text]
  constructor
  · intro hwire
    have hsame := prefix_of_prefix_length_le hname hwire (by simp)
    have heq := hsame.eq_of_length (by simp)
    simpa using heq
  · intro hafter
    rw [← hafter]
    exact hname

end

theorem getName_spelling {pkt name : List UInt8} {p : Nat} {sp : Spelling} (h : sp.Stands pkt p)
    (hsize : (wire sp.labels).length ≤ nsMaxCdname) (hhops : sp.hops ≤ 10)
    (hname : name.length = nsMaxDname + 1) :
    getName pkt pkt.length (nsMaxCdname - 1) (nameFuel pkt.length) 0 p (emptyScan name) =
      .ok (none,sp.scan p (emptyScan name)) := by
  have hroom : (emptyScan name).nameLen + (wire sp.labels).length ≤ (emptyScan name).name.length := by
    unfold nsMaxCdname nsMaxDname at *
    simp only [emptyScan]
    omega
  rcases getName_scan h ((Nat.zero_add _).le.trans hhops) (Nat.zero_le _)
    (show 2 ≤ nsMaxCdname - 1 by decide) hroom with hstuck | hdone
  · have hfuel : (11 - 0) * (pkt.length + 2) + (pkt.length + 1 - p) < nameFuel pkt.length := by
      unfold nameFuel
      omega
    exact absurd rfl (getName_terminates hfuel .stuck hstuck)
  · exact hdone

theorem getName_expands_iff {pkt name : List UInt8} {p : Nat} {sp : Spelling}
    (h : sp.Stands pkt p) (hsize : (wire sp.labels).length ≤ nsMaxCdname) (hhops : sp.hops ≤ 10)
    (hname : name.length = nsMaxDname + 1) :
    Expands pkt name p sp ↔ sp.Expandable name := by
  have hroom : (wire sp.labels).length ≤ name.length := by
    unfold nsMaxCdname nsMaxDname at *
    omega
  have hwire := @scan_wire sp p (emptyScan name) rfl hroom
  have hnext := @scan_next sp p (emptyScan name) rfl
  unfold Expands
  rw [getName_spelling h hsize hhops hname]
  constructor
  · rintro ⟨s,hs, hprefix,-,hend⟩
    cases hs
    obtain ⟨b,lo,rest,rfl⟩ := hnext.mp hend
    exact hwire.mp hprefix
  intro hexp
  cases sp with
  | root | label l rest => exact hexp.elim
  | pointer b lo rest =>
    refine ⟨_,rfl,hwire.mpr hexp,?_,hnext.mpr ⟨b,lo,rest,rfl⟩⟩
    rw [scan_nameLen]
    exact Nat.zero_add _

def zeroName : List UInt8 := replicate (nsMaxDname + 1) 0

theorem zeroName_length : zeroName.length = nsMaxDname + 1 := length_replicate

def hostSpelling : Spelling := .label [104] .root

theorem addressReply_owner_expanded :
    (Spelling.pointer 0xC0 0x0C hostSpelling).Stands (replyTo 1 addressRecord).pkt 19 ∧
      Expands (replyTo 1 addressRecord).pkt zeroName 19 (.pointer 0xC0 0x0C hostSpelling) := by
  have hstands : (Spelling.pointer 0xC0 0x0C hostSpelling).Stands (replyTo 1 addressRecord).pkt 19 :=
    ⟨rfl,by decide,by decide,by decide,by decide,rfl⟩
  exact ⟨hstands,(getName_expands_iff hstands (by decide) (by decide)
    zeroName_length).mpr rfl⟩

def plainRecord : List UInt8 := [1,104,0,0,1,0,1,0,0,0,60,0,4,10,0,0,1]

theorem plainOwner_not_expanded :
    hostSpelling.Stands (replyTo 1 plainRecord).pkt 19 ∧ hostSpelling.size = 3 ∧
      ((getName (replyTo 1 plainRecord).pkt (replyTo 1 plainRecord).pkt.length (nsMaxCdname - 1)
        (nameFuel (replyTo 1 plainRecord).pkt.length) 0 19 (emptyScan zeroName)).toOption.map
          fun r => (r.1,r.2.nameLen,r.2.next)) = some (none,2,some 21) ∧
      ¬Expands (replyTo 1 plainRecord).pkt zeroName 19 hostSpelling := by
  have hstands : hostSpelling.Stands (replyTo 1 plainRecord).pkt 19 :=
    ⟨by decide,by decide,by decide,rfl⟩
  refine ⟨hstands,rfl,by decide +kernel,?_⟩
  rintro ⟨s,hs,-,-,hnext⟩
  rw [getName_spelling hstands (by decide) (by decide) zeroName_length] at hs
  cases hs
  obtain ⟨b,lo,rest,h⟩ := (scan_next rfl).mp hnext
  cases h

end FuzzingTargets.DnsProxy.Cache
