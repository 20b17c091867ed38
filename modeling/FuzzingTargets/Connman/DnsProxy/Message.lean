import FuzzingTargets.Foundation.Slices
import FuzzingTargets.Connman.DnsProxy.Names

namespace FuzzingTargets.DnsProxy
open Bytes Slices List

def NameValid (ls : List Label) : Prop := ∀ l ∈ ls, l ≠ [] ∧ l.length < 64

structure Rr where
  owner : List Label
  fixed : List UInt8
  rdata : List UInt8
  deriving DecidableEq

def Rr.rtype (r : Rr) : Nat := be16 (r.fixed.getD 0 0) (r.fixed.getD 1 0)

def Rr.rclass (r : Rr) : Nat := be16 (r.fixed.getD 2 0) (r.fixed.getD 3 0)

structure RdataShape where
  lead : Nat
  names : Nat
  tail : Nat

def rdataShape (rtype : Nat) : Option RdataShape :=
  if rtype ∈ [2,3,4,5,7,8,9,12] then some ⟨0,1,0⟩
  else if rtype = 6 then some ⟨0,2,20⟩
  else if rtype = 14 then some ⟨0,2,0⟩
  else if rtype = 15 then some ⟨2,1,0⟩
  else none

def decodeNames (msg : List UInt8) : Nat → Nat → Option (List UInt8 × Nat)
  | 0, pos => some ([],pos)
  | k + 1, pos =>
    match decodeName msg pos with
    | none => none
    | some (ls,used) => (decodeNames msg k (pos + used)).map fun r => (wire ls ++ r.1,r.2)

def decodeRdata (msg : List UInt8) (rtype pos len : Nat) : Option (List UInt8) :=
  match rdataShape rtype with
  | none => some ((msg.drop pos).take len)
  | some sh =>
    match decodeNames msg sh.names (pos + sh.lead) with
    | none => none
    | some (body,next) =>
      if next + sh.tail = pos + len then
        some ((msg.drop pos).take sh.lead ++ body ++ (msg.drop next).take sh.tail)
      else none

def decodeRr (msg : List UInt8) (pos : Nat) : Option (Rr × Nat) :=
  match decodeName msg pos with
  | none => none
  | some (owner,used) =>
    let f := pos + used
    let rdlen := be16 (msg.getD (f + 8) 0) (msg.getD (f + 9) 0)
    if msg.length < f + 10 + rdlen then none
    else
      let fixed := (msg.drop f).take 8
      (decodeRdata msg (be16 (fixed.getD 0 0) (fixed.getD 1 0)) (f + 10) rdlen).map
        fun rdata => (⟨owner,fixed,rdata⟩,f + 10 + rdlen)

def decodeRrs (msg : List UInt8) : Nat → Nat → Option (List Rr × Nat)
  | 0, pos => some ([],pos)
  | n + 1, pos =>
    match decodeRr msg pos with
    | none => none
    | some (r,next) => (decodeRrs msg n next).map fun rs => (r :: rs.1,rs.2)

structure Message where
  header : List UInt8
  question : List Label
  qfixed : List UInt8
  answers : List Rr
  authority : List Rr
  additional : List Rr
  deriving DecidableEq

def Message.qtype (m : Message) : Nat := be16 (m.qfixed.getD 0 0) (m.qfixed.getD 1 0)

def Message.qclass (m : Message) : Nat := be16 (m.qfixed.getD 2 0) (m.qfixed.getD 3 0)

def Message.records (m : Message) : List Rr := m.answers ++ m.authority ++ m.additional

def count (header : List UInt8) (i : Nat) : Nat := be16 (header.getD i 0) (header.getD (i + 1) 0)

def decodeMessage (msg : List UInt8) : Option Message :=
  let header := msg.take 12
  if msg.length < 12 ∨ count header 4 ≠ 1 then none
  else
    match decodeName msg 12 with
    | none => none
    | some (question,used) =>
      if used ≠ (wire question).length ∨ msg.length < 12 + used + 4 then none
      else
        match decodeRrs msg (count header 6) (12 + used + 4) with
        | none => none
        | some (an,p1) =>
          match decodeRrs msg (count header 8) p1 with
          | none => none
          | some (ns,p2) =>
            match decodeRrs msg (count header 10) p2 with
            | none => none
            | some (ar,p3) =>
              if p3 = msg.length then
                some ⟨header,question,(msg.drop (12 + used)).take 4,an,ns,ar⟩
              else none

def encodeRr (r : Rr) : List UInt8 :=
  wire r.owner ++ (r.fixed ++ (lengthBytes r.rdata.length ++ r.rdata))

def encodeRrs (rs : List Rr) : List UInt8 := (rs.map encodeRr).flatten

theorem wire_ne_nil (ls : List Label) : wire ls ≠ [] := by
  cases ls <;> simp [wire]

variable {msg rdata : List UInt8} {ls : List Label} {pos fuel checked room rtype next len : Nat}
  {names : List (List Label)}

theorem unpackFrom_wire (hv : NameValid ls) (hat : At msg pos (wire ls)) (hf : ls.length < fuel)
    (hr : (wire ls).length ≤ room) :
    unpackFrom msg fuel checked room pos = some (ls,(wire ls).length) := by
  induction ls generalizing pos fuel checked room with
  | nil =>
    obtain _ | fuel := fuel
    · omega
    have hz : msg[pos]? = some 0 := (at_cons.mp hat).1
    simp [unpackFrom,hz,wire]
  | cons l ls ih =>
    obtain _ | fuel := fuel
    · omega
    obtain ⟨hl,hl64⟩ := hv l mem_cons_self
    have hpos : 0 < l.length := length_pos_iff.mpr hl
    have hn : (UInt8.ofNat l.length).toNat = l.length := by
      rw [UInt8.toNat_ofNat']
      omega
    rw [wire,cons_append,at_cons,at_append] at hat
    obtain ⟨hb,hlab,hrest⟩ := hat
    have hend := at_end hrest (wire_ne_nil ls)
    have hwl : 1 ≤ (wire ls).length := length_pos_iff.mpr (wire_ne_nil ls)
    rw [wire_length_cons] at hr
    have hfuel : ls.length < fuel := by
      rw [length_cons] at hf
      omega
    have hrec : unpackFrom msg fuel (checked + l.length + 1) (room - (l.length + 1))
        (pos + 1 + l.length) = some (ls,(wire ls).length) :=
      ih (forall_mem_cons.mp hv).2 hrest hfuel (by omega)
    unfold unpackFrom
    simp only [hb,hn]
    rw [if_neg (by omega),if_pos hl64,if_neg (by omega),hrec,at_take hlab,wire_length_cons]
    simp only [Option.some.injEq,Prod.mk.injEq,true_and]
    omega

theorem wire_length_ge (ls : List Label) : ls.length < (wire ls).length := by
  induction ls with
  | nil => simp [wire]
  | cons l ls ih =>
    rw [wire_length_cons,length_cons]
    omega

theorem decodeName_wire (hv : NameValid ls) (hlen : (wire ls).length ≤ nsMaxCdname)
    (hat : At msg pos (wire ls)) : decodeName msg pos = some (ls,(wire ls).length) := by
  have := wire_length_ge ls
  exact unpackFrom_wire hv hat (by omega) hlen

theorem unpackFrom_used {r : List Label × Nat} (h : unpackFrom msg fuel checked room pos = some r) :
    1 ≤ r.2 := by
  cases fuel with
  | zero => cases h
  | succ fuel =>
    unfold unpackFrom at h
    split at h
    · cases h
    split_ifs at h
    · cases h
      exact le_rfl
    · split at h
      · cases h
      · cases h
        omega
    split at h
    · cases h
    dsimp only at h
    split_ifs at h
    obtain ⟨q,-,heq⟩ := Option.map_eq_some_iff.mp h
    cases heq
    exact one_le_two

theorem unpackFrom_valid {used : Nat} (hr : 1 ≤ room)
    (h : unpackFrom msg fuel checked room pos = some (ls,used)) :
    NameValid ls ∧ (wire ls).length ≤ room := by
  induction fuel generalizing checked room pos ls used with
  | zero => cases h
  | succ fuel ih =>
    unfold unpackFrom at h
    split at h
    · cases h
    rename_i n hn
    split_ifs at h with h0 h64 hroom h192
    · cases h
      exact ⟨by simp [NameValid],by simpa [wire] using hr⟩
    · split at h
      · cases h
      rename_i ls' used' hrec
      cases h
      obtain ⟨hv,hw⟩ := ih (by omega) hrec
      have hlen : ((msg.drop (pos + 1)).take n.toNat).length = n.toNat := by
        rw [length_take,length_drop]
        omega
      refine ⟨?_,by rw [wire_length_cons,hlen]; omega⟩
      intro l hl
      rcases mem_cons.mp hl with rfl | hl
      · refine ⟨?_,by omega⟩
        rw [← length_pos_iff]
        omega
      · exact hv l hl
    split at h
    · cases h
    dsimp only at h
    split_ifs at h
    obtain ⟨r,hrec,heq⟩ := Option.map_eq_some_iff.mp h
    cases heq
    exact ih hr hrec

theorem decodeName_valid {used : Nat} (h : decodeName msg pos = some (ls,used)) :
    NameValid ls ∧ (wire ls).length ≤ nsMaxCdname :=
  unpackFrom_valid (by decide) h

theorem wire_length_ne_two (hv : NameValid ls) : (wire ls).length ≠ 2 := by
  cases ls with
  | nil => simp [wire]
  | cons l ls =>
    have hl : 0 < l.length := length_pos_iff.mpr (hv l mem_cons_self).1
    have hw : 0 < (wire ls).length := length_pos_iff.mpr (wire_ne_nil ls)
    rw [wire_length_cons]
    omega

theorem unpackFrom_literal (hv : NameValid ls)
    (h : unpackFrom msg fuel checked room pos = some (ls,(wire ls).length)) :
    At msg pos (wire ls) := by
  induction fuel generalizing checked room pos ls with
  | zero => cases h
  | succ fuel ih =>
    unfold unpackFrom at h
    cases hb : msg[pos]? with
    | none => simp [hb] at h
    | some n =>
      simp only [hb] at h
      split_ifs at h with hz hn hroom hp
      · obtain ⟨rfl,-⟩ := Prod.mk.inj (Option.some.inj h)
        have h0 : n = 0 := UInt8.toNat_inj.mp hz
        rw [wire,at_cons,hb,h0]
        exact ⟨rfl,at_nil _ _⟩
      · split at h
        · cases h
        rename_i ks used hrec
        obtain ⟨rfl,hu⟩ := Prod.mk.inj (Option.some.inj h)
        have hlab : ((msg.drop (pos + 1)).take n.toNat).length = n.toNat := by
          rw [length_take,length_drop]
          omega
        rw [wire_length_cons,hlab] at hu
        obtain rfl : used = (wire ks).length := by omega
        have hrest := ih (forall_mem_cons.mp hv).2 hrec
        rw [wire,cons_append,at_cons,at_append,hlab,UInt8.ofNat_toNat]
        exact ⟨hb,at_slice _,hrest⟩
      split at h
      · cases h
      · split_ifs at h
        obtain ⟨r,-,heq⟩ := Option.map_eq_some_iff.mp h
        exact absurd (Prod.mk.inj heq).2.symm (wire_length_ne_two hv)

structure NameFits (ls : List Label) : Prop where
  valid : NameValid ls
  length : (wire ls).length ≤ nsMaxCdname

def wires (names : List (List Label)) : List UInt8 := (names.map wire).flatten

def PlainRdata (rtype : Nat) (rdata : List UInt8) : Prop :=
  match rdataShape rtype with
  | none => True
  | some sh => ∃ (lead tail : List UInt8) (names : List (List Label)),
      lead.length = sh.lead ∧ tail.length = sh.tail ∧ names.length = sh.names ∧
      (∀ n ∈ names, NameFits n) ∧ rdata = lead ++ wires names ++ tail

structure Rr.WellFormed (r : Rr) : Prop where
  owner : NameFits r.owner
  fixed : r.fixed.length = 8
  rdlen : r.rdata.length < 65536
  plain : PlainRdata r.rtype r.rdata

theorem rdataShape_bound {sh : RdataShape} (h : rdataShape rtype = some sh) :
    sh.lead ≤ 2 ∧ 1 ≤ sh.names ∧ sh.names ≤ 2 ∧ sh.tail ≤ 20 := by
  unfold rdataShape at h
  split_ifs at h <;> cases h <;> simp

theorem wires_cons (n : List Label) (ns : List (List Label)) :
    wires (n :: ns) = wire n ++ wires ns := by simp [wires]

theorem wires_length_le (h : ∀ n ∈ names, NameFits n) :
    (wires names).length ≤ nsMaxCdname * names.length := by
  induction names with
  | nil => simp [wires]
  | cons n ns ih =>
    have hn := (h n mem_cons_self).length
    have hns := ih (forall_mem_cons.mp h).2
    rw [wires_cons,length_append,length_cons,Nat.mul_succ]
    omega

theorem decodeNames_sound {k : Nat} {body : List UInt8}
    (h : decodeNames msg k pos = some (body,next)) :
    pos ≤ next ∧ ∃ names : List (List Label), names.length = k ∧ (∀ n ∈ names, NameFits n) ∧
      body = wires names := by
  induction k generalizing pos body next with
  | zero =>
    cases h
    exact ⟨le_rfl,[],rfl,by simp,by simp [wires]⟩
  | succ k ih =>
    unfold decodeNames at h
    split at h
    · cases h
    rename_i ls used hname
    obtain ⟨⟨b,nx⟩,hrec,heq⟩ := Option.map_eq_some_iff.mp h
    cases heq
    obtain ⟨hle,names,hlen,hfit,rfl⟩ := ih hrec
    obtain ⟨hv,hl⟩ := decodeName_valid hname
    refine ⟨by omega,ls :: names,by simp [hlen],?_,(wires_cons _ _).symm⟩
    intro n hn
    rcases mem_cons.mp hn with rfl | hn
    · exact ⟨hv,hl⟩
    · exact hfit n hn

theorem decodeNames_wires (hfit : ∀ n ∈ names, NameFits n) (hat : At msg pos (wires names)) :
    decodeNames msg names.length pos = some (wires names,pos + (wires names).length) := by
  induction names generalizing pos with
  | nil => simp [decodeNames,wires]
  | cons n ns ih =>
    rw [wires_cons,at_append] at hat
    have hn := hfit n mem_cons_self
    have hrec := ih (forall_mem_cons.mp hfit).2 hat.2
    rw [length_cons,decodeNames,decodeName_wire hn.valid hn.length hat.1]
    simp only [hrec,Option.map_some,wires_cons,length_append,Nat.add_assoc]

section

variable (h : decodeRdata msg rtype pos len = some rdata)
include h

theorem decodeRdata_raw (hs : rdataShape rtype = none) : rdata = (msg.drop pos).take len := by
  rw [decodeRdata,hs] at h
  exact (Option.some.inj h).symm

theorem decodeRdata_shaped {sh : RdataShape} (hs : rdataShape rtype = some sh) :
    ∃ body next, decodeNames msg sh.names (pos + sh.lead) = some (body,next) ∧
      next + sh.tail = pos + len ∧
      rdata = (msg.drop pos).take sh.lead ++ body ++ (msg.drop next).take sh.tail := by
  simp only [decodeRdata,hs] at h
  split at h
  · cases h
  rename_i body next hnames
  split_ifs at h with hend
  exact ⟨body,next,hnames,hend,(Option.some.inj h).symm⟩

theorem decodeRdata_plain (hpos : pos + len ≤ msg.length) :
    PlainRdata rtype rdata ∧ rdata.length ≤ max len 532 := by
  unfold PlainRdata
  cases hs : rdataShape rtype with
  | none =>
    rw [decodeRdata_raw h hs,length_take]
    exact ⟨trivial,by omega⟩
  | some sh =>
    obtain ⟨body,next,hnames,hend,rfl⟩ := decodeRdata_shaped h hs
    obtain ⟨hle,names,hlen,hfit,rfl⟩ := decodeNames_sound hnames
    have hb := rdataShape_bound hs
    have hw := wires_length_le hfit
    have hlead : ((msg.drop pos).take sh.lead).length = sh.lead := by
      rw [length_take,length_drop]
      omega
    have htail : ((msg.drop next).take sh.tail).length = sh.tail := by
      rw [length_take,length_drop]
      omega
    have hm : nsMaxCdname * names.length ≤ 510 := by
      unfold nsMaxCdname
      omega
    refine ⟨⟨_,_,names,hlead,htail,hlen,hfit,rfl⟩,?_⟩
    simp only [length_append]
    omega

end

theorem plainRdata_nil (h : PlainRdata rtype []) : rdataShape rtype = none := by
  cases hs : rdataShape rtype with
  | none => rfl
  | some sh =>
    simp only [PlainRdata,hs] at h
    obtain ⟨lead,tail,names,-,-,hlen,-,heq⟩ := h
    obtain ⟨n,ns,rfl⟩ := exists_cons_of_length_pos (l := names)
      (by have := rdataShape_bound hs; omega)
    simp [wires_cons,wire_ne_nil] at heq

theorem decodeRdata_wires (hp : PlainRdata rtype rdata) (hat : At msg pos rdata) :
    decodeRdata msg rtype pos rdata.length = some rdata := by
  unfold PlainRdata at hp
  unfold decodeRdata
  cases hs : rdataShape rtype with
  | none => simp only [at_take hat]
  | some sh =>
    simp only [hs] at hp
    obtain ⟨lead,tail,names,hlead,htail,hnames,hfit,rfl⟩ := hp
    rw [at_append,at_append,length_append] at hat
    obtain ⟨⟨hl,hw⟩,ht⟩ := hat
    have hdec := decodeNames_wires hfit hw
    rw [hnames,hlead] at hdec
    simp only [hdec]
    rw [if_pos (by simp only [length_append]; omega)]
    have h1 : (msg.drop pos).take sh.lead = lead := hlead ▸ at_take hl
    have h2 : (msg.drop (pos + sh.lead + (wires names).length)).take sh.tail = tail := by
      rw [← hlead,← htail,Nat.add_assoc]
      exact at_take ht
    rw [h1,h2]

variable {r : Rr}

theorem encodeRr_length (hf : r.fixed.length = 8) :
    (encodeRr r).length = (wire r.owner).length + 10 + r.rdata.length := by
  simp only [encodeRr,lengthBytes,length_append,hf,length_cons,length_nil]
  omega

theorem decodeRr_eq_some (h : decodeRr msg pos = some (r,next)) :
    ∃ used rdlen, decodeName msg pos = some (r.owner,used) ∧
      rdlen = be16 (msg.getD (pos + used + 8) 0) (msg.getD (pos + used + 9) 0) ∧
      next = pos + used + 10 + rdlen ∧ next ≤ msg.length ∧
      r.fixed = (msg.drop (pos + used)).take 8 ∧
      decodeRdata msg r.rtype (pos + used + 10) rdlen = some r.rdata := by
  unfold decodeRr at h
  split at h
  · cases h
  rename_i owner used hname
  dsimp only at h
  split_ifs at h with hlen
  obtain ⟨rdata,hrd,heq⟩ := Option.map_eq_some_iff.mp h
  cases heq
  exact ⟨used,_,hname,rfl,rfl,by omega,rfl,hrd⟩

theorem decodeRr_sound (h : decodeRr msg pos = some (r,next)) :
    r.WellFormed ∧ pos + 11 ≤ next ∧ next ≤ msg.length := by
  obtain ⟨used,rdlen,hname,hrdlen,rfl,hend,hfixed,hrd⟩ := decodeRr_eq_some h
  obtain ⟨hv,hl⟩ := decodeName_valid hname
  obtain ⟨hplain,hrl⟩ := decodeRdata_plain hrd hend
  have hb := be16_lt (msg.getD (pos + used + 8) 0) (msg.getD (pos + used + 9) 0)
  have hu := unpackFrom_used hname
  refine ⟨⟨⟨hv,hl⟩,?_,lt_of_le_of_lt hrl (by omega),hplain⟩,by omega,hend⟩
  rw [hfixed,length_take,length_drop]
  omega

theorem decodeRr_encodeRr (hr : r.WellFormed) (hat : At msg pos (encodeRr r)) :
    decodeRr msg pos = some (r,pos + (encodeRr r).length) := by
  have hlen := encodeRr_length hr.fixed
  have hend := at_end hat (length_pos_iff.mp (by omega))
  rw [encodeRr,at_append,at_append,at_append,lengthBytes] at hat
  obtain ⟨hown,hfix,hsize,hrd⟩ := hat
  have h8 : msg[pos + (wire r.owner).length + 8]? = some (UInt8.ofNat (r.rdata.length / 256)) := by
    have := (at_cons.mp hsize).1
    rwa [hr.fixed] at this
  have h9 : msg[pos + (wire r.owner).length + 9]? = some (UInt8.ofNat r.rdata.length) := by
    have := (at_cons.mp (at_cons.mp hsize).2).1
    rwa [hr.fixed] at this
  have hf8 : (msg.drop (pos + (wire r.owner).length)).take 8 = r.fixed := hr.fixed ▸ at_take hfix
  rw [hr.fixed,length_cons,length_cons,length_nil] at hrd
  unfold decodeRr
  rw [decodeName_wire hr.owner.valid hr.owner.length hown]
  simp only [getD_eq_getElem?_getD,h8,h9,Option.getD_some,be16_split hr.rdlen,hf8]
  rw [if_neg (by omega)]
  have hdec := decodeRdata_wires hr.plain hrd
  simp only [Rr.rtype,getD_eq_getElem?_getD] at hdec
  rw [show pos + (wire r.owner).length + 10 = pos + (wire r.owner).length + 8 + 2 from rfl,hdec,
    hlen]
  simp only [Option.map_some,Option.some.injEq,Prod.mk.injEq,true_and]
  omega

theorem encodeRrs_cons (r : Rr) (rs : List Rr) :
    encodeRrs (r :: rs) = encodeRr r ++ encodeRrs rs := by
  simp [encodeRrs]

theorem encodeRrs_append (rs qs : List Rr) :
    encodeRrs (rs ++ qs) = encodeRrs rs ++ encodeRrs qs := by
  simp [encodeRrs]

theorem decodeRrs_sound {n : Nat} {rs : List Rr} (hpos : pos ≤ msg.length)
    (h : decodeRrs msg n pos = some (rs,next)) :
    rs.length = n ∧ (∀ r ∈ rs, r.WellFormed) ∧ pos + 11 * n ≤ next ∧ next ≤ msg.length := by
  induction n generalizing pos rs next with
  | zero =>
    cases h
    exact ⟨rfl,by simp,le_rfl,hpos⟩
  | succ n ih =>
    unfold decodeRrs at h
    split at h
    · cases h
    rename_i r p hr
    obtain ⟨⟨qs,q⟩,hrec,heq⟩ := Option.map_eq_some_iff.mp h
    cases heq
    obtain ⟨hw,hp,hend⟩ := decodeRr_sound hr
    obtain ⟨hlen,hwf,hle,hnext⟩ := ih hend hrec
    refine ⟨by simp [hlen],?_,by simp only; omega,hnext⟩
    intro k hk
    rcases mem_cons.mp hk with rfl | hk
    · exact hw
    · exact hwf k hk

theorem decodeRrs_encodeRrs {rs : List Rr} (hrs : ∀ r ∈ rs, r.WellFormed)
    (hat : At msg pos (encodeRrs rs)) :
    decodeRrs msg rs.length pos = some (rs,pos + (encodeRrs rs).length) := by
  induction rs generalizing pos with
  | nil => simp [decodeRrs,encodeRrs]
  | cons r rs ih =>
    rw [encodeRrs_cons,at_append] at hat
    have hr := decodeRr_encodeRr (hrs r mem_cons_self) hat.1
    have hrec := ih (forall_mem_cons.mp hrs).2 hat.2
    rw [length_cons,decodeRrs,hr]
    simp only [hrec,Option.map_some,encodeRrs_cons,length_append,Nat.add_assoc]

def encodeMessage (m : Message) : List UInt8 :=
  m.header ++ (wire m.question ++ (m.qfixed ++ encodeRrs m.records))

structure Message.WellFormed (m : Message) : Prop where
  header : m.header.length = 12
  qdcount : count m.header 4 = 1
  ancount : count m.header 6 = m.answers.length
  nscount : count m.header 8 = m.authority.length
  arcount : count m.header 10 = m.additional.length
  question : NameFits m.question
  qfixed : m.qfixed.length = 4
  records : ∀ r ∈ m.records, r.WellFormed

theorem decodeMessage_encodeMessage {m : Message} (hm : m.WellFormed) :
    decodeMessage (encodeMessage m) = some m := by
  have hhead : (encodeMessage m).take 12 = m.header := hm.header ▸ take_left
  have hlen : (encodeMessage m).length =
      12 + (wire m.question).length + 4 + (encodeRrs m.records).length := by
    simp only [encodeMessage,length_append,hm.header,hm.qfixed]
    omega
  have hat : At (encodeMessage m) 12 (wire m.question ++ (m.qfixed ++ encodeRrs m.records)) := by
    have h : (encodeMessage m).drop m.header.length = _ := drop_left
    rw [hm.header] at h
    exact at_full h
  rw [at_append,at_append,hm.qfixed] at hat
  obtain ⟨hq,hqf,hrs⟩ := hat
  have hq4 : ((encodeMessage m).drop (12 + (wire m.question).length)).take 4 = m.qfixed :=
    hm.qfixed ▸ at_take hqf
  rw [Message.records,encodeRrs_append,encodeRrs_append,at_append,at_append] at hrs
  obtain ⟨⟨han,hns⟩,har⟩ := hrs
  have wf := hm.records
  simp only [Message.records,forall_mem_append] at wf
  have dan := decodeRrs_encodeRrs wf.1.1 han
  have dns := decodeRrs_encodeRrs wf.1.2 hns
  have dar := decodeRrs_encodeRrs wf.2 har
  rw [length_append,← Nat.add_assoc] at dar
  unfold decodeMessage
  simp only [hhead,hm.qdcount,hm.ancount,hm.nscount,hm.arcount]
  rw [if_neg (by omega),decodeName_wire hm.question.valid hm.question.length hq]
  simp only
  rw [if_neg (by omega),dan]
  simp only [dns,dar]
  rw [if_pos (by
    rw [hlen,Message.records,encodeRrs_append,encodeRrs_append,length_append,length_append]
    omega),hq4]

def SectionsAt (msg : List UInt8) : List (List Rr) → Nat → Prop
  | [], _ => True
  | rs :: rss, pos => ∃ next, decodeRrs msg rs.length pos = some (rs,next) ∧ SectionsAt msg rss next

structure DecodedAt (msg : List UInt8) (m : Message) : Prop where
  wellFormed : m.WellFormed
  header : m.header = msg.take 12
  question : At msg 12 (wire m.question)
  qfixed : At msg (12 + (wire m.question).length) m.qfixed
  records : SectionsAt msg [m.answers,m.authority,m.additional] (12 + (wire m.question).length + 4)

theorem decodeMessage_sound {m : Message} (h : decodeMessage msg = some m) : DecodedAt msg m := by
  unfold decodeMessage at h
  dsimp only at h
  split_ifs at h with h12
  split at h
  · cases h
  rename_i question used hname
  split_ifs at h with hused
  split at h
  · cases h
  rename_i an p1 han
  split at h
  · cases h
  rename_i ns p2 hns
  split at h
  · cases h
  rename_i ar p3 har
  split_ifs at h with hend
  cases h
  obtain rfl : used = (wire question).length := by omega
  obtain ⟨hv,hl⟩ := decodeName_valid hname
  obtain ⟨nan,wan,-,ean⟩ := decodeRrs_sound (by omega) han
  obtain ⟨nns,wns,-,ens⟩ := decodeRrs_sound ean hns
  obtain ⟨nar,war,-,-⟩ := decodeRrs_sound ens har
  refine ⟨⟨?_,not_ne_iff.mp (not_or.mp h12).2,nan.symm,nns.symm,nar.symm,⟨hv,hl⟩,?_,?_⟩,rfl,
    unpackFrom_literal hv hname,at_slice 4,p1,?_,p2,?_,p3,?_,trivial⟩
  · simp only [length_take]
    omega
  · simp only [length_take,length_drop]
    omega
  · simp only [Message.records,forall_mem_append]
    exact ⟨⟨wan,wns⟩,war⟩
  · rw [nan]
    exact han
  · rw [nns]
    exact hns
  · rw [nar]
    exact har

end FuzzingTargets.DnsProxy
