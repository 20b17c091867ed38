import FuzzingTargets.Connman.DnsProxy.Message
import FuzzingTargets.Connman.DnsProxy.Uncompress

namespace FuzzingTargets.DnsProxy
open Bytes Checked Slices List

def text : List Label → List UInt8
  | [] => []
  | l :: ls => UInt8.ofNat l.length :: l ++ text ls

def NulFree (ls : List Label) : Prop := ∀ l ∈ ls, (0 : UInt8) ∉ l

instance (ls : List Label) : Decidable (NulFree ls) := inferInstanceAs (Decidable (∀ l ∈ ls, _))

structure Expandable (r : Rr) : Prop where
  classIn : r.rclass = 1
  copied : r.rtype ∈ [1,28,5,6] ∨ r.rdata = []
  owner : NulFree r.owner

theorem wire_eq_text (ls : List Label) : wire ls = text ls ++ [0] := by
  induction ls with
  | nil => rfl
  | cons l ls ih => simp only [wire,text,ih,append_assoc]

theorem text_nulFree {ls : List Label} (hv : NameValid ls) (hn : NulFree ls) : 0 ∉ text ls := by
  induction ls with
  | nil => simp [text]
  | cons l ls ih =>
    have hls := ih (forall_mem_cons.mp hv).2
      (forall_mem_cons.mp hn).2
    obtain ⟨hne,h64⟩ := hv l mem_cons_self
    have hpos : 0 < l.length := length_pos_iff.mpr hne
    have hlen : UInt8.ofNat l.length ≠ 0 := by
      intro h
      have := congrArg UInt8.toNat h
      rw [UInt8.toNat_ofNat'] at this
      simp only [UInt8.toNat_zero] at this
      omega
    simp only [text,cons_append,mem_cons,mem_append,not_or]
    exact ⟨fun h => hlen h.symm,hn l mem_cons_self,hls⟩

structure Holds (buf : List UInt8) (upos : Nat) (out : List UInt8) : Prop where
  size : buf.length = nsMaxDname
  upos : upos = out.length
  content : out <+: buf

theorem charWord16_small {hi lo : UInt8} {n : Nat} (hn : n < 128) :
    charWord16 hi lo = n ↔ be16 hi lo = n := by
  have := hi.toNat_lt
  have := lo.toNat_lt
  unfold charWord16 charWord schar be16
  split_ifs <;> omega

theorem lengthBytes_small {n : Nat} (h : n < 256) :
    [UInt8.ofNat (n * 256),UInt8.ofNat n] = lengthBytes n := by
  have h1 : UInt8.ofNat (n * 256) = UInt8.ofNat (n / 256) := by
    apply UInt8.toNat_inj.mp
    rw [UInt8.toNat_ofNat',UInt8.toNat_ofNat']
    omega
  rw [h1,lengthBytes]

theorem lengthBytes_be16 (hi lo : UInt8) : lengthBytes (be16 hi lo) = [hi,lo] := by
  have := hi.toNat_lt
  have := lo.toNat_lt
  have h1 : UInt8.ofNat (be16 hi lo / 256) = hi := by
    apply UInt8.toNat_inj.mp
    rw [UInt8.toNat_ofNat',be16]
    omega
  have h2 : UInt8.ofNat (be16 hi lo) = lo := by
    apply UInt8.toNat_inj.mp
    rw [UInt8.toNat_ofNat',be16]
    omega
  rw [lengthBytes,h1,h2]

theorem holds_store {buf pre bs buf' : List UInt8} {upos : Nat} (h : Holds buf upos pre)
    (hs : storeSlice Fault.uncompressed buf upos bs = .ok buf') :
    Holds buf' (upos + bs.length) (pre ++ bs) := by
  refine ⟨(storeSlice_length hs).trans h.size,?_,?_⟩
  · rw [length_append,← h.upos]
  · rw [h.upos] at hs
    exact storeSlice_extends h.content hs

theorem holds_patch {buf pre old new post buf' : List UInt8} {upos i : Nat}
    (h : Holds buf upos (pre ++ old ++ post)) (hlen : old.length = new.length)
    (hi : i = pre.length) (hs : storeSlice Fault.uncompressed buf i new = .ok buf') :
    Holds buf' upos (pre ++ new ++ post) := by
  refine ⟨(storeSlice_length hs).trans h.size,?_,?_⟩
  · rw [h.upos]
    simp only [length_append,hlen]
  · rw [hi] at hs
    rw [append_assoc]
    exact storeSlice_patches (append_assoc pre old post ▸ h.content) hlen hs

section

variable {L : NameCodec} {msg pre : List UInt8} {hi lo : UInt8} {s s' : Cursor}

section

variable (h : Holds s.buf s.upos (pre ++ [hi,lo]))
include h

theorem holds_field : s.upos - 2 = pre.length := by
  rw [h.upos,length_append]
  rfl

theorem copyCname_emits (hc : copyCname L msg s = .ok (some s')) :
    ∃ ls used, decodeName msg s.ptr = some (ls,used) ∧ s'.ptr = s.ptr + used ∧
      Holds s'.buf s'.upos (pre ++ lengthBytes (wire ls).length ++ wire ls) := by
  unfold copyCname at hc
  split at hc
  · cases hc
  rename_i w pos hl
  obtain ⟨ls,hdec,rfl,-,hw⟩ := convertLabel_eq_some hl
  obtain ⟨b1,hb1,hc⟩ := bind_eq_ok hc
  obtain ⟨b2,hb2,hc⟩ := bind_eq_ok hc
  cases hc
  rw [nsMaxLabel] at hw
  rw [lengthBytes_small (by omega)] at hb2
  exact ⟨ls,pos,hdec,rfl,holds_patch (holds_store h hb1) rfl (holds_field h) hb2⟩

theorem copySoa_emits (hc : copySoa L msg s = .ok (some s')) :
    ∃ names next, decodeNames msg 2 s.ptr = some (names,next) ∧ s'.ptr = next + 20 ∧
      Holds s'.buf s'.upos (pre ++ lengthBytes (names ++ (msg.drop next).take 20).length ++
        (names ++ (msg.drop next).take 20)) := by
  unfold copySoa at hc
  split at hc
  · cases hc
  rename_i w1 pos1 hl1
  obtain ⟨ls1,hdec1,rfl,-,hw1⟩ := convertLabel_eq_some hl1
  obtain ⟨b1,hb1,hc⟩ := bind_eq_ok hc
  split at hc
  · cases hc
  rename_i w2 pos2 hl2
  obtain ⟨ls2,hdec2,rfl,-,hw2⟩ := convertLabel_eq_some hl2
  obtain ⟨b2,hb2,hc⟩ := bind_eq_ok hc
  obtain ⟨tail,htail,hc⟩ := bind_eq_ok hc
  obtain ⟨b3,hb3,hc⟩ := bind_eq_ok hc
  obtain ⟨b4,hb4,hc⟩ := bind_eq_ok hc
  cases hc
  obtain ⟨hle,ht⟩ := loadSlice_eq_ok htail
  have hlen : tail.length = 20 := by
    rw [ht,length_take,length_drop]
    omega
  have h3 := holds_store (holds_store (holds_store h hb1) hb2) hb3
  rw [nsMaxLabel] at hw1 hw2
  rw [lengthBytes_small (by omega)] at hb4
  refine ⟨wire ls1 ++ wire ls2,s.ptr + pos1 + pos2,?_,rfl,?_⟩
  · simp [decodeNames,hdec1,hdec2]
  rw [append_assoc,append_assoc] at h3
  have h4 := holds_patch h3 (by rfl) (holds_field h) hb4
  rw [← ht]
  simp only [length_append,hlen,append_assoc,Nat.add_assoc] at h4 ⊢
  exact h4

theorem copyAddress_emits (hc : copyAddress msg (charWord hi lo) s = .ok (some s')) :
    s'.ptr = s.ptr + be16 hi lo ∧ s.ptr + be16 hi lo ≤ msg.length ∧
      Holds s'.buf s'.upos (pre ++ [hi,lo] ++ (msg.drop s.ptr).take (be16 hi lo)) := by
  unfold copyAddress at hc
  split at hc
  · cases hc
  obtain ⟨data,hdata,hc⟩ := bind_eq_ok hc
  obtain ⟨b,hb,hc⟩ := bind_eq_ok hc
  cases hc
  obtain ⟨hle,rfl⟩ := loadSlice_eq_ok hdata
  have hfit := (storeSlice_eq_ok hb).1
  have hlen : ((msg.drop s.ptr).take (charWord hi lo % 2 ^ 64).toNat).length =
      (charWord hi lo % 2 ^ 64).toNat := by
    rw [length_take,length_drop]
    omega
  rw [hlen,h.size,nsMaxDname] at hfit
  have hge := neg_charWord_le hi lo
  have hsmall : hi.toNat < 128 ∧ lo.toNat < 128 := charWord_nonneg.mp (by omega)
  have hb16 := be16_lt hi lo
  have hn : (charWord hi lo % 2 ^ 64).toNat = be16 hi lo := by
    rw [charWord_eq_be16 hsmall.1 hsmall.2]
    omega
  rw [hn] at hb hle hlen ⊢
  refine ⟨rfl,hle,?_⟩
  have h' := holds_store h hb
  rwa [hlen] at h'

theorem copyData_emits {fixed rdata : List UInt8} (hhi : fixed.getD 8 0 = hi)
    (hlo : fixed.getD 9 0 = lo) (hclass : be16 (fixed.getD 2 0) (fixed.getD 3 0) = 1)
    (hle : s.ptr + be16 hi lo ≤ msg.length)
    (hrd : decodeRdata msg (be16 (fixed.getD 0 0) (fixed.getD 1 0)) s.ptr (be16 hi lo) = some rdata)
    (hkind : be16 (fixed.getD 0 0) (fixed.getD 1 0) ∈ [1,28,5,6] ∨ rdata = [])
    (hc : copyData L msg fixed s = .ok (some s')) : s'.ptr = s.ptr + be16 hi lo ∧
      Holds s'.buf s'.upos (pre ++ lengthBytes rdata.length ++ rdata) := by
  unfold copyData at hc
  simp only [hhi,hlo,ne_eq,charWord16_small (show 1 < 128 by decide),
    charWord16_small (show 5 < 128 by decide),charWord16_small (show 28 < 128 by decide),
    charWord16_small (show 6 < 128 by decide),hclass,not_true,if_false] at hc
  generalize be16 (fixed.getD 0 0) (fixed.getD 1 0) = rtype at hc hrd hkind
  split_ifs at hc with h5 ha h6
  · obtain ⟨ls,used,hdec,hptr,hh⟩ := copyCname_emits h hc
    obtain ⟨body,next,hnames,hend,rfl⟩ := decodeRdata_shaped hrd (by rw [h5]; rfl)
    simp only [decodeNames,Nat.add_zero,hdec,Option.map_some,Option.some.injEq,
      Prod.mk.injEq] at hnames
    obtain ⟨rfl,rfl⟩ := hnames
    simp only [take_zero,append_nil,nil_append] at hend ⊢
    exact ⟨by omega,hh⟩
  · obtain ⟨hptr,-,hh⟩ := copyAddress_emits h hc
    have hraw : rdataShape rtype = none := by rcases ha with rfl | rfl <;> rfl
    have hlen : ((msg.drop s.ptr).take (be16 hi lo)).length = be16 hi lo := by
      rw [length_take,length_drop]
      omega
    rw [decodeRdata_raw hrd hraw,hlen,lengthBytes_be16]
    exact ⟨hptr,hh⟩
  · obtain ⟨names,next,hdec,hptr,hh⟩ := copySoa_emits h hc
    obtain ⟨body,next',hnames,hend,rfl⟩ := decodeRdata_shaped hrd (by rw [h6]; rfl)
    rw [Nat.add_zero,hdec] at hnames
    obtain ⟨rfl,rfl⟩ := Prod.mk.inj (Option.some.inj hnames)
    simp only [take_zero,nil_append] at hend ⊢
    exact ⟨by omega,hh⟩
  obtain rfl : rdata = [] := by
    rcases hkind with hk | hk
    · simp only [mem_cons,not_mem_nil,or_false] at hk
      omega
    · exact hk
  cases hc
  have hraw := plainRdata_nil (decodeRdata_plain hrd hle).1
  have hzero : be16 hi lo = 0 := by
    have hl := congrArg List.length (decodeRdata_raw hrd hraw)
    rw [length_take,length_drop,length_nil] at hl
    omega
  rw [hzero,length_nil,← hzero,lengthBytes_be16,append_nil]
  exact ⟨by omega,h⟩

end

theorem strncpy_holds {buf out name buf' : List UInt8} {upos : Nat} (h : Holds buf upos out)
    (hfit : upos + strlen name ≤ nsMaxDname) (hs : strncpy buf upos name = .ok buf') :
    Holds buf' (upos + strlen name) (out ++ cstring name) := by
  have hsize := (storeSlice_length hs).trans h.size
  refine ⟨hsize,?_,?_⟩
  · rw [length_append,← h.upos,strlen]
  have hlen : (cstring name).length ≤ nsMaxDname - upos := Nat.le_sub_of_add_le' hfit
  have hp : cstring name <+:
      (cstring name ++ replicate (nsMaxDname - upos) 0).take (nsMaxDname - upos) := by
    rw [take_append,take_of_length_le hlen]
    exact prefix_append _ _
  rw [h.upos] at hs hp
  exact ((prefix_append_right_inj out).mpr hp).trans (storeSlice_extends h.content hs)

theorem take_two {xs : List UInt8} (h : 2 ≤ xs.length) : xs.take 2 = [xs.getD 0 0,xs.getD 1 0] := by
  match xs, h with
  | x :: y :: rest, _ => rfl

theorem take_ten {f : Nat} (h : f + 10 ≤ msg.length) : (msg.drop f).take 10 =
      (msg.drop f).take 8 ++ [msg.getD (f + 8) 0,msg.getD (f + 9) 0] := by
  have htwo := @take_two (msg.drop (f + 8)) (by rw [length_drop]; omega)
  rw [show 10 = 8 + 2 from rfl,take_add,drop_drop,htwo]
  simp only [getD_eq_getElem?_getD,getElem?_drop,Nat.add_zero,Nat.add_assoc]

theorem uncompressRecord_emits {out : List UInt8} {r : Rr} {next : Nat} (h : Holds s.buf s.upos out)
    (hr : decodeRr msg s.ptr = some (r,next)) (hx : Expandable r)
    (hc : uncompressRecord L msg s = .ok (some s')) :
    s'.ptr = next ∧ Holds s'.buf s'.upos (out ++ encodeRr r) := by
  obtain ⟨used,rdlen,hname,hrdlen,rfl,hend,hfixed,hrd⟩ := decodeRr_eq_some hr
  obtain ⟨hv,hl⟩ := decodeName_valid hname
  unfold uncompressRecord at hc
  split at hc
  · cases hc
  rename_i name pos hlabel
  obtain ⟨ls,hdec,rfl,-⟩ := convertLabel_eq_some hlabel
  rw [hname] at hdec
  obtain ⟨rfl,rfl⟩ := Prod.mk.inj (Option.some.inj hdec)
  obtain ⟨b1,hb1,hc⟩ := bind_eq_ok hc
  obtain ⟨b2,hb2,hc⟩ := bind_eq_ok hc
  obtain ⟨fixed,hfix,hc⟩ := bind_eq_ok hc
  obtain ⟨b3,hb3,hc⟩ := bind_eq_ok hc
  obtain ⟨-,rfl⟩ := loadSlice_eq_ok hfix
  have hfit := (storeSlice_eq_ok hb2).1
  have hsize := storeSlice_length hb1
  have h1 := strncpy_holds h (by rw [← h.size]; omega) hb1
  have h2 := holds_store h1 hb2
  have h3 := holds_store h2 hb3
  rw [nsRrFixedSz,take_ten (by omega),← hfixed] at h3 hc
  have hf8 : r.fixed.length = 8 := (decodeRr_sound hr).1.fixed
  generalize msg.getD (s.ptr + used + 8) 0 = hi at hrdlen h3 hc
  generalize msg.getD (s.ptr + used + 9) 0 = lo at hrdlen h3 hc
  have hget : ∀ i < 8, (r.fixed ++ [hi,lo]).getD i 0 = r.fixed.getD i 0 := by
    intro i hi8
    rw [getD_eq_getElem?_getD,getElem?_append_left (by omega),getD_eq_getElem?_getD]
  have hhi : (r.fixed ++ [hi,lo]).getD 8 0 = hi := by
    rw [getD_eq_getElem?_getD,getElem?_append_right (by omega),hf8]
    rfl
  have hlo : (r.fixed ++ [hi,lo]).getD 9 0 = lo := by
    rw [getD_eq_getElem?_getD,getElem?_append_right (by omega),hf8]
    rfl
  have hpos : s.upos + strlen (wire r.owner) + [(0 : UInt8)].length + (r.fixed ++ [hi,lo]).length =
      s.upos + strlen (wire r.owner) + 1 + 10 := by
    rw [length_append,hf8]
    rfl
  rw [hpos,wire_eq_text,cstring_terminated (text_nulFree hv hx.owner),append_assoc out,← wire_eq_text,
    ← append_assoc] at h3
  have htype : be16 ((r.fixed ++ [hi,lo]).getD 0 0) ((r.fixed ++ [hi,lo]).getD 1 0) = r.rtype := by
    rw [hget 0 (by decide),hget 1 (by decide),Rr.rtype]
  have hclass : be16 ((r.fixed ++ [hi,lo]).getD 2 0) ((r.fixed ++ [hi,lo]).getD 3 0) = 1 := by
    rw [hget 2 (by decide),hget 3 (by decide)]
    exact hx.classIn
  rw [hrdlen] at hend hrd ⊢
  obtain ⟨hptr,hh⟩ := copyData_emits h3 hhi hlo hclass hend (by rwa [htype])
    (by rw [htype]; exact hx.copied) hc
  refine ⟨hptr,?_⟩
  rw [encodeRr]
  simpa only [append_assoc] using hh

theorem uncompress_emits {n : Nat} {out : List UInt8} {rs : List Rr} {next : Nat}
    (h : Holds s.buf s.upos out) (hr : decodeRrs msg n s.ptr = some (rs,next))
    (hx : ∀ r ∈ rs, Expandable r) (hc : uncompress L msg n s = .ok (some s')) :
    s'.ptr = next ∧ Holds s'.buf s'.upos (out ++ encodeRrs rs) := by
  induction n generalizing s out rs next with
  | zero =>
    cases hr
    cases hc
    simpa [encodeRrs] using h
  | succ n ih =>
    unfold decodeRrs at hr
    split at hr
    · cases hr
    rename_i r p hrec
    obtain ⟨⟨qs,q⟩,hqs,heq⟩ := Option.map_eq_some_iff.mp hr
    cases heq
    have hp := (decodeRr_sound hrec).2
    rw [uncompress,if_pos (by omega)] at hc
    obtain ⟨o,ho,hc⟩ := bind_eq_ok hc
    cases o with
    | none => cases hc
    | some s1 =>
      obtain ⟨hptr,h1⟩ := uncompressRecord_emits h hrec (hx r mem_cons_self) ho
      rw [← hptr] at hqs
      obtain ⟨hend,h2⟩ := ih h1 hqs (forall_mem_cons.mp hx).2 hc
      refine ⟨hend,?_⟩
      rwa [encodeRrs_cons,← append_assoc]

end

end FuzzingTargets.DnsProxy
