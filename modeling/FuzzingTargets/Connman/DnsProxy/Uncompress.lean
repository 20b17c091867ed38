import FuzzingTargets.Foundation.Checked
import FuzzingTargets.Connman.DnsProxy.Names

namespace FuzzingTargets.DnsProxy
open Bytes Checked List

inductive Fault where
  | reply (i : Nat)
  | uncompressed (i : Nat)
  | strip (i : Nat)
  deriving DecidableEq

def Fault.OfExpansion : Fault → Prop
  | .reply _ => True
  | .uncompressed _ => True
  | .strip _ => False

def nsRrFixedSz : Nat := 10

structure Cursor where
  ptr : Nat
  buf : List UInt8
  upos : Nat
  deriving DecidableEq

def strncpy (buf : List UInt8) (upos : Nat) (name : List UInt8) : Except Fault (List UInt8) :=
  let n := nsMaxDname - upos
  storeSlice Fault.uncompressed buf upos ((cstring name ++ replicate n 0).take n)

variable (L : NameCodec) (msg : List UInt8)

def copyCname (s : Cursor) : Except Fault (Option Cursor) :=
  match convertLabel L msg s.ptr (nsMaxDname - s.upos) with
  | none => pure none
  | some (w,pos) => do
    let buf ← storeSlice Fault.uncompressed s.buf s.upos w
    let buf ← storeSlice Fault.uncompressed buf (s.upos - 2)
      [UInt8.ofNat (w.length * 256),UInt8.ofNat w.length]
    pure (some ⟨s.ptr + pos,buf,s.upos + w.length⟩)

def copyAddress (dlen : Int) (s : Cursor) : Except Fault (Option Cursor) :=
  if (msg.length : Int) < s.ptr + dlen then pure none
  else do
    let n := (dlen % 2 ^ 64).toNat
    let data ← loadSlice Fault.reply msg s.ptr n
    let buf ← storeSlice Fault.uncompressed s.buf s.upos data
    pure (some ⟨s.ptr + n,buf,s.upos + n⟩)

def copySoa (s : Cursor) : Except Fault (Option Cursor) :=
  match convertLabel L msg s.ptr (nsMaxDname - s.upos) with
  | none => pure none
  | some (w1,pos1) => do
    let buf ← storeSlice Fault.uncompressed s.buf s.upos w1
    match convertLabel L msg (s.ptr + pos1) (nsMaxDname - (s.upos + w1.length)) with
    | none => pure none
    | some (w2,pos2) => do
      let buf ← storeSlice Fault.uncompressed buf (s.upos + w1.length) w2
      let tail ← loadSlice Fault.reply msg (s.ptr + pos1 + pos2) 20
      let buf ← storeSlice Fault.uncompressed buf (s.upos + w1.length + w2.length) tail
      let total := w1.length + w2.length + 20
      let buf ← storeSlice Fault.uncompressed buf (s.upos - 2)
        [UInt8.ofNat (total * 256),UInt8.ofNat total]
      pure (some ⟨s.ptr + pos1 + pos2 + 20,buf,s.upos + total⟩)

def copyData (msg fixed : List UInt8) (s : Cursor) : Except Fault (Option Cursor) :=
  let dnsType := charWord16 (fixed.getD 0 0) (fixed.getD 1 0)
  let dnsClass := charWord16 (fixed.getD 2 0) (fixed.getD 3 0)
  if dnsClass ≠ 1 then pure none
  else if dnsType = 5 then copyCname L msg s
  else if dnsType = 1 ∨ dnsType = 28 then
    copyAddress msg (charWord (fixed.getD 8 0) (fixed.getD 9 0)) s
  else if dnsType = 6 then copySoa L msg s
  else pure (some s)

def uncompressRecord (s : Cursor) : Except Fault (Option Cursor) :=
  match convertLabel L msg s.ptr nsMaxLabel with
  | none => pure none
  | some (name,pos) => do
    let ulen := strlen name
    let buf ← strncpy s.buf s.upos name
    let buf ← storeSlice Fault.uncompressed buf (s.upos + ulen) [0]
    let fixed ← loadSlice Fault.reply msg (s.ptr + pos) nsRrFixedSz
    let buf ← storeSlice Fault.uncompressed buf (s.upos + ulen + 1) fixed
    copyData L msg fixed
      ⟨s.ptr + pos + nsRrFixedSz,buf,s.upos + ulen + 1 + nsRrFixedSz⟩

def fieldCount (n : Nat) : Nat := if n < 32768 then n else 0

def uncompress (L : NameCodec) (msg : List UInt8) : Nat → Cursor → Except Fault (Option Cursor)
  | 0, s => pure (some s)
  | n + 1, s =>
    if s.ptr < msg.length then do
      match ← uncompressRecord L msg s with
      | none => pure none
      | some s' => uncompress L msg n s'
    else pure (some s)

def uncompressSections (L : NameCodec) (msg : List UInt8) :
    List Nat → Cursor → Except Fault (Option Cursor)
  | [], s => pure (some s)
  | n :: ns, s => do
    match ← uncompress L msg (fieldCount n) s with
    | none => pure none
    | some s' => uncompressSections L msg ns s'

structure Visit where
  readEnd : Nat
  writeEnd : Nat
  plainLength : Bool
  next : Option (Nat × Nat)

def Visit.Fits (v : Visit) : Prop :=
  v.readEnd ≤ msg.length ∧ v.writeEnd ≤ nsMaxDname ∧ v.plainLength = true

instance (msg : List UInt8) (v : Visit) : Decidable (v.Fits msg) :=
  inferInstanceAs (Decidable (_ ∧ _ ∧ _))

def visitCname (ptr upos : Nat) : Visit :=
  match convertLabel L msg ptr (nsMaxDname - upos) with
  | none => ⟨ptr,upos,true,none⟩
  | some (w,pos) => ⟨ptr,upos + w.length,true,some (ptr + pos,upos + w.length)⟩

def visitAddress (dlen : Int) (ptr upos : Nat) : Visit :=
  if (msg.length : Int) < ptr + dlen then ⟨ptr,upos,true,none⟩
  else ⟨ptr,upos + dlen.toNat,decide (0 ≤ dlen),some (ptr + dlen.toNat,upos + dlen.toNat)⟩

def visitSoa (ptr upos : Nat) : Visit :=
  match convertLabel L msg ptr (nsMaxDname - upos) with
  | none => ⟨ptr,upos,true,none⟩
  | some (w1,pos1) =>
    match convertLabel L msg (ptr + pos1) (nsMaxDname - (upos + w1.length)) with
    | none => ⟨ptr,upos + w1.length,true,none⟩
    | some (w2,pos2) =>
      ⟨ptr + pos1 + pos2 + 20,upos + (w1.length + w2.length + 20),true,
        some (ptr + pos1 + pos2 + 20,upos + (w1.length + w2.length + 20))⟩

def visitData (msg fixed : List UInt8) (ptr upos : Nat) : Visit :=
  let dnsType := charWord16 (fixed.getD 0 0) (fixed.getD 1 0)
  let dnsClass := charWord16 (fixed.getD 2 0) (fixed.getD 3 0)
  if dnsClass ≠ 1 then ⟨ptr,upos,true,none⟩
  else if dnsType = 5 then visitCname L msg ptr upos
  else if dnsType = 1 ∨ dnsType = 28 then
    visitAddress msg (charWord (fixed.getD 8 0) (fixed.getD 9 0)) ptr upos
  else if dnsType = 6 then visitSoa L msg ptr upos
  else ⟨ptr,upos,true,some (ptr,upos)⟩

def visit (ptr upos : Nat) : Option Visit :=
  match convertLabel L msg ptr nsMaxLabel with
  | none => none
  | some (name,pos) =>
    some (visitData L msg ((msg.drop (ptr + pos)).take nsRrFixedSz) (ptr + pos + nsRrFixedSz)
      (upos + strlen name + 1 + nsRrFixedSz))

def visits (L : NameCodec) (msg : List UInt8) : Nat → Nat × Nat → List Visit × Option (Nat × Nat)
  | 0, q => ([],some q)
  | n + 1, q =>
    if q.1 < msg.length then
      match visit L msg q.1 q.2 with
      | none => ([],none)
      | some v =>
        match v.next with
        | none => ([v],none)
        | some q' => (v :: (visits L msg n q').1,(visits L msg n q').2)
    else ([],some q)

def sectionVisits (L : NameCodec) (msg : List UInt8) : List Nat → Nat × Nat → List Visit
  | [], _ => []
  | n :: ns, q =>
    let r := visits L msg (fieldCount n) q
    r.1 ++ (match r.2 with
      | none => []
      | some q' => sectionVisits L msg ns q')

def sectionEnd (L : NameCodec) (msg : List UInt8) : List Nat → Nat × Nat → Option (Nat × Nat)
  | [], q => some q
  | n :: ns, q =>
    match (visits L msg (fieldCount n) q).2 with
    | none => none
    | some q' => sectionEnd L msg ns q'

structure Follows (m : Except Fault (Option Cursor)) (fits : Prop) (next : Option (Nat × Nat)) :
    Prop where
  ok : fits → ∃ buf : List UInt8, buf.length = nsMaxDname ∧
    m = .ok (next.map fun q => ⟨q.1,buf,q.2⟩)
  fault : ¬fits → ∃ f : Fault, f.OfExpansion ∧ m = .error f

abbrev FollowsVisit (m : Except Fault (Option Cursor)) (v : Visit) : Prop :=
  Follows m (v.Fits msg) v.next

theorem store_fits (buf : List UInt8) (i : Nat) (bs : List UInt8) (h : i + bs.length ≤ buf.length) :
    ∃ out : List UInt8, out.length = buf.length ∧
      storeSlice Fault.uncompressed buf i bs = .ok out :=
  have hs : storeSlice Fault.uncompressed buf i bs = .ok _ := storeSlice_ok h
  ⟨_,storeSlice_length hs,hs⟩

variable {P : Prop}

section

variable (L : NameCodec) (msg : List UInt8) (s : Cursor) {v : Visit} {q : Nat × Nat}
  {m : Except Fault (Option Cursor)} {k : Cursor → Except Fault (Option Cursor)}
  {next : Option (Nat × Nat)}

theorem Follows.done {buf : List UInt8} (hP : P) (hbuf : buf.length = nsMaxDname)
    (h : m = .ok (next.map fun q => ⟨q.1,buf,q.2⟩)) : Follows m P next :=
  ⟨fun _ => ⟨buf,hbuf,h⟩,fun hn => absurd hP hn⟩

theorem Follows.store {buf bs : List UInt8} {i : Nat}
    {k : List UInt8 → Except Fault (Option Cursor)} (hbuf : buf.length = nsMaxDname)
    (hfit : P → i + bs.length ≤ nsMaxDname)
    (hk : i + bs.length ≤ nsMaxDname → ∀ out : List UInt8, out.length = nsMaxDname →
      Follows (k out) P next) : Follows (storeSlice Fault.uncompressed buf i bs >>= k) P next := by
  by_cases h : i + bs.length ≤ nsMaxDname
  · obtain ⟨out,hout,hs⟩ := store_fits buf i bs (by omega)
    rw [hs,bind_ok]
    exact hk h out (hout.trans hbuf)
  · have hs : storeSlice Fault.uncompressed buf i bs = .error (.uncompressed _) := if_neg (by omega)
    exact ⟨fun hP => absurd (hfit hP) h,fun _ => ⟨.uncompressed _,trivial,by rw [hs,bind_error]⟩⟩

theorem Follows.load {i n : Nat} {k : List UInt8 → Except Fault (Option Cursor)}
    (hfit : P → i + n ≤ msg.length) (hk : i + n ≤ msg.length → ((msg.drop i).take n).length = n →
      Follows (k ((msg.drop i).take n)) P next) :
    Follows (loadSlice Fault.reply msg i n >>= k) P next := by
  by_cases h : i + n ≤ msg.length
  · rw [loadSlice_ok h,bind_ok]
    exact hk h (by rw [length_take,length_drop]; omega)
  · have hs : loadSlice Fault.reply msg i n = .error (.reply _) := if_neg h
    exact ⟨fun hP => absurd (hfit hP) h,fun _ => ⟨.reply _,trivial,by rw [hs,bind_error]⟩⟩

section

variable (hbuf : s.buf.length = nsMaxDname) (hu : s.upos ≤ nsMaxDname) (hp : s.ptr ≤ msg.length)
include hbuf hu hp

theorem copyCname_follows (hu2 : 2 ≤ s.upos) :
    FollowsVisit msg (copyCname L msg s) (visitCname L msg s.ptr s.upos) := by
  unfold copyCname visitCname
  cases hc : convertLabel L msg s.ptr (nsMaxDname - s.upos) with
  | none => exact .done ⟨hp,hu,rfl⟩ hbuf rfl
  | some r =>
    have hw := convertLabel_length hc
    refine .store hbuf (fun _ => by omega) fun hfit b1 hb1 => ?_
    refine .store hb1 (fun _ => by simp only [length_cons,length_nil]; omega) fun _ b2 hb2 => ?_
    exact .done ⟨hp,hfit,rfl⟩ hb2 rfl

theorem copyAddress_follows (dlen : Int) (hlt : dlen < 32768) (hge : -32768 ≤ dlen) :
    FollowsVisit msg (copyAddress msg dlen s) (visitAddress msg dlen s.ptr s.upos) := by
  unfold copyAddress visitAddress
  split
  · exact .done ⟨hp,hu,rfl⟩ hbuf rfl
  have hplain (h : 0 ≤ dlen) : (dlen % 2 ^ 64).toNat = dlen.toNat := by omega
  refine .load msg (fun hP => ?_) fun hr hlen =>
    .store hbuf (fun hP => ?_) fun hfit out hout => ?_
  · rw [hplain (of_decide_eq_true hP.2.2)]
    omega
  · rw [hlen,hplain (of_decide_eq_true hP.2.2)]
    exact hP.2.1
  have hpos : 0 ≤ dlen := by
    rw [hlen,nsMaxDname] at hfit
    omega
  rw [hlen] at hfit
  rw [hplain hpos] at hfit ⊢
  exact .done ⟨hp,hfit,decide_eq_true hpos⟩ hout rfl

theorem copySoa_follows (hu2 : 2 ≤ s.upos) :
    FollowsVisit msg (copySoa L msg s) (visitSoa L msg s.ptr s.upos) := by
  unfold copySoa visitSoa
  cases hc1 : convertLabel L msg s.ptr (nsMaxDname - s.upos) with
  | none => exact .done ⟨hp,hu,rfl⟩ hbuf rfl
  | some r1 =>
    have hw1 := convertLabel_length hc1
    refine .store hbuf (fun _ => by omega) fun hfit1 b1 hb1 => ?_
    dsimp only
    cases hc2 : convertLabel L msg (s.ptr + r1.2) (nsMaxDname - (s.upos + r1.1.length)) with
    | none => exact .done ⟨hp,hfit1,rfl⟩ hbuf rfl
    | some r2 =>
      have hw2 := convertLabel_length hc2
      refine .store hb1 (fun _ => by omega) fun _ b2 hb2 => ?_
      refine .load msg (fun hP => hP.1) fun hr hlen => ?_
      refine .store hb2 (fun hP => ?_) fun hfit b3 hb3 => ?_
      · have hend := hP.2.1
        dsimp only at hend
        omega
      refine .store hb3 (fun _ => by simp only [length_cons,length_nil]; omega) fun _ b4 hb4 => ?_
      exact .done ⟨hr,by dsimp only; omega,rfl⟩ hb4 rfl

theorem copyData_follows (fixed : List UInt8) (hu2 : 2 ≤ s.upos) :
    FollowsVisit msg (copyData L msg fixed s) (visitData L msg fixed s.ptr s.upos) := by
  unfold copyData visitData
  simp only
  split
  · exact .done ⟨hp,hu,rfl⟩ hbuf rfl
  split
  · exact copyCname_follows L msg s hbuf hu hp hu2
  split
  · exact copyAddress_follows msg s hbuf hu hp _ (charWord_lt _ _) (neg_charWord_le _ _)
  split
  · exact copySoa_follows L msg s hbuf hu hp hu2
  · exact .done ⟨hp,hu,rfl⟩ hbuf rfl

end

structure Visit.From (ptr upos : Nat) (v : Visit) : Prop where
  reads : ptr ≤ v.readEnd
  writes : upos ≤ v.writeEnd
  next : ∀ q, v.next = some q → q.2 = v.writeEnd

theorem visitData_from (fixed : List UInt8) (ptr upos : Nat) :
    (visitData L msg fixed ptr upos).From ptr upos := by
  have hstop : ∀ w, upos ≤ w → Visit.From ptr upos ⟨ptr,w,true,none⟩ :=
    fun w hw => ⟨le_rfl,hw,nofun⟩
  have hgo : ∀ r w p b, ptr ≤ r → upos ≤ w → Visit.From ptr upos ⟨r,w,b,some (p,w)⟩ := by
    intro r w p b hr hw
    refine ⟨hr,hw,?_⟩
    rintro _ ⟨⟩
    rfl
  unfold visitData visitCname visitAddress visitSoa
  simp only
  split_ifs
  · exact hstop _ le_rfl
  · split
    · exact hstop _ le_rfl
    · exact hgo _ _ _ _ le_rfl (by omega)
  · exact hstop _ le_rfl
  · exact hgo _ _ _ _ le_rfl (by omega)
  · split
    · exact hstop _ le_rfl
    · split
      · exact hstop _ (by omega)
      · exact hgo _ _ _ _ (by omega) (by omega)
  · exact hgo _ _ _ _ le_rfl le_rfl

theorem uncompressRecord_follows (hbuf : s.buf.length = nsMaxDname) (hu : s.upos ≤ nsMaxDname)
    (hv : visit L msg s.ptr s.upos = some v) : FollowsVisit msg (uncompressRecord L msg s) v := by
  unfold visit at hv
  unfold uncompressRecord strncpy
  cases hc : convertLabel L msg s.ptr nsMaxLabel with
  | none => rw [hc] at hv; cases hv
  | some r =>
    obtain ⟨name,pos⟩ := r
    rw [hc] at hv
    cases hv
    obtain ⟨hre,hwe,-⟩ := visitData_from L msg ((msg.drop (s.ptr + pos)).take nsRrFixedSz)
      (s.ptr + pos + nsRrFixedSz) (s.upos + strlen name + 1 + nsRrFixedSz)
    refine .store hbuf (fun _ => ?_) fun _ b1 hb1 => ?_
    · simp only [length_take,length_append,length_replicate]
      omega
    refine .store hb1 (fun hP => ?_) fun _ b2 hb2 => ?_
    · have hend := hwe.trans hP.2.1
      rw [length_singleton]
      omega
    refine .load msg (fun hP => hre.trans hP.1) fun hr hlen => ?_
    refine .store hb2 (fun hP => by rw [hlen]; exact hwe.trans hP.2.1) fun hw b3 hb3 => ?_
    rw [hlen] at hw
    exact copyData_follows L msg ⟨_,b3,_⟩ hb3 hw hr _ (by simp only [nsRrFixedSz]; omega)

theorem visit_next {ptr upos : Nat} (hv : visit L msg ptr upos = some v) (hn : v.next = some q) :
    q.2 = v.writeEnd := by
  unfold visit at hv
  split at hv
  · cases hv
  · cases hv
    exact (visitData_from L msg _ _ _).next q hn

variable {L msg}

theorem Follows.seq {Q : Prop} (hm : Follows m P (some q))
    (hk : P → ∀ buf : List UInt8, buf.length = nsMaxDname → Follows (k ⟨q.1,buf,q.2⟩) Q next) :
    Follows (m >>= fun r => match r with | none => pure none | some s => k s) (P ∧ Q) next := by
  constructor
  · rintro ⟨hP,hQ⟩
    obtain ⟨buf,hbuf,he⟩ := hm.ok hP
    rw [he,bind_ok]
    exact (hk hP buf hbuf).ok hQ
  intro hn
  by_cases hP : P
  · obtain ⟨buf,hbuf,he⟩ := hm.ok hP
    rw [he,bind_ok]
    exact (hk hP buf hbuf).fault (fun hQ => hn ⟨hP,hQ⟩)
  · obtain ⟨f,hf,he⟩ := hm.fault hP
    exact ⟨f,hf,by rw [he,bind_error]⟩

theorem Follows.last (hm : Follows m P none) :
    Follows (m >>= fun r => match r with | none => pure none | some s => k s) P none := by
  constructor
  · intro hP
    obtain ⟨buf,hbuf,he⟩ := hm.ok hP
    exact ⟨buf,hbuf,by rw [he]; rfl⟩
  · intro hP
    obtain ⟨f,hf,he⟩ := hm.fault hP
    exact ⟨f,hf,by rw [he,bind_error]⟩

theorem Follows.congr {Q : Prop} (h : Follows m P next) (hPQ : P ↔ Q) : Follows m Q next :=
  ⟨fun hQ => h.ok (hPQ.mpr hQ),fun hQ => h.fault (fun hP => hQ (hPQ.mp hP))⟩

theorem Follows.avoids (h : Follows m P next) : Avoids Fault.OfExpansion m ↔ P := by
  by_cases hP : P
  · obtain ⟨buf,-,he⟩ := h.ok hP
    rw [he]
    exact iff_of_true (avoids_ok _ _) hP
  · obtain ⟨f,hf,he⟩ := h.fault hP
    rw [he,avoids_error]
    exact iff_of_false (not_not.mpr hf) hP

theorem Follows.ended {r : Option Cursor} (h : Follows m P next) (hr : m = .ok r) :
    r.map (fun c => (c.ptr,c.upos)) = next := by
  by_cases hP : P
  · obtain ⟨buf,-,he⟩ := h.ok hP
    cases he.symm.trans hr
    cases next with
    | none | some q => rfl
  · obtain ⟨f,-,he⟩ := h.fault hP
    cases he.symm.trans hr

theorem uncompress_follows (n : Nat) (hbuf : s.buf.length = nsMaxDname) (hu : s.upos ≤ nsMaxDname) :
    Follows (uncompress L msg n s) (∀ v ∈ (visits L msg n (s.ptr,s.upos)).1, v.Fits msg)
        (visits L msg n (s.ptr,s.upos)).2 ∧
      ((∀ v ∈ (visits L msg n (s.ptr,s.upos)).1, v.Fits msg) →
        ∀ q, (visits L msg n (s.ptr,s.upos)).2 = some q → q.2 ≤ nsMaxDname) := by
  induction n generalizing s with
  | zero =>
    refine ⟨.done nofun hbuf rfl,?_⟩
    rintro - _ ⟨⟩
    exact hu
  | succ n ih =>
    unfold uncompress visits
    split
    · cases hv : visit L msg s.ptr s.upos with
      | none =>
        have hrec : uncompressRecord L msg s = .ok none := by
          unfold visit at hv
          unfold uncompressRecord
          cases hc : convertLabel L msg s.ptr nsMaxLabel with
          | none => rfl
          | some r => rw [hc] at hv; cases hv
        simp only [hrec,bind_ok]
        exact ⟨.done nofun hbuf rfl,nofun⟩
      | some v =>
        have hf := uncompressRecord_follows L msg s hbuf hu hv
        cases hn : v.next with
        | none =>
          rw [FollowsVisit,hn] at hf
          simp only [hn]
          exact ⟨(Follows.last hf).congr forall_mem_singleton.symm,nofun⟩
        | some q =>
          rw [FollowsVisit,hn] at hf
          simp only [hn,forall_mem_cons]
          have hq : v.Fits msg → q.2 ≤ nsMaxDname := fun hfit => visit_next L msg hv hn ▸ hfit.2.1
          refine ⟨.seq hf fun hfit buf hb => (ih ⟨q.1,buf,q.2⟩ hb (hq hfit)).1,?_⟩
          rintro ⟨hfit,hrest⟩
          exact (ih ⟨q.1,s.buf,q.2⟩ hbuf (hq hfit)).2 hrest
    · refine ⟨.done nofun hbuf rfl,?_⟩
      rintro - _ ⟨⟩
      exact hu

theorem uncompressSections_follows (ns : List Nat) (hbuf : s.buf.length = nsMaxDname)
    (hu : s.upos ≤ nsMaxDname) : Follows (uncompressSections L msg ns s)
      (∀ v ∈ sectionVisits L msg ns (s.ptr,s.upos), v.Fits msg)
      (sectionEnd L msg ns (s.ptr,s.upos)) := by
  induction ns generalizing s with
  | nil => exact .done nofun hbuf rfl
  | cons n ns ih =>
    obtain ⟨hf,hupos⟩ := @uncompress_follows L msg s (fieldCount n) hbuf hu
    unfold uncompressSections sectionVisits sectionEnd
    simp only [forall_mem_append]
    cases hr : (visits L msg (fieldCount n) (s.ptr,s.upos)).2 with
    | none =>
      rw [hr] at hf
      exact (Follows.last hf).congr (by simp)
    | some q =>
      rw [hr] at hf
      exact .seq hf fun hfit buf hb => ih ⟨q.1,buf,q.2⟩ hb (hupos hfit q hr)

end

end FuzzingTargets.DnsProxy
