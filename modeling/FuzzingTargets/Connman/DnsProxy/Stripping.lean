import FuzzingTargets.Connman.DnsProxy.Expansion
import FuzzingTargets.Connman.DnsProxy.ForwardReply

namespace FuzzingTargets.DnsProxy
open Bytes Checked Slices List

variable {xs buf pre : List UInt8} {s : StripState} {r : Rr} {rest : List Rr} {host : Label}
  {addr : Nat} {domain : List Label}

theorem fieldCount_small {n : Nat} (h : n < 32768) : fieldCount n = n := if_pos h

theorem wordAt_count {msg : List UInt8} {i : Nat} (h : i + 1 < 12) :
    wordAt msg i = count (msg.take 12) i := by
  unfold wordAt count
  simp only [getD_eq_getElem?_getD]
  rw [getElem?_take_of_lt (by omega),getElem?_take_of_lt (by omega)]

theorem text_length (ls : List Label) : (text ls).length + 1 = (wire ls).length := by
  rw [wire_eq_text,length_append,length_singleton]

theorem loadSlice_at {msg a : List UInt8} {i n : Nat} (hat : At msg i xs) (hn : n = xs.length)
    (h : loadSlice Fault.reply msg i n = .ok a) : a = xs := by
  rw [(loadSlice_eq_ok h).2,hn,at_take hat]

section

variable {L : NameCodec} {msg : List UInt8} {m : Message} {host : Label} {domain : List Label}

theorem uncompressSections_emits {s s' : Cursor} {out : List UInt8} {rss : List (List Rr)}
    (hlen : msg.length ≤ 65535) (hpos : s.ptr ≤ msg.length) (hat : SectionsAt msg rss s.ptr)
    (hx : ∀ r ∈ rss.flatten, Expandable r) (h : Holds s.buf s.upos out)
    (hc : uncompressSections L msg (rss.map length) s = .ok (some s')) :
    Holds s'.buf s'.upos (out ++ encodeRrs rss.flatten) := by
  induction rss generalizing s out with
  | nil =>
    cases hc
    simpa [encodeRrs] using h
  | cons rs rss ih =>
    obtain ⟨next,hrs,hat⟩ := hat
    obtain ⟨-,-,hle,hend⟩ := decodeRrs_sound hpos hrs
    rw [flatten_cons,forall_mem_append] at hx
    rw [map_cons,uncompressSections,fieldCount_small (by omega)] at hc
    obtain ⟨o,ho,hc⟩ := bind_eq_ok hc
    cases o with
    | none => cases hc
    | some s1 =>
      obtain ⟨rfl,h1⟩ := uncompress_emits h hrs hx.1 ho
      rw [flatten_cons,encodeRrs_append,← append_assoc]
      exact ih hend hat hx.2 h1 hc

theorem expandReply_emits {stack : Stack} {s : Cursor} (hm : DecodedAt msg m)
    (hq : m.question = host :: domain) (hlen : msg.length ≤ 65535)
    (hx : ∀ r ∈ m.records, Expandable r)
    (hc : expandReply L msg stack host.length (text domain).length = .ok (some s)) :
    Holds s.buf s.upos (wire [host] ++ m.qfixed ++ encodeRrs m.records) := by
  have hname := hm.question
  have hqf := hm.qfixed
  have hend := at_end hqf (length_pos_iff.mp (by rw [hm.wellFormed.qfixed]; decide))
  have htl := text_length domain
  rw [hq,wire,at_append] at hname
  rw [hq,wire_length_cons] at hqf hend
  obtain ⟨hbytes,hload,hc⟩ := bind_eq_ok hc
  obtain ⟨b1,hb1,hc⟩ := bind_eq_ok hc
  obtain ⟨b2,hb2,hc⟩ := bind_eq_ok hc
  obtain ⟨qbytes,hqload,hc⟩ := bind_eq_ok hc
  obtain ⟨b3,hb3,hc⟩ := bind_eq_ok hc
  have hquestion : qbytes = m.qfixed := by
    refine loadSlice_at hqf hm.wellFormed.qfixed.symm ?_
    rw [← hqload]
    congr 1
    unfold domainHdrSz
    omega
  rw [loadSlice_at hname.1 (by simp) hload] at hb1
  rw [hquestion] at hb3
  rw [loadWord_ok (by omega),bind_ok,loadWord_ok (by omega),bind_ok,loadWord_ok (by omega),
    bind_ok,wordAt_count (by decide),wordAt_count (by decide),wordAt_count (by decide),
    ← hm.header,hm.wellFormed.ancount,hm.wellFormed.nscount,hm.wellFormed.arcount] at hc
  have h0 : Holds stack.1 0 [] := ⟨stack.2,rfl, nil_prefix⟩
  have h1 := holds_store h0 hb1
  have h2 := holds_store h1 (by rwa [Nat.zero_add])
  have h3 := holds_store h2 (by simpa using hb3)
  have hpos : 0 + (UInt8.ofNat host.length :: host).length + [(0 : UInt8)].length +
      m.qfixed.length = host.length + 1 + 1 + 4 := by
    rw [hm.wellFormed.qfixed]
    simp
  rw [hpos] at h3
  have hptr : domainHdrSz + (host.length + 1) + (text domain).length + 1 + 4 =
      12 + (wire m.question).length + 4 := by
    rw [hq,wire_length_cons,domainHdrSz]
    omega
  have hrecords : m.records = [m.answers,m.authority,m.additional].flatten := by
    simp [Message.records]
  rw [hrecords] at hx ⊢
  rw [hm.wellFormed.qfixed] at hend
  refine uncompressSections_emits hlen ?_ (hptr ▸ hm.records) hx (by simpa [wire] using h3) hc
  rw [hptr,hq,wire_length_cons]
  exact hend

end

structure Pending (s : StripState) (pre : List UInt8) (rest : List Rr) : Prop where
  size : s.buf.length = nsMaxDname
  content : pre ++ encodeRrs rest <+: s.buf
  answers : s.answers = pre.length
  stop : s.stop = pre.length + (encodeRrs rest).length
  maxlen : s.maxlen = (encodeRrs rest).length

theorem at_of_prefix (h : pre ++ xs <+: buf) : At buf pre.length xs := by
  have h' : At buf 0 (pre ++ xs) := h
  rw [at_append,Nat.zero_add] at h'
  exact h'.2

theorem cstringAt_terminated {ys : List UInt8} {i : Nat} (hat : At buf i (xs ++ 0 :: ys))
    (hx : 0 ∉ xs) : cstringAt buf i = .ok xs := by
  obtain ⟨rest,hrest⟩ := hat
  have hd : buf.drop i = xs ++ 0 :: (ys ++ rest) := by simp [← hrest]
  rw [cstringAt,hd,if_pos (by simp),cstring_terminated hx]

theorem strstr_prefix (needle hay : List UInt8) : strstr needle (needle ++ hay) = some 0 := by
  cases needle with
  | nil => cases hay <;> simp [strstr]
  | cons c cs => simp [strstr]

theorem text_cons (host : Label) (labels : List Label) :
    text (host :: labels) = text [host] ++ text labels := by
  simp [text]

theorem text_eq_nil {ls : List Label} (h : text ls = []) : ls = [] := by
  cases ls with
  | nil => rfl
  | cons l ls => simp [text] at h

def remainder (r : Rr) (rest : List Rr) : List UInt8 :=
  r.fixed ++ (lengthBytes r.rdata.length ++ r.rdata) ++ encodeRrs rest

theorem encodeRrs_remainder (r : Rr) (rest : List Rr) :
    encodeRrs (r :: rest) = text r.owner ++ 0 :: remainder r rest := by
  rw [encodeRrs_cons,encodeRr,wire_eq_text,remainder]
  simp

theorem cutDomain_host {labels : List Label} (h : Pending s pre (r :: rest))
    (ho : r.owner = host :: labels) (hz : 0 ∉ text labels) :
    ∃ s1, cutDomain (text [host]) s (some 0) = .ok s1 ∧
      Pending s1 pre ({ r with owner := [host] } :: rest) := by
  have hcontent := h.content
  have hstop := h.stop
  have hmax := h.maxlen
  rw [encodeRrs_remainder,ho,text_cons,append_assoc] at hcontent hstop hmax
  have hcut : At s.buf (s.answers + 0 + (text [host]).length) (text labels ++ 0 :: remainder r rest) := by
    have := at_of_prefix hcontent
    rw [at_append] at this
    rw [h.answers]
    exact this.2
  have hnew : encodeRrs ({ r with owner := [host] } :: rest) = text [host] ++ 0 :: remainder r rest :=
    encodeRrs_remainder _ _
  unfold cutDomain
  dsimp only
  rw [cstringAt_terminated hcut hz,bind_ok]
  split
  · rename_i hnil
    have hr : ({ r with owner := [host] } : Rr) = r := by
      rw [← text_eq_nil hnil] at *
      cases r
      simp_all
    refine ⟨s,rfl,?_⟩
    rw [hr]
    exact h
  have hle := hcontent.length_le
  simp only [length_append] at hle hstop hmax
  have hmoved : At s.buf (s.answers + 0 + (text [host]).length + (text labels).length)
      (0 :: remainder r rest) := (at_append.mp hcut).2
  have hcount : (((s.stop : Int) -
      (s.answers + 0 + (text [host]).length + (text labels).length : Nat)) % 2 ^ 64).toNat =
      (0 :: remainder r rest).length := by
    have := h.answers
    have := h.size
    unfold nsMaxDname at this
    omega
  have hpre : pre ++ text [host] <+: s.buf := by
    rw [← append_assoc] at hcontent
    exact (prefix_append _ _).trans hcontent
  have hdst : s.answers + (text [host]).length = (pre ++ text [host]).length := by
    rw [length_append,h.answers]
  rw [hcount,loadSlice_ok (at_end hmoved (by simp)),bind_ok,at_take hmoved,hdst]
  have hstore : storeSlice Fault.strip s.buf (pre ++ text [host]).length (0 :: remainder r rest) =
      .ok _ := storeSlice_ok (by rw [length_append]; omega)
  rw [hstore,bind_ok]
  refine ⟨_,rfl,(storeSlice_length hstore).trans h.size,?_,h.answers,?_,?_⟩
  · rw [hnew,← append_assoc]
    exact storeSlice_extends hpre hstore
  · rw [hnew]
    simp only [length_append]
    omega
  · rw [hnew]
    simp only [length_append]
    omega

theorem charWord16_lengthBytes {n : Nat} (h : n < 32768) :
    charWord16 (UInt8.ofNat (n / 256)) (UInt8.ofNat n) = n ∨
      65408 ≤ charWord16 (UInt8.ofNat (n / 256)) (UInt8.ofNat n) := by
  unfold charWord16 charWord schar
  simp only [UInt8.toNat_ofNat']
  split_ifs <;> omega

section

variable {name hay : List UInt8} {s1 : StripState} (hhay : cstringAt s.buf s.answers = .ok hay)
  (hcut : cutDomain name s (strstr name hay) = .ok s1) (h : Pending s1 pre (r :: rest))
  (hz : 0 ∉ text r.owner) (hf : r.fixed.length = 8)
include hhay hcut h hz hf

theorem stripRecord_eq {n : Nat}
    (hn : n = charWord16 (UInt8.ofNat (r.rdata.length / 256)) (UInt8.ofNat r.rdata.length)) :
    stripRecord addr name s = .ok
      (if s1.stop < pre.length + (wire r.owner).length + 10 + n then none
      else some { s1 with
        answers := pre.length + (wire r.owner).length + 10 + n
        maxlen := (s1.maxlen - consumed addr s1.answers
          (pre.length + (wire r.owner).length + 10 + n) (strstr name hay)).bmod (2 ^ 32) }) := by
  have hcontent := at_of_prefix h.content
  rw [encodeRrs_remainder,← h.answers] at hcontent
  have htail := hcontent
  rw [at_append,at_cons,remainder,at_append,at_append,at_append,lengthBytes,at_cons,at_cons,
    hf] at htail
  obtain ⟨-,-,⟨-,⟨hhi,hlo,-⟩,-⟩,-⟩ := htail
  unfold stripRecord
  rw [hhay,bind_ok]
  dsimp only
  rw [hcut,bind_ok,cstringAt_terminated hcontent hz,bind_ok,load_some hhi,bind_ok,
    load_some hlo,bind_ok,← hn]
  have hnext : s1.answers + (text r.owner).length + 1 + 8 + 2 + n =
      pre.length + (wire r.owner).length + 10 + n := by
    rw [← text_length,h.answers]
    omega
  rw [hnext]
  split_ifs <;> rfl

theorem stripRecord_advances : stripRecord addr name s = .ok none ∨
      stripRecord addr name s = .ok (some { s1 with
        answers := (pre ++ encodeRr r).length
        maxlen := (s1.maxlen - consumed addr s1.answers (pre ++ encodeRr r).length
          (strstr name hay)).bmod (2 ^ 32) }) := by
  have hlen := encodeRr_length hf
  have hle := h.content.length_le
  have hstop := h.stop
  rw [h.size,length_append,encodeRrs_cons,length_append,hlen,nsMaxDname] at hle
  rw [encodeRrs_cons,length_append,hlen] at hstop
  rw [stripRecord_eq hhay hcut h hz hf rfl]
  rcases @charWord16_lengthBytes r.rdata.length (by omega) with hn | hn
  · right
    rw [hn,if_neg (by omega),length_append,hlen]
    simp only [Nat.add_assoc]
  · left
    rw [if_pos (by omega)]

end

structure Tidy (r : Rr) : Prop where
  wellFormed : r.WellFormed
  owner : NulFree r.owner

theorem tidy_text (h : Tidy r) : 0 ∉ text r.owner :=
  text_nulFree h.wellFormed.owner.valid h.owner

section

variable {addr : Nat} {s : StripState} {pre : List UInt8} {r : Rr} {rest : List Rr} {host : Label}
  {labels : List Label}

variable (h : Pending s pre (r :: rest))
include h

theorem pending_owner (hr : Tidy r) : cstringAt s.buf s.answers = .ok (text r.owner) := by
  have hcontent := at_of_prefix h.content
  rw [encodeRrs_remainder,← h.answers] at hcontent
  exact cstringAt_terminated hcontent (tidy_text hr)

theorem pending_next {n : Int} (hn : n = (encodeRrs rest).length) :
    Pending { s with answers := (pre ++ encodeRr r).length, maxlen := n } (pre ++ encodeRr r) rest := by
  refine ⟨h.size,?_,rfl,?_,hn⟩
  · rw [append_assoc,← encodeRrs_cons]
    exact h.content
  have hstop := h.stop
  rw [encodeRrs_cons,length_append] at hstop
  rw [length_append,Nat.add_assoc]
  exact hstop

theorem stripRecord_host (hr : Tidy r) (ho : r.owner = host :: labels) :
    stripRecord addr (text [host]) s = .ok none ∨
      ∃ s', stripRecord addr (text [host]) s = .ok (some s') ∧
        Pending s' (pre ++ encodeRr { r with owner := [host] }) rest := by
  have hfound : strstr (text [host]) (text r.owner) = some 0 := by
    rw [ho,text_cons host labels]
    exact strstr_prefix _ _
  have hz := tidy_text hr
  rw [ho,text_cons host labels,mem_append,not_or] at hz
  obtain ⟨s1,hcut,h1⟩ := cutDomain_host h ho hz.2
  rw [← hfound] at hcut
  rcases stripRecord_advances (pending_owner h hr) hcut h1 hz.1 hr.wellFormed.fixed with hs | hs
  · exact .inl hs
  refine .inr ⟨_,hs,pending_next h1 ?_⟩
  have hle := h1.content.length_le
  have hmax := h1.maxlen
  rw [encodeRrs_cons,length_append] at hmax
  rw [h1.size,nsMaxDname,encodeRrs_cons,length_append,length_append] at hle
  rw [hfound,consumed,h1.answers,length_append,Int.bmod_eq_of_le (by omega) (by omega)]
  omega

theorem stripRecord_other (hr : Tidy r) (ho : strstr (text [host]) (text r.owner) = none) :
    stripRecord addr (text [host]) s = .ok none ∨
      ∃ s', stripRecord addr (text [host]) s = .ok (some s') ∧ s'.buf = s.buf ∧ s'.stop = s.stop ∧
        s'.maxlen = (s.maxlen - (addr + (pre ++ encodeRr r).length)).bmod (2 ^ 32) := by
  have hcut : cutDomain (text [host]) s (strstr (text [host]) (text r.owner)) = .ok s := by
    rw [ho]
    rfl
  rcases stripRecord_advances (pending_owner h hr) hcut h (tidy_text hr) hr.wellFormed.fixed with
    hs | hs
  · exact .inl hs
  · rw [ho] at hs
    exact .inr ⟨_,hs,rfl,rfl,rfl⟩

end

def stripOwner (host : Label) (domain : List Label) (r : Rr) : Rr :=
  if r.owner = host :: domain then { r with owner := [host] } else r

def StopsLoop (addr : Nat) : Prop :=
  nsMaxDname ≤ addr % 2 ^ 32 ∧ addr % 2 ^ 32 + nsMaxDname ≤ 2 ^ 31

inductive OwnersStrip (host : Label) (domain : List Label) (addr : Nat) : List Rr → Prop
  | nil : OwnersStrip host domain addr []
  | host {r : Rr} {rs : List Rr} (hr : r.owner = host :: domain ∨ r.owner = [host])
      (hrs : OwnersStrip host domain addr rs) : OwnersStrip host domain addr (r :: rs)
  | other {r : Rr} {rs : List Rr} (hr : strstr (text [host]) (text r.owner) = none)
      (haddr : StopsLoop addr) (hrs : ∀ q ∈ rs, q.owner ≠ host :: domain) :
      OwnersStrip host domain addr (r :: rs)

theorem stripOwner_host (h : r.owner = host :: domain ∨ r.owner = [host]) :
    stripOwner host domain r = { r with owner := [host] } := by
  unfold stripOwner
  split
  · rfl
  · rename_i hne
    cases r
    simp_all

theorem stripOwner_other (h : r.owner ≠ host :: domain) : stripOwner host domain r = r := if_neg h

theorem owner_ne_of_absent (h : strstr (text [host]) (text r.owner) = none) :
    r.owner ≠ host :: domain := by
  intro ho
  rw [ho,text_cons host domain, strstr_prefix] at h
  cases h

structure Stripped (s : StripState) (out : List UInt8) : Prop where
  content : out <+: s.buf
  stop : s.stop = out.length

theorem pending_stripped (h : Pending s pre rest) : Stripped s (pre ++ encodeRrs rest) :=
  ⟨h.content,by rw [h.stop,length_append]⟩

theorem bmod_nonpos {a b : Nat} (h : StopsLoop addr) (ha : a ≤ nsMaxDname) (hb : b ≤ nsMaxDname) :
    ((a : Int) - (addr + b)).bmod (2 ^ 32) ≤ 0 := by
  obtain ⟨h1,h2⟩ := h
  rw [Int.bmod_def]
  split <;> omega

theorem stripLoop_strips (ho : OwnersStrip host domain addr rest) {fuel : Nat}
    (h : Pending s pre rest) (ht : ∀ r ∈ rest, Tidy r) (hfuel : rest.length < fuel) :
    stripLoop addr (text [host]) fuel s = .ok none ∨
      ∃ s', stripLoop addr (text [host]) fuel s = .ok (some s') ∧
        Stripped s' (pre ++ encodeRrs (rest.map (stripOwner host domain))) := by
  induction ho generalizing s pre fuel with
  | nil =>
    obtain _ | fuel := fuel
    · omega
    have hmax : s.maxlen = 0 := h.maxlen
    refine .inr ⟨s,?_,pending_stripped h⟩
    rw [stripLoop,if_neg (by omega)]
    rfl
  | @host r rs hr hrs ih =>
    obtain _ | fuel := fuel
    · omega
    obtain ⟨labels,hl⟩ : ∃ labels, r.owner = host :: labels := by
      rcases hr with hr | hr <;> exact ⟨_,hr⟩
    have hmax := h.maxlen
    have hlen := encodeRr_length (ht r mem_cons_self).wellFormed.fixed
    rw [encodeRrs_cons,length_append] at hmax
    rw [stripLoop,if_pos (by omega),map_cons,encodeRrs_cons,stripOwner_host hr,← append_assoc]
    rcases stripRecord_host h (ht r mem_cons_self) hl with hs | ⟨s',hs,h'⟩
    · rw [hs]
      exact .inl rfl
    · rw [hs]
      exact ih h' (forall_mem_cons.mp ht).2
        (by rw [length_cons] at hfuel; omega)
  | @other r rs hr haddr hrs =>
    obtain ⟨fuel,rfl⟩ : ∃ k, fuel = k + 2 := ⟨fuel - 2,by rw [length_cons] at hfuel; omega⟩
    have hsame : (r :: rs).map (stripOwner host domain) = r :: rs := by
      rw [map_cons,stripOwner_other (owner_ne_of_absent hr),
        map_congr_left (fun q hq => stripOwner_other (hrs q hq)),map_id']
    have hmax := h.maxlen
    have hle := h.content.length_le
    have hlen := encodeRr_length (ht r mem_cons_self).wellFormed.fixed
    rw [encodeRrs_cons,length_append] at hmax
    rw [h.size,encodeRrs_cons,← append_assoc,length_append] at hle
    rw [stripLoop,if_pos (by omega),hsame]
    rcases stripRecord_other h (ht r mem_cons_self) hr with hs | ⟨s',hs,hbuf,hstop,hm⟩
    · rw [hs]
      exact .inl rfl
    have hneg : s'.maxlen ≤ 0 := by
      rw [hm,hmax]
      exact bmod_nonpos haddr (by rw [length_append] at hle; omega) (by omega)
    have hst := pending_stripped h
    refine .inr ⟨s',?_,⟨hbuf ▸ hst.content,hstop ▸ hst.stop⟩⟩
    rw [hs,bind_ok]
    dsimp only
    rw [stripLoop,if_neg (by omega)]
    rfl

theorem encodeRrs_length_ge {rs : List Rr} (h : ∀ r ∈ rs, Tidy r) :
    rs.length ≤ (encodeRrs rs).length := by
  induction rs with
  | nil => simp
  | cons r rs ih =>
    have hr := encodeRr_length (h r mem_cons_self).wellFormed.fixed
    have hrs := ih (forall_mem_cons.mp h).2
    rw [encodeRrs_cons,length_append,length_cons]
    omega

theorem stripDomains_strips {rs : List Rr} {qfixed : List UInt8} {upos fixedLen : Nat}
    (h : Holds buf upos (wire [host] ++ qfixed ++ encodeRrs rs))
    (hfixed : fixedLen = (wire [host] ++ qfixed).length) (hz : 0 ∉ text [host])
    (ho : OwnersStrip host domain addr rs) (ht : ∀ r ∈ rs, Tidy r) :
    stripDomains addr buf fixedLen (upos - fixedLen) = .ok none ∨
      ∃ out newLen, stripDomains addr buf fixedLen (upos - fixedLen) = .ok (some (out,newLen)) ∧
        out.take (newLen + fixedLen) =
          wire [host] ++ qfixed ++ encodeRrs (rs.map (stripOwner host domain)) := by
  have hlen : upos - fixedLen = (encodeRrs rs).length := by
    rw [h.upos,length_append,← hfixed,Nat.add_sub_cancel_left]
  have hname : cstringAt buf 0 = .ok (text [host]) := by
    have hat : At buf 0 (text [host] ++ 0 :: (qfixed ++ encodeRrs rs)) := by
      have hc := h.content
      rw [wire_eq_text] at hc
      simpa only [At,drop_zero,append_assoc,cons_append,nil_append] using hc
    exact cstringAt_terminated hat hz
  have hpend : Pending ⟨buf,fixedLen,fixedLen + (encodeRrs rs).length,(encodeRrs rs).length⟩
      (wire [host] ++ qfixed) rs :=
    ⟨h.size,h.content,hfixed,by rw [hfixed],rfl⟩
  have hcount := encodeRrs_length_ge ht
  have hle := h.content.length_le
  rw [length_append] at hle
  have hfuel : rs.length < buf.length + 1 := by omega
  rw [stripDomains,hname,bind_ok,hlen]
  rcases stripLoop_strips ho hpend ht hfuel with hs | ⟨s',hs,hst⟩
  · rw [hs]
    exact .inl rfl
  rw [hs]
  refine .inr ⟨_,_,rfl,?_⟩
  have hstop := hst.stop
  rw [length_append] at hstop
  rw [Nat.sub_add_cancel (by omega),hst.stop]
  exact (prefix_iff_eq_take.mp hst.content).symm

end FuzzingTargets.DnsProxy
