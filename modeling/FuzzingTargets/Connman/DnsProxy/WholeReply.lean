import FuzzingTargets.Connman.DnsProxy.Stripping
import FuzzingTargets.Connman.DnsProxy.Identifiers

namespace FuzzingTargets.DnsProxy
open Bytes Checked Runs Slices List

def Forward.request : Forward → Request
  | .waiting req => req
  | .answered req => req

def Message.strip (m : Message) (host : Label) (domain : List Label) : Message where
  header := m.header
  question := [host]
  qfixed := m.qfixed
  answers := m.answers.map (stripOwner host domain)
  authority := m.authority.map (stripOwner host domain)
  additional := m.additional.map (stripOwner host domain)

variable (L : NameCodec) (p : Protocol) (reply : List UInt8)

structure DomainReply (req : Request) (m : Message)
    (host : Label) (domain : List Label) : Prop where
  append : req.appendDomain = true
  decodes : decodeMessage (reply.drop (protocolOffset p)) = some m
  idFree : decodeMessage ((setId p req.srcid reply).drop (protocolOffset p)) =
    some { m with header := ((setId p req.srcid reply).drop (protocolOffset p)).take 12 }
  size : (reply.drop (protocolOffset p)).length ≤ 65535
  framed : p = .tcp → wordAt reply 0 = (reply.drop 2).length
  question : m.question = host :: domain
  domain : domain ≠ []
  qtype : m.qtype = 1 ∨ m.qtype = 28
  qclass : m.qclass = 1
  records : ∀ r ∈ m.records, r.rclass = 1 ∧ r.rdata.length ≤ 255

structure StoredAnswer (m : Message) (host : Label) (domain : List Label)
    (bytes : List UInt8) : Prop where
  decoded : ∃ header, decodeMessage (bytes.drop (protocolOffset p)) =
    some { m.strip host domain with header := header }
  framed : p = .tcp → wordAt bytes 0 = (bytes.drop 2).length

def PreservesAnswer (stack : Stack)
    (addr : Nat) (req : Request) (m : Message) (host : Label) (domain : List Label) : Prop :=
  ∃ f, forwardDnsReply L p reply stack addr req = .ok f ∧
    ∀ bytes, f.request.resp = some bytes → req.resp = some bytes ∨ StoredAnswer p m host domain bytes

def readdressed (req : Request) : List UInt8 := (setId p req.srcid reply).drop (protocolOffset p)

def Replaces (req : Request) : Prop :=
  ((reply.drop (protocolOffset p)).getD 3 0).toNat % 16 = 0 ∨ req.resp = none

structure StripsCleanly (addr : Nat)
    (req : Request) (m : Message) (host : Label) (domain : List Label) : Prop where
  fits : ReplyFits L (readdressed p reply req)
  names : NulFree (host :: domain)
  records : ∀ r ∈ m.records, (r.rtype ∈ [1,28,5,6] ∨ r.rdata = []) ∧ NulFree r.owner
  owners : OwnersStrip host domain addr m.records
  length : p = .tcp → (encodeMessage (m.strip host domain)).length = (reply.drop 2).length

inductive StoresCleanly (addr : Nat) (req : Request) (m : Message) (host : Label)
    (domain : List Label) : Prop
  | kept (h : ¬Replaces p reply req)
  | rejected (hfits : ReplyFits L (readdressed p reply req))
      (hstrips : Strips (readdressed p reply req)) (hstops : StopsEarly L (readdressed p reply req))
  | stripped (h : StripsCleanly L p reply addr req m host domain)

section

variable {msg : List UInt8} {m : Message} {host : Label} {domain : List Label}

section

variable (hm : DecodedAt msg m) (hq : m.question = host :: domain)
include hm hq

theorem hostLen_decoded : hostLen msg = host.length := by
  have hv := (hm.wellFormed.question.valid host (by rw [hq]; exact mem_cons_self)).2
  have hat := hm.question
  rw [hq,wire,cons_append,at_cons] at hat
  rw [hostLen,domainHdrSz,getD_eq_getElem?_getD,hat.1,Option.getD_some,UInt8.toNat_ofNat']
  omega

theorem question_at : At msg (12 + 1 + host.length) (text domain ++ [0]) := by
  have hat := hm.question
  rw [hq,wire,cons_append,at_cons,at_append,wire_eq_text] at hat
  exact hat.2.2

theorem domainLen_decoded (hn : NulFree (host :: domain)) : domainLen msg = (text domain).length ∧
      (0 < hostLen msg → 0 ∈ msg.drop (domainHdrSz + 1 + hostLen msg)) := by
  have hvalid := hm.wellFormed.question.valid
  have hlen := hm.wellFormed.question.length
  rw [hq] at hvalid hlen
  rw [wire_length_cons,← text_length,nsMaxCdname] at hlen
  have hz := text_nulFree (forall_mem_cons.mp hvalid).2
    (forall_mem_cons.mp hn).2
  obtain ⟨rest,hrest⟩ := question_at hm hq
  have hpos : 0 < host.length := length_pos_iff.mpr (hvalid host mem_cons_self).1
  rw [domainLen,hostLen_decoded hm hq,if_pos hpos,domainHdrSz,← hrest,append_assoc,strlen,
    singleton_append,cstring_terminated hz]
  exact ⟨Nat.mod_eq_of_lt (by omega),fun _ => by simp⟩

theorem dnsTypePos_decoded (hn : NulFree (host :: domain)) :
    dnsTypePos msg = (wire m.question).length := by
  have hlen := hm.wellFormed.question.length
  rw [dnsTypePos,hostLen_decoded hm hq,(domainLen_decoded hm hq hn).1]
  rw [hq,wire_length_cons,← text_length] at hlen ⊢
  rw [nsMaxCdname] at hlen
  omega

end

theorem getD_at {buf xs : List UInt8} {pos i : Nat} (h : At buf pos xs) (hi : i < xs.length) :
    buf.getD (pos + i) 0 = xs.getD i 0 := by
  rw [getD_eq_getElem?_getD,at_getElem? h hi,getD_eq_getElem?_getD]

theorem strips_decoded (hm : DecodedAt msg m) (hq : m.question = host :: domain)
    (hn : NulFree (host :: domain)) (hd : domain ≠ []) (ht : m.qtype = 1 ∨ m.qtype = 28) :
    Strips msg := by
  have h4 := hm.wellFormed.qfixed
  have htype : charWordAt msg (domainHdrSz + dnsTypePos msg) =
      charWord16 (m.qfixed.getD 0 0) (m.qfixed.getD 1 0) := by
    rw [dnsTypePos_decoded hm hq hn,charWordAt,← getD_at hm.qfixed (by omega),
      ← getD_at hm.qfixed (by omega)]
    rfl
  refine ⟨?_,?_⟩
  · rintro ⟨h1,h2,-⟩
    rw [htype] at h1 h2
    rcases ht with ht | ht
    · exact h1 ((charWord16_small (by decide)).mpr ht)
    · exact h2 ((charWord16_small (by decide)).mpr ht)
  · rw [(domainLen_decoded hm hq hn).1]
    exact length_pos_iff.mpr (fun h => hd (text_eq_nil h))

theorem strip_records (m : Message) (host : Label) (domain : List Label) :
    (m.strip host domain).records = m.records.map (stripOwner host domain) := by
  simp [Message.strip,Message.records]

theorem stripOwner_wellFormed {r : Rr} (hh : NameFits [host]) (hr : r.WellFormed) :
    (stripOwner host domain r).WellFormed := by
  unfold stripOwner
  split
  · exact ⟨hh,hr.fixed,hr.rdlen,hr.plain⟩
  · exact hr

theorem strip_wellFormed (hm : m.WellFormed) (hq : m.question = host :: domain) :
    (m.strip host domain).WellFormed := by
  have hfits := hm.question
  rw [hq] at hfits
  have hlen := hfits.length
  rw [wire_length_cons] at hlen
  have hh : NameFits [host] := by
    refine ⟨fun l hl => hfits.valid l (by simp_all),?_⟩
    rw [wire_length_cons]
    have hw : 0 < (wire domain).length := length_pos_iff.mpr (wire_ne_nil domain)
    simp only [wire,length_singleton]
    omega
  refine ⟨hm.header,hm.qdcount,?_,?_,?_,hh,hm.qfixed,?_⟩
  · rw [Message.strip,length_map]
    exact hm.ancount
  · rw [Message.strip,length_map]
    exact hm.nscount
  · rw [Message.strip,length_map]
    exact hm.arcount
  rw [strip_records]
  intro r hr
  obtain ⟨q,hq',rfl⟩ := mem_map.mp hr
  exact stripOwner_wellFormed hh (hm.records q hq')

theorem expandReply_walks {L : NameCodec} {stack : Stack} (hend : questionEnd msg ≤ msg.length)
    (hfit : ∀ v ∈ replyVisits L msg, v.Fits msg) :
    ∃ r, expandReply L msg stack (hostLen msg) (domainLen msg) = .ok r ∧
      (StopsEarly L msg → r = none) := by
  have hlt := hostLen_lt msg
  have hq : domainHdrSz + (hostLen msg + 1) + domainLen msg + 1 + 4 ≤ msg.length := hend
  obtain ⟨buf,hb,he⟩ := (@expandReply_question L msg stack (by omega)).1 hend
  obtain ⟨_,-,hr⟩ := (uncompressSections_follows ⟨questionEnd msg,buf,hostLen msg + 1 + 1 + 4⟩ _
    hb (by simp only [nsMaxDname]; omega)).ok hfit
  rw [he]
  refine ⟨_,hr,fun hstop => ?_⟩
  rw [StopsEarly] at hstop
  rw [hstop,Option.map_none]

theorem stripReply_strips {L : NameCodec} {p : Protocol} {reply : List UInt8} {stack : Stack}
    {addr : Nat} (hmsg : reply.drop (protocolOffset p) = msg) (hm : DecodedAt msg m)
    (hq : m.question = host :: domain) (hn : NulFree (host :: domain)) (hlen : msg.length ≤ 65535)
    (hx : ∀ r ∈ m.records, Expandable r) (ho : OwnersStrip host domain addr m.records)
    (hend : questionEnd msg ≤ msg.length) (hfit : ∀ v ∈ replyVisits L msg, v.Fits msg) :
    ∃ r, stripReply L p reply stack addr (hostLen msg) (domainLen msg) = .ok r ∧
      ∀ bytes, r = .pass bytes → bytes = reply.take (protocolOffset p + domainHdrSz) ++
        (wire [host] ++ m.qfixed ++ encodeRrs (m.strip host domain).records) := by
  have hvalid := hm.wellFormed.question.valid
  obtain ⟨r,hr,-⟩ := @expandReply_walks _ L stack hend hfit
  rw [stripReply,hmsg,hr,bind_ok]
  cases r with
  | none => exact ⟨_,rfl,fun bytes h => (by cases h)⟩
  | some s =>
    rw [hostLen_decoded hm hq,(domainLen_decoded hm hq hn).1] at hr
    have hh := expandReply_emits hm hq hlen hx hr
    have hfixed : hostLen msg + 1 + 1 + 4 = (wire [host] ++ m.qfixed).length := by
      rw [length_append,hm.wellFormed.qfixed,hostLen_decoded hm hq,wire_length_cons]
      rfl
    have hz : 0 ∉ text [host] := by
      refine text_nulFree (fun l hl => hvalid l ?_) (fun l hl => hn l ?_)
      · simp_all
      · simp_all
    have ht : ∀ r ∈ m.records, Tidy r := fun r hr =>
      ⟨hm.wellFormed.records r hr,(hx r hr).owner⟩
    dsimp only
    rw [strip_records]
    rcases stripDomains_strips hh hfixed hz ho ht with hs | ⟨out,newLen,hs,hout⟩
    · rw [hs]
      exact ⟨_,rfl,fun bytes h => (by cases h)⟩
    rw [hs]
    refine ⟨_,rfl,fun bytes h => ?_⟩
    cases h
    rw [hout]

end

theorem finish_request (req : Request) (rcode ancount : Nat) :
    (finish req rcode ancount).request = req := by
  unfold finish
  split <;> rfl

theorem stored_answer {p : Protocol} {reply msg body : List UInt8} {m : Message} {host : Label}
    {domain : List Label} (hmsg : reply.drop (protocolOffset p) = msg) (hm : DecodedAt msg m)
    (hq : m.question = host :: domain)
    (hbody : body = wire [host] ++ m.qfixed ++ encodeRrs (m.strip host domain).records)
    (hframed : p = .tcp → wordAt reply 0 = (encodeMessage (m.strip host domain)).length) :
    StoredAnswer p m host domain (reply.take (protocolOffset p + domainHdrSz) ++ body) := by
  have h12 : (msg.take 12).length = 12 := by
    rw [← hm.header]
    exact hm.wellFormed.header
  have hsize : protocolOffset p + 12 ≤ reply.length := by
    rw [← hmsg,length_take,length_drop] at h12
    omega
  have hlen : (reply.take (protocolOffset p + domainHdrSz)).length = protocolOffset p + 12 := by
    rw [length_take,domainHdrSz]
    omega
  have hdrop : (reply.take (protocolOffset p + domainHdrSz) ++ body).drop (protocolOffset p) =
      encodeMessage (m.strip host domain) := by
    rw [drop_append_of_le_length (by omega),drop_take,hmsg,hbody,domainHdrSz,
      Nat.add_sub_cancel_left,← hm.header]
    simp only [encodeMessage,Message.strip,append_assoc]
  refine ⟨⟨m.header,?_⟩,?_⟩
  · rw [hdrop]
    exact decodeMessage_encodeMessage (strip_wellFormed hm.wellFormed hq)
  rintro rfl
  have hbytes : wordAt (reply.take (protocolOffset .tcp + domainHdrSz) ++ body) 0 =
      wordAt reply 0 := by
    unfold wordAt
    simp only [getD_eq_getElem?_getD]
    rw [getElem?_append_left (by omega),getElem?_append_left (by omega),
      getElem?_take_of_lt (by simp [domainHdrSz]),getElem?_take_of_lt (by simp [domainHdrSz])]
  rw [hbytes,hframed rfl,← hdrop]
  rfl

theorem setId_framed (id : UInt16) (reply : List UInt8) :
    wordAt (setId .tcp id reply) 0 = wordAt reply 0 := by
  simp only [wordAt,setId,protocolOffset,getD_eq_getElem?_getD]
  rw [getElem?_set_ne (by decide),getElem?_set_ne (by decide),
    getElem?_set_ne (by decide),getElem?_set_ne (by decide)]

theorem rejected_drop {L : NameCodec} {p : Protocol} {reply : List UInt8} {stack : Stack}
    {addr : Nat} {msg : List UInt8} (hmsg : reply.drop (protocolOffset p) = msg)
    (hfits : ReplyFits L msg) (hstrips : Strips msg) (hstops : StopsEarly L msg) :
    stripReply L p reply stack addr (hostLen msg) (domainLen msg) = .ok .drop := by
  obtain ⟨r,hr,hnone⟩ := @expandReply_walks _ L stack (hfits.question hstrips)
    (hfits.records hstrips)
  rw [stripReply,hmsg,hr,hnone hstops]
  rfl

def hostMessage (answers : List Rr) (ancount : UInt8) : Message where
  header := [2,0,0x81,0x80,0,1,0,ancount,0,0,0,0]
  question := [[104],[100]]
  qfixed := [0,1,0,1]
  answers := answers
  authority := []
  additional := []

theorem shortReply_domain : DomainReply .udp shortReply pendingRequest
    (hostMessage [⟨[[104],[100]],[0,1,0,1,0,0,0,60],[10,0,0,1]⟩] 1) [104] [[100]] := by
  refine ⟨rfl,by decide +kernel,by decide +kernel,by decide,by decide,rfl,by decide,
    .inl rfl,rfl,by decide⟩

theorem shortReply_strips : StripsCleanly libresolv .udp shortReply 0 pendingRequest
    (hostMessage [⟨[[104],[100]],[0,1,0,1,0,0,0,60],[10,0,0,1]⟩] 1) [104] [[100]] := by
  refine ⟨shortReply_fits,by decide,by decide,?_,by decide⟩
  exact .host (.inl rfl) .nil

def emptyTcpReply : List UInt8 := [0,21] ++ hostQuestion 0

structure WholeMessage (srcid : UInt16) (bytes : List UInt8) : Prop where
  header : protocolOffset p + 12 ≤ bytes.length
  srcid : (bytes.drop (protocolOffset p)).take 2 = idBytes srcid
  framed : p = .tcp → wordAt bytes 0 = (bytes.drop 2).length

section

variable (L : NameCodec) (p : Protocol) (reply : List UInt8) (req : Request)

def Rewrites : Prop :=
  Replaces p reply req ∧ req.appendDomain = true ∧ wordAt (readdressed p reply req) 4 = 1 ∧
    Strips (readdressed p reply req)

structure SendsWhole : Prop where
  passed : Replaces p reply req → ¬Rewrites p reply req →
    protocolOffset p + 12 ≤ reply.length ∧ (p = .tcp → wordAt reply 0 = (reply.drop 2).length)
  rejected : Rewrites p reply req → StopsEarly L (readdressed p reply req) → req.resp ≠ none

def FramingKept : Prop :=
  Rewrites p reply req → StopsEarly L (readdressed p reply req) ∨ p = .udp

structure SoundReply : Prop where
  protocol : p = req.protocol
  framing : FramingKept L p reply req
  whole : SendsWhole L p reply req

def SoundReplies (s : Proxy) : Event → Prop
  | .reply p reply _ _ => ∀ e, findRequest s (wordLe (reply.getD (protocolOffset p) 0)
      (reply.getD (protocolOffset p + 1) 0)) = some e → SoundReply L p reply e.req
  | _ => True

def HoldsWhole : Prop := ∀ old, req.resp = some old → WholeMessage p req.srcid old

def DecidedBy : Rewrite → Prop
  | .pass bytes => WholeMessage p req.srcid bytes ↔ SendsWhole L p reply req
  | .drop => WholeMessage p req.srcid (req.resp.getD []) ↔ SendsWhole L p reply req
  | .corrupted => True

end

section

variable {L : NameCodec} {p : Protocol} {reply : List UInt8} {stack : Stack} {addr : Nat}
  {req : Request}

theorem setId_srcid (p : Protocol) (id : UInt16) (reply : List UInt8)
    (h : protocolOffset p + 2 ≤ reply.length) :
    ((setId p id reply).drop (protocolOffset p)).take 2 = idBytes id := by
  apply ext_getElem?
  intro i
  match i with
  | 0 => simp [setId,idBytes,getElem?_set]; omega
  | 1 => simp [setId,idBytes,getElem?_set]; omega
  | i + 2 => simp [idBytes]

theorem setId_whole : WholeMessage p req.srcid (setId p req.srcid reply) ↔
    protocolOffset p + 12 ≤ reply.length ∧ (p = .tcp → wordAt reply 0 = (reply.drop 2).length) := by
  constructor
  · intro h
    have hheader := h.header
    rw [setId_length] at hheader
    refine ⟨hheader,?_⟩
    rintro rfl
    have hframed := h.framed rfl
    rw [setId_framed,length_drop,setId_length,← length_drop] at hframed
    exact hframed
  rintro ⟨hheader,hframed⟩
  refine ⟨by rwa [setId_length],setId_srcid p _ reply (by omega),?_⟩
  rintro rfl
  rw [setId_framed,length_drop,setId_length,← length_drop]
  exact hframed rfl

theorem stripped_whole {head body : List UInt8} (hlen : 12 ≤ reply.length)
    (hhead : (setId .udp req.srcid reply).take domainHdrSz = head) :
    WholeMessage .udp req.srcid (head ++ body) := by
  have hsize : head.length = 12 := by
    rw [← hhead,length_take,setId_length,domainHdrSz]
    omega
  have hid := setId_srcid .udp req.srcid reply (by simp only [protocolOffset]; omega)
  refine ⟨?_,?_,fun h => absurd h (by decide)⟩
  · rw [length_append,hsize]
    simp [protocolOffset]
  · rw [protocolOffset,drop_zero] at hid ⊢
    rw [take_append_of_le_length (by omega),← hhead,take_take,← hid]
    rfl

theorem held_whole_iff (h : HoldsWhole p req) :
    WholeMessage p req.srcid (req.resp.getD []) ↔ req.resp ≠ none := by
  unfold HoldsWhole at h
  cases hresp : req.resp with
  | none =>
    refine iff_of_false (fun hwhole => ?_) (not_not.mpr rfl)
    have hheader := hwhole.header
    simp at hheader
  | some old => exact iff_of_true (h old hresp) (Option.some_ne_none old)

theorem storedReply_whole (hheld : HoldsWhole p req) (hframing : FramingKept L p reply req)
    {r : Rewrite}
    (hr : storeReply L p (setId p req.srcid reply) stack addr
      { req with numresp := req.numresp + 1 }
      (((reply.drop (protocolOffset p)).getD 3 0).toNat % 16) = .ok r) :
    DecidedBy L p reply req r := by
  have hpassed : Replaces p reply req → ¬Rewrites p reply req →
      (WholeMessage p req.srcid (setId p req.srcid reply) ↔ SendsWhole L p reply req) := by
    intro hreplaces hno
    rw [setId_whole]
    exact ⟨fun hwhole => ⟨fun _ _ => hwhole,fun hyes => absurd hyes hno⟩,
      fun h => h.passed hreplaces hno⟩
  rcases storeReply_cases rfl hr with ⟨hkeep,rfl⟩ | ⟨hreplaces,⟨hno,rfl⟩ | ⟨hyes,hrewrite⟩⟩
  · refine (held_whole_iff hheld).trans (iff_of_true (fun hnone => hkeep (.inr hnone)) ?_)
    exact ⟨fun hreplaces => absurd hreplaces hkeep,fun hyes => absurd hyes.1 hkeep⟩
  · exact hpassed hreplaces fun hw => hno ⟨hw.2.1,hw.2.2.1⟩
  rcases rewriteReply_cases rfl hrewrite with ⟨hstrip,rfl⟩ | ⟨hstrip,hend,hstripped⟩
  · exact hpassed hreplaces fun hw => hstrip hw.2.2.2
  have hrewrites : Rewrites p reply req := ⟨hreplaces,hyes.1,hyes.2,hstrip⟩
  rcases stripReply_cases rfl hend hstripped with ⟨hstop,rfl⟩ | ⟨hgo,rfl | ⟨body,rfl⟩⟩
  · refine (held_whole_iff hheld).trans ?_
    exact ⟨fun hsome => ⟨fun _ hno => absurd hrewrites hno,fun _ _ => hsome⟩,
      fun h => h.rejected hrewrites hstop⟩
  · trivial
  obtain rfl := (hframing hrewrites).resolve_left hgo
  refine iff_of_true (stripped_whole ?_ rfl) ?_
  · rw [questionEnd,length_drop,setId_length,domainHdrSz] at hend
    omega
  · exact ⟨fun _ hno => absurd hrewrites hno,fun _ hstop => absurd hstop hgo⟩

theorem finish_answered {req' : Request} {rcode ancount : Nat}
    (h : Forward.answered req' = finish req rcode ancount) : req' = req := by
  unfold finish at h
  split at h
  · cases h
  · cases h
    rfl

theorem forwarded_holdsWhole (hheld : HoldsWhole p req) (hsound : SoundReply L p reply req)
    {f : Forward} (h : forwardDnsReply L p reply stack addr req = .ok f) :
    f.request.protocol = req.protocol ∧ HoldsWhole p f.request := by
  obtain ⟨-,r,hr,rfl⟩ := forwardDnsReply_ok rfl h
  have hdecided := storedReply_whole hheld hsound.framing hr
  cases r with
  | pass bytes =>
    rw [conclude,finish_request]
    refine ⟨rfl,?_⟩
    rintro _ ⟨⟩
    exact hdecided.mpr hsound.whole
  | drop =>
    rw [conclude,finish_request]
    exact ⟨rfl,hheld⟩
  | corrupted => exact ⟨rfl,hheld⟩

def HeldWhole (s : Proxy) : Prop := ∀ e ∈ s.entries, HoldsWhole e.req.protocol e.req

theorem Bookkept.holdsWhole {req' : Request} (h : Bookkept req req')
    (hheld : HoldsWhole req.protocol req) : HoldsWhole req'.protocol req' := by
  obtain ⟨n,request,b,rfl⟩ := h
  exact hheld

theorem heldWhole_step {s s' : Proxy} {e : Event} (h : HeldWhole s) (hsound : SoundReplies L s e)
    (hs : Steps L s e s') : HeldWhole s' := by
  cases step_evolution hs with
  | unlisted hentries hnext =>
    unfold HeldWhole
    rw [hentries]
    exact h
  | enlisted hdrawn hreq hs' =>
    subst hs'
    refine forall_mem_append.mpr ⟨h,forall_mem_singleton.mpr (hreq.holdsWhole ?_)⟩
    rintro _ ⟨⟩
  | swept hf hentries hnext =>
    unfold HeldWhole
    rw [hentries]
    intro e' he'
    obtain ⟨d,hd,ho⟩ := mem_filterMap.mp he'
    exact ((hf d).same e' ho).holdsWhole (h d hd)
  | @replied p reply stack addr e f hfind hf hs' =>
    subst hs'
    intro e' he'
    obtain ⟨d,hd,ho⟩ := mem_filterMap.mp he'
    unfold forwardRequest at ho
    split at ho
    · have hreply := hsound e hfind
      have hheld := h e (mem_of_find?_eq_some hfind)
      rw [← hreply.protocol] at hheld
      obtain ⟨hprotocol,hwhole⟩ := forwarded_holdsWhole hheld hreply hf
      cases f with
      | waiting req' =>
        cases ho
        have hsame : req'.protocol = p := hprotocol.trans hreply.protocol.symm
        rw [hsame]
        exact hwhole
      | answered req' => cases ho
    · cases ho
      exact h e' hd

end

theorem answered_whole_iff (L : NameCodec) {s : Proxy}
    (hr : Reach emptyProxy (Guarded (SoundReplies L) (Steps L)) s) (p : Protocol)
    (reply : List UInt8) (stack : Stack) (addr : Nat) (e : Entry) (req' : Request)
    (he : e ∈ s.entries) (hp : p = e.req.protocol) (hframing : FramingKept L p reply e.req)
    (h : forwardDnsReply L p reply stack addr e.req = .ok (.answered req')) :
    WholeMessage p e.req.srcid (req'.resp.getD []) ↔ SendsWhole L p reply e.req := by
  have hheld : HeldWhole s := reach_invariant
    (show HeldWhole emptyProxy from fun _ he => absurd he not_mem_nil)
    (fun _ _ _ h he => heldWhole_step h he.1 he.2) hr
  obtain ⟨-,r,hstored,hf⟩ := forwardDnsReply_ok rfl h
  have hdecided := storedReply_whole (hp ▸ hheld e he) hframing hstored
  cases r with
  | pass bytes =>
    rw [finish_answered hf]
    exact hdecided
  | drop =>
    rw [finish_answered hf]
    exact hdecided
  | corrupted => cases hf

def udpArrival : Arrival where
  client := 0
  bytes := [7,0,1,0,0,1,0,0,0,0,0,0,1,104,0,0,1,0,1]
  parsed := true
  servers := true
  dstid := 1
  altid := 2

def askedProxy : Proxy := udpListenerEvent udpArrival [⟨none,true,false,[.accepted]⟩] emptyProxy

def lastRequest : Request :=
  { newRequest emptyProxy .udp udpArrival with
    numserv := 2
    request := some (setId .udp 1 udpArrival.bytes)
    appendDomain := true }

def shortAnswer : Request :=
  { lastRequest with
    numresp := 1
    resp := some [7,0,0x81,0x80,0,1,0,1,0,0,0,0,1,104,0,0,1,0,1,1,104,0,0,1,0,
      1,0,0,0,60,0,4,10,0,0,1] }

theorem askedProxy_entries : askedProxy.entries = [⟨lastRequest,true,true⟩] := by
  decide

theorem shortReply_sent_whole : SendsWhole libresolv .udp shortReply lastRequest := by
  have hr : Reach emptyProxy (Guarded (SoundReplies libresolv) (Steps libresolv)) askedProxy :=
    .next (e := .udpRequest udpArrival [⟨none,true,false,[.accepted]⟩]) .start ⟨trivial,rfl⟩
  exact (answered_whole_iff libresolv hr .udp shortReply zeroStack 0 ⟨lastRequest,true,true⟩
    shortAnswer (by rw [askedProxy_entries]; exact mem_cons_self) rfl (fun _ => .inr rfl)
    (by decide +kernel)).mp ⟨by decide,by decide,by decide⟩

def looseReply : List UInt8 :=
  hostQuestion 1 ++ [0xc0,200,0,1,0,1,0,0,0,60,0,4,10,0,0,1]

theorem looseReply_sent_empty :
    forwardDnsReply libresolv .udp looseReply zeroStack 0 lastRequest =
        .ok (.answered { lastRequest with numresp := 1 }) ∧
      ¬WholeMessage .udp lastRequest.srcid
        ({ lastRequest with numresp := 1 : Request }.resp.getD []) := by
  refine ⟨by decide +kernel,fun h => ?_⟩
  exact absurd h.header (by decide)

end FuzzingTargets.DnsProxy
