import FuzzingTargets.Foundation.Runs
import FuzzingTargets.Connman.DnsProxy.RequestTable

namespace FuzzingTargets.DnsProxy
open Bytes Checked Runs List

structure Waiting (e : Entry) : Prop where
  listed : e.listed = true
  armed : e.armed = true
  request : ∃ bytes, e.req.request = some bytes ∧ 12 ≤ bytes.length
  resp : e.req.resp ≠ some []

structure Orderly (s : Proxy) : Prop where
  nodup : (s.entries.map (·.req.ident)).Nodup
  fresh : ∀ e ∈ s.entries, e.req.ident < s.next
  waiting : ∀ e ∈ s.entries, Waiting e

inductive Settles (clients : List Nat) (e : Entry) : Outcome → Prop
  | stays {e' : Entry} {sends : List Send} (hid : e'.req.ident = e.req.ident) (hw : Waiting e')
      (hs : delivered clients e.req sends = []) : Settles clients e ⟨some e',sends⟩
  | leaves {sends : List Send} (hs : (delivered clients e.req sends).length = 1) :
      Settles clients e ⟨none,sends⟩

theorem listedIds_eq {s : Proxy} (h : Orderly s) : listedIds s = s.entries.map (·.req.ident) := by
  rw [listedIds,filter_eq_self.mpr (fun e he => (h.waiting e he).listed)]

variable {req : Request} {clients : List Nat}

theorem delivered_ident {sends : List Send} {m : Sent}
    (h : m ∈ delivered clients req sends) : m.ident = req.ident := by
  obtain ⟨x,-,rfl⟩ := mem_map.mp h
  rfl

section

variable {es : List Entry} {f : Entry → List Sent}
  (hf : ∀ e, ∀ m ∈ f e, m.ident = e.req.ident)

include hf

theorem countP_others {id : Nat} (h : ∀ e ∈ es, e.req.ident ≠ id) :
    (es.flatMap f).countP (·.ident == id) = 0 := by
  rw [countP_eq_zero]
  intro m hm
  obtain ⟨e,he,hme⟩ := mem_flatMap.mp hm
  rw [hf e m hme,beq_iff_eq]
  exact h e he

theorem countP_owner {e : Entry} (hnd : (es.map (·.req.ident)).Nodup) (he : e ∈ es) :
    (es.flatMap f).countP (·.ident == e.req.ident) = (f e).length := by
  induction es with
  | nil => cases he
  | cons d ds ih =>
    rw [map_cons,nodup_cons] at hnd
    rw [flatMap_cons,countP_append]
    rcases mem_cons.mp he with rfl | hds
    · have hrest : ∀ d ∈ ds, d.req.ident ≠ e.req.ident := fun d hd h =>
        hnd.1 (mem_map.mpr ⟨d,hd,h⟩)
      have hown : (f e).countP (·.ident == e.req.ident) = (f e).length :=
        countP_eq_length.mpr (fun m hm => beq_iff_eq.mpr (hf e m hm))
      rw [countP_others hf hrest,hown,Nat.add_zero]
    have hne : d.req.ident ≠ e.req.ident := fun h =>
      hnd.1 (mem_map.mpr ⟨e,hds,h.symm⟩)
    have hzero : (f d).countP (·.ident == e.req.ident) = 0 :=
      countP_eq_zero.mpr (fun m hm => by rwa [hf d m hm,beq_iff_eq])
    rw [hzero,ih hnd.2 hds,Nat.zero_add]

end

variable {e : Entry}

section

variable {s : Proxy} {f : Entry → Outcome} {clients : List Nat}

theorem settles_ident {e' : Entry} {o : Outcome} (h : Settles clients e o)
    (ho : o.entry = some e') : e'.req.ident = e.req.ident ∧ Waiting e' := by
  cases h with
  | stays hid hw hs =>
    cases ho
    exact ⟨hid,hw⟩
  | leaves hs => cases ho

theorem settles_delivered {o : Outcome} (h : Settles clients e o) :
    (delivered clients e.req o.sends).length = if o.entry = none then 1 else 0 := by
  cases h with
  | stays hid hw hs | leaves hs => simp [hs]

theorem swept_idents {es : List Entry} (hf : ∀ e ∈ es, Settles clients e (f e)) :
    ((es.filterMap (fun e => (f e).entry)).map (·.req.ident)).Sublist (es.map (·.req.ident)) := by
  induction es with
  | nil => exact .slnil
  | cons e es ih =>
    have hrest := ih (forall_mem_cons.mp hf).2
    cases ho : (f e).entry with
    | none =>
      simp only [filterMap_cons,ho]
      exact hrest.cons _
    | some e' =>
      simp only [filterMap_cons,ho,map_cons]
      rw [(settles_ident (hf e mem_cons_self) ho).1]
      exact hrest.cons_cons _

theorem sweep_orderly (h : Orderly s) (hf : ∀ e ∈ s.entries, Settles s.clients e (f e)) :
    Orderly (sweep f s) := by
  refine ⟨(swept_idents hf).nodup h.nodup,?_,?_⟩
  · intro e' he'
    obtain ⟨e,he,ho⟩ := mem_filterMap.mp he'
    rw [(settles_ident (hf e he) ho).1]
    exact h.fresh e he
  · intro e' he'
    obtain ⟨e,he,ho⟩ := mem_filterMap.mp he'
    exact (settles_ident (hf e he) ho).2

theorem sweep_oneAnswer (h : Orderly s) (hf : ∀ e ∈ s.entries, Settles s.clients e (f e)) :
    OneAnswer s (sweep f s) := by
  have hcount : ∀ id, sentTo (sweep f s) id = sentTo s id +
      (s.entries.flatMap (fun e => delivered s.clients e.req (f e).sends)).countP
        (·.ident == id) := fun id => countP_append
  have hown : ∀ e : Entry, ∀ m ∈ delivered s.clients e.req (f e).sends, m.ident = e.req.ident :=
    fun e m hm => delivered_ident hm
  constructor
  · intro id hid hleft
    rw [listedIds_eq h] at hid
    rw [listedIds_eq (sweep_orderly h hf)] at hleft
    obtain ⟨e,he,rfl⟩ := mem_map.mp hid
    have hnone : (f e).entry = none := by
      cases ho : (f e).entry with
      | none => rfl
      | some e' =>
        refine absurd (mem_map.mpr ⟨e',mem_filterMap.mpr ⟨e,he,ho⟩,?_⟩) hleft
        exact (settles_ident (hf e he) ho).1
    rw [hcount,countP_owner hown h.nodup he,settles_delivered (hf e he),if_pos hnone]
  intro id _ hid
  rw [listedIds_eq h] at hid
  have hne : ∀ e ∈ s.entries, e.req.ident ≠ id := fun e he hk =>
    hid (mem_map.mpr ⟨e,he,hk⟩)
  rw [hcount,countP_others hown hne,Nat.add_zero]

end

def ClientOpen (clients : List Nat) (req : Request) : Prop :=
  req.protocol = .tcp → req.client ∈ clients

def Attempt.Forwards (a : Attempt) : Prop :=
  a.accepted = true ∧ (a.dotted = true ∨ ∀ d ∈ a.domains, d = .missing ∨ d = .accepted)

section

variable {clients : List Nat} {e : Entry} {req req' : Request} {a : Attempt}

theorem delivered_one {bytes : List UInt8} (ho : ClientOpen clients req) (hb : bytes ≠ []) :
    (delivered clients req [(req.protocol,bytes)]).length = 1 := by
  have hr : Reaches clients req (req.protocol,bytes) := ⟨rfl,ho,hb⟩
  simp [delivered,hr]

structure SameRequest (req req' : Request) : Prop where
  ident : req'.ident = req.ident
  request : req'.request = req.request
  resp : req'.resp = req.resp

theorem Retries.same (h : Retries req req') : SameRequest req req' := by
  obtain ⟨n,b,rfl⟩ := h
  exact ⟨Eq.refl _,Eq.refl _,Eq.refl _⟩

theorem resolveDomains_status (ds : List DomainAttempt) (req : Request) :
    (resolveDomains ds req).2 ≤ 0 := by
  induction ds generalizing req with
  | nil => exact le_rfl
  | cons d ds ih =>
    cases d with
    | missing => exact ih req
    | tooShort | tooLong => exact (by decide : -einval ≤ 0)
    | refused => exact (by decide : -eio ≤ 0)
    | accepted => exact ih _

theorem resolveDomains_forwards {ds : List DomainAttempt} (req : Request)
    (h : ∀ d ∈ ds, d = .missing ∨ d = .accepted) : (resolveDomains ds req).2 = 0 := by
  induction ds generalizing req with
  | nil => rfl
  | cons d ds ih =>
    have hds := fun req => ih req (forall_mem_cons.mp h).2
    rcases h d mem_cons_self with rfl | rfl <;> exact hds _

theorem nsResolv_uncached (req : Request) (h : a.cached = none) :
    (nsResolv a req).status ≤ 0 ∧ (nsResolv a req).sends = [] := by
  rw [nsResolv,h]
  split_ifs
  · exact ⟨le_rfl,rfl⟩
  · exact ⟨resolveDomains_status _ _,rfl⟩
  · exact ⟨(by decide : -eio ≤ 0),rfl⟩

theorem nsResolv_forwards (req : Request) (h : a.cached = none) (ha : a.Forwards) :
    (nsResolv a req).status = 0 := by
  rw [nsResolv,h]
  rw [if_pos ha.1]
  split_ifs with hd
  · rfl
  · exact resolveDomains_forwards _ (ha.2.resolve_left hd)

theorem sendCachedResponse_delivered (data : CachedPacket) (ho : ClientOpen clients req) :
    (delivered clients req (sendCachedResponse req.protocol data)).length = 1 := by
  cases hp : req.protocol with
  | udp =>
    have hne : data.1.drop 2 ≠ [] := length_pos_iff.mp (by rw [length_drop]; omega)
    have h := delivered_one ho hne
    rwa [hp] at h
  | tcp =>
    have hne : data.1 ≠ [] := length_pos_iff.mp (by omega)
    have h := delivered_one ho hne
    rwa [hp] at h

theorem sendResponse_delivered {buf : List UInt8} (hb : 12 ≤ buf.length)
    (ho : ClientOpen clients req) :
    (delivered clients req (sendResponse req.protocol buf)).length = 1 := by
  rw [sendResponse,if_neg (by omega)]
  exact delivered_one ho (length_pos_iff.mp (by rw [servfail]; simp; omega))

section

variable (hw : Waiting e)
include hw

theorem Settles.unaltered : Settles clients e (unchanged e) :=
  .stays rfl hw rfl

theorem waiting_same (h : SameRequest e.req req') : Waiting { e with req := req' } := by
  refine ⟨hw.listed,hw.armed,?_,?_⟩
  · rw [h.request]
    exact hw.request
  · rw [h.resp]
    exact hw.resp

theorem Settles.same (h : SameRequest e.req req') :
    Settles clients e ⟨some { e with req := req' },[]⟩ :=
  .stays h.ident (waiting_same hw h) rfl

theorem Settles.rearmed (h : SameRequest e.req req') :
    Settles clients e ⟨some { e with req := req', armed := true },[]⟩ := by
  have hw' := waiting_same hw h
  exact .stays h.ident ⟨hw'.listed,rfl,hw'.request,hw'.resp⟩ rfl

theorem hangupRequest_settles (h : e.req.protocol = .tcp → 2 ≤ e.req.numserv) :
    Settles clients e (hangupRequest e) := by
  unfold hangupRequest
  split_ifs with hu
  · exact .unaltered hw
  obtain ⟨bytes,hb,-⟩ := hw.request
  have htcp : e.req.protocol = .tcp := by
    cases hp : e.req.protocol with
    | udp => exact absurd (.inr hp) hu
    | tcp => rfl
  have hn := h htcp
  simp only [hb]
  rw [if_pos (by omega)]
  exact .same hw ⟨rfl,hb.symm,rfl⟩

theorem connectRequest_settles
    (h : e.req.protocol = .tcp → a.cached ≠ none → e.req.client ∈ clients) :
    Settles clients e (connectRequest a e) := by
  unfold connectRequest
  split_ifs with hu
  · exact .unaltered hw
  cases hc : a.cached with
  | some data =>
    rw [nsResolv,hc]
    refine .leaves (sendCachedResponse_delivered data ?_)
    exact fun hp => h hp (by rw [hc]; simp)
  | none =>
    have hsame := (nsResolv_retries a e.req).same
    obtain ⟨hst,hsends⟩ := nsResolv_uncached e.req hc
    rw [if_neg (by omega),hsends]
    split_ifs
    · exact .same hw hsame
    · exact .rearmed hw hsame

theorem flushRequest_settles (hopen : a.cached ≠ none → ClientOpen clients e.req)
    (hfwd : a.cached = none → a.Forwards) : Settles clients e (flushRequest a e) := by
  unfold flushRequest
  rw [if_neg (by rw [hw.listed]; decide)]
  cases hc : a.cached with
  | some data =>
    rw [nsResolv,hc]
    exact .leaves (sendCachedResponse_delivered data (hopen (by rw [hc]; simp)))
  | none =>
    have hsame := (nsResolv_retries a e.req).same
    obtain ⟨-,hsends⟩ := nsResolv_uncached e.req hc
    dsimp only
    rw [nsResolv_forwards e.req hc (hfwd hc),if_neg (by decide),hsends]
    exact .rearmed hw hsame

theorem requestTimeout_delivered (ho : ClientOpen clients e.req) :
    (delivered clients e.req (requestTimeout e.req)).length = 1 := by
  unfold requestTimeout
  split_ifs with hr
  · cases hb : e.req.resp with
    | none => simp [hb] at hr
    | some bytes =>
      have hne : bytes ≠ [] := by simpa [hb] using hr
      exact delivered_one ho hne
  · obtain ⟨bytes,hb,hlen⟩ := hw.request
    simp only [hb]
    exact sendResponse_delivered (by rwa [setId_length]) ho

theorem timeoutRequest_settles {id : Nat} (ho : e.req.ident = id → ClientOpen clients e.req) :
    Settles clients e (timeoutRequest id e) := by
  unfold timeoutRequest
  split_ifs with hid
  · exact .leaves (requestTimeout_delivered hw (ho hid.1))
  · exact .unaltered hw

end

end

def Waits (p : Protocol) (reply : List UInt8) (req : Request) : Prop :=
  req.numresp + 1 < req.numserv ∧
    (0 < ((reply.drop (protocolOffset p)).getD 3 0).toNat % 16 ∨
      (wordAt (reply.drop (protocolOffset p)) 6 = 0 ∧ req.appendDomain = true))

def Unstored (L : NameCodec) (p : Protocol) (reply : List UInt8) (req : Request) : Prop :=
  req.resp = none ∧ req.appendDomain = true ∧
    wordAt (reply.drop (protocolOffset p)) 4 = 1 ∧
    Strips ((setId p req.srcid reply).drop (protocolOffset p)) ∧
    StopsEarly L ((setId p req.srcid reply).drop (protocolOffset p))

section

variable {L : NameCodec} {p : Protocol} {reply : List UInt8} {stack : Stack} {addr : Nat}
  {req : Request} {rcode : Nat}

theorem storeReply_drop (h : storeReply L p reply stack addr req rcode = .ok .drop)
    (hr : req.resp = none) :
    req.appendDomain = true ∧ wordAt (reply.drop (protocolOffset p)) 4 = 1 ∧
      Strips (reply.drop (protocolOffset p)) ∧ StopsEarly L (reply.drop (protocolOffset p)) := by
  rcases storeReply_cases rfl h with ⟨hnot,-⟩ | ⟨-,⟨-,hr⟩ | ⟨⟨happ,hone⟩,hrewrite⟩⟩
  · exact absurd (.inr hr) hnot
  · cases hr
  refine ⟨happ,hone,?_⟩
  rcases rewriteReply_cases rfl hrewrite with ⟨-,hr⟩ | ⟨hstrip,hend,hstripped⟩
  · cases hr
  rcases stripReply_cases rfl hend hstripped with ⟨hstop,-⟩ | ⟨-,hr | ⟨body,hr⟩⟩
  · exact ⟨hstrip,hstop⟩
  · cases hr
  · cases hr

theorem storeReply_pass {bytes : List UInt8} (hne : reply ≠ [])
    (h : storeReply L p reply stack addr req rcode = .ok (.pass bytes)) : bytes ≠ [] := by
  rcases storeReply_cases rfl h with ⟨-,hr⟩ | ⟨-,⟨-,hr⟩ | ⟨-,hrewrite⟩⟩
  · cases hr
  · cases hr
    exact hne
  rcases rewriteReply_cases rfl hrewrite with ⟨-,hr⟩ | ⟨-,hend,hstripped⟩
  · cases hr
    exact hne
  rcases stripReply_cases rfl hend hstripped with ⟨-,hr⟩ | ⟨-,hr | ⟨body,hr⟩⟩
  · cases hr
  · cases hr
  cases hr
  cases reply with
  | nil => exact absurd rfl hne
  | cons b bs => simp [domainHdrSz]

theorem finish_settles {ancount : Nat} (hw : Waiting e)
    (hid : req.ident = e.req.ident) (hreq : req.request = e.req.request)
    (hresp : req.resp ≠ some [])
    (hans : ¬(req.numresp < req.numserv ∧ (0 < rcode ∨ (ancount = 0 ∧ req.appendDomain = true))) →
      e.req.protocol = p ∧ ClientOpen clients e.req ∧ req.resp ≠ none) :
    Settles clients e (forwardRequest p e.req.ident (finish req rcode ancount) e) := by
  unfold forwardRequest finish
  rw [if_pos rfl]
  split_ifs with hwait
  · refine .stays hid ⟨hw.listed,hw.armed,?_,hresp⟩ rfl
    rw [hreq]
    exact hw.request
  obtain ⟨hp,ho,hsome⟩ := hans hwait
  obtain ⟨bytes,hb⟩ := Option.ne_none_iff_exists'.mp hsome
  have hne : bytes ≠ [] := fun hn => hresp (by rw [hb,hn])
  simp only [hb,Option.getD_some]
  rw [← hp]
  exact .leaves (delivered_one ho hne)

theorem forwardRequest_settles {f : Forward} (hw : Waiting e)
    (hf : forwardDnsReply L p reply stack addr e.req = .ok f) (hc : Waits p reply e.req ∨
      (e.req.protocol = p ∧ ClientOpen clients e.req ∧ ¬Unstored L p reply e.req)) :
    Settles clients e (forwardRequest p e.req.ident f e) := by
  obtain ⟨hne,r,hr,rfl⟩ := forwardDnsReply_ok rfl hf
  have hne' : setId p e.req.srcid reply ≠ [] := by
    rw [← length_pos_iff,setId_length]
    exact length_pos_iff.mpr hne
  cases r with
  | pass bytes =>
    have hb := storeReply_pass hne' hr
    refine finish_settles hw rfl rfl (by simpa using hb) (fun hn => ?_)
    obtain ⟨hp,ho,-⟩ := hc.resolve_left hn
    exact ⟨hp,ho,by simp⟩
  | drop =>
    refine finish_settles hw rfl rfl hw.resp (fun hn => ?_)
    obtain ⟨hp,ho,hu⟩ := hc.resolve_left hn
    refine ⟨hp,ho,fun hnone => hu ?_⟩
    obtain ⟨happ,hqd,hstrip,hstop⟩ := storeReply_drop hr hnone
    rw [wordAt,setId_getD p _ reply (by omega),setId_getD p _ reply (by omega)] at hqd
    exact ⟨hnone,happ,hqd,hstrip,hstop⟩
  | corrupted =>
    simp only [conclude,forwardRequest,if_true]
    exact .same hw ⟨rfl,rfl,rfl⟩

end

def Clean (L : NameCodec) (s : Proxy) : Event → Prop
  | .udpRequest _ _ => True
  | .tcpRequest _ _ _ => True
  | .clientConnected => True
  | .clientClosed _ => True
  | .reply p bytes _ _ =>
    ∀ e, findRequest s (wordLe (bytes.getD (protocolOffset p) 0)
        (bytes.getD (protocolOffset p + 1) 0)) = some e →
      Waits p bytes e.req ∨
        (e.req.protocol = p ∧ ClientOpen s.clients e.req ∧ ¬Unstored L p bytes e.req)
  | .hangup => ∀ e ∈ s.entries, e.listed = true → e.req.protocol = .tcp → 2 ≤ e.req.numserv
  | .connected attempts => ∀ e ∈ s.entries, e.listed = true → e.req.protocol = .tcp →
      (attempts e.req.ident).cached ≠ none → e.req.client ∈ s.clients
  | .serverAppended attempts => ∀ e ∈ s.entries, e.listed = true →
      ((attempts e.req.ident).cached ≠ none → ClientOpen s.clients e.req) ∧
        ((attempts e.req.ident).cached = none → (attempts e.req.ident).Forwards)
  | .timer id => ∀ e ∈ s.entries, e.req.ident = id → ClientOpen s.clients e.req

section

variable {s s' : Proxy}

theorem enlist_numbered (hn : (s.entries.map (·.req.ident)).Nodup)
    (hf : ∀ e ∈ s.entries, e.req.ident < s.next) (hid : req.ident = s.next) :
    ((enlist s req).entries.map (·.req.ident)).Nodup ∧
      ∀ e ∈ (enlist s req).entries, e.req.ident < (enlist s req).next := by
  constructor
  · rw [enlist,map_append,nodup_append]
    refine ⟨hn,by simp,?_⟩
    intro a ha b hb
    obtain ⟨e,he,rfl⟩ := mem_map.mp ha
    have hlt := hf e he
    obtain rfl : b = req.ident := by simpa using hb
    omega
  · refine forall_mem_append.mpr ⟨fun e he => Nat.lt_succ_of_lt (hf e he),?_⟩
    exact forall_mem_singleton.mpr (hid ▸ Nat.lt_succ_self _)

theorem oneAnswer_of_same (hl : listedIds s' = listedIds s) (hs : s'.sent = s.sent) :
    OneAnswer s s' := by
  refine ⟨fun id hid hleft => absurd (hl ▸ hid) hleft,fun id _ _ => ?_⟩
  rw [sentTo,hs,sentTo]

section

variable (h : Orderly s)
include h

theorem answerNow_step {sends : List Send} (hid : req.ident = s.next) :
    Orderly (answerNow s req sends) ∧ OneAnswer s (answerNow s req sends) := by
  refine ⟨⟨h.nodup,fun e he => Nat.lt_succ_of_lt (h.fresh e he),h.waiting⟩,
    fun id hin hleft => absurd hin hleft,fun id hlt _ => ?_⟩
  have hzero : (delivered s.clients req sends).countP (·.ident == id) = 0 := by
    rw [countP_eq_zero]
    intro m hm
    rw [delivered_ident hm,hid,beq_iff_eq]
    omega
  rw [sentTo,answerNow,countP_append,hzero,Nat.add_zero,sentTo]

theorem enlist_step (hid : req.ident = s.next) (hw : Waiting ⟨req,true,true⟩) :
    Orderly (enlist s req) ∧ OneAnswer s (enlist s req) := by
  obtain ⟨hnodup,hfresh⟩ := enlist_numbered h.nodup h.fresh hid
  refine ⟨⟨hnodup,hfresh,?_⟩,?_,fun id _ _ => rfl⟩
  · exact forall_mem_append.mpr ⟨h.waiting,forall_mem_singleton.mpr hw⟩
  intro id hin hleft
  refine absurd ?_ hleft
  rw [listedIds,enlist,filter_append,map_append]
  exact mem_append_left _ hin

theorem udpListenerEvent_step (a : Arrival) (attempts : List Attempt) :
    Orderly (udpListenerEvent a attempts s) ∧ OneAnswer s (udpListenerEvent a attempts s) := by
  unfold udpListenerEvent
  split_ifs with hlen hacc
  · exact ⟨h,oneAnswer_of_same rfl rfl⟩
  · have hsame := (resolv_retries attempts (newRequest s .udp a)).same
    have hbytes : 12 ≤ (a.bytes.drop (protocolOffset .udp)).length := by
      simp only [Arrival.accepted,Bool.and_eq_true,decide_eq_true_eq] at hacc
      exact hacc.1.2
    generalize resolv attempts (newRequest s .udp a) = r at hsame ⊢
    obtain ⟨cached,req,sends⟩ := r
    cases cached with
    | true => exact answerNow_step h hsame.ident
    | false =>
      refine enlist_step h hsame.ident ⟨rfl,rfl,⟨_,rfl,?_⟩,?_⟩
      · rw [setId_length]
        exact hbytes
      · have hresp : req.resp = none := hsame.resp
        simp [hresp]
  · exact answerNow_step h rfl

theorem tcpRequest_step (a : Arrival) (cached : Option CachedPacket) (connecting : Bool) :
    Orderly (tcpRequest a cached connecting s) ∧ OneAnswer s (tcpRequest a cached connecting s) := by
  unfold tcpRequest
  split
  · exact ⟨h,oneAnswer_of_same rfl rfl⟩
  split
  · rename_i hacc
    have hbytes : 12 ≤ (a.bytes.drop (protocolOffset .tcp)).length := by
      simp only [Arrival.accepted,Bool.and_eq_true,decide_eq_true_eq] at hacc
      exact hacc.1.2
    rw [length_drop] at hbytes
    cases cached with
    | some data => exact answerNow_step h rfl
    | none =>
      split_ifs
      · refine enlist_step h rfl ⟨rfl,rfl,⟨_,rfl,?_⟩,by simp [newRequest]⟩
        rw [setId_length]
        omega
      · exact answerNow_step h rfl
  · exact answerNow_step h rfl

theorem serverReply_step {L : NameCodec} {p : Protocol} {reply : List UInt8} {stack : Stack}
    {addr : Nat} (hc : Clean L s (.reply p reply stack addr))
    (hs : serverReply L p reply stack addr s = .ok s') : Orderly s' ∧ OneAnswer s s' := by
  rcases serverReply_cases hs with rfl | ⟨e,f,hfind,hf,rfl⟩
  · exact ⟨h,oneAnswer_of_same rfl rfl⟩
  have he : e ∈ s.entries := mem_of_find?_eq_some hfind
  have hset : ∀ d ∈ s.entries, Settles s.clients d (forwardRequest p e.req.ident f d) := by
    intro d hd
    by_cases hid : d.req.ident = e.req.ident
    · obtain rfl := inj_on_of_nodup_map h.nodup hd he hid
      exact forwardRequest_settles (h.waiting d hd) hf (hc d hfind)
    · unfold forwardRequest
      rw [if_neg hid]
      exact .unaltered (h.waiting d hd)
  exact ⟨sweep_orderly h hset,sweep_oneAnswer h hset⟩

theorem clean_step {L : NameCodec} {e : Event} (hc : Clean L s e) (hs : Steps L s e s') :
    Orderly s' ∧ OneAnswer s s' := by
  cases e with
  | udpRequest a attempts =>
    cases hs
    exact udpListenerEvent_step h a attempts
  | tcpRequest a cached connecting =>
    cases hs
    exact tcpRequest_step h a cached connecting
  | clientConnected | clientClosed c =>
    cases hs
    exact ⟨⟨h.nodup,h.fresh,h.waiting⟩,oneAnswer_of_same rfl rfl⟩
  | reply p bytes stack addr => exact serverReply_step h hc hs
  | hangup =>
    cases hs
    have hset : ∀ d ∈ s.entries, Settles s.clients d (hangupRequest d) := fun d hd =>
      hangupRequest_settles (h.waiting d hd) (hc d hd (h.waiting d hd).listed)
    exact ⟨sweep_orderly h hset,sweep_oneAnswer h hset⟩
  | connected attempts =>
    cases hs
    have hset : ∀ d ∈ s.entries, Settles s.clients d (connectRequest (attempts d.req.ident) d) :=
      fun d hd => connectRequest_settles (h.waiting d hd) (hc d hd (h.waiting d hd).listed)
    exact ⟨sweep_orderly h hset,sweep_oneAnswer h hset⟩
  | serverAppended attempts =>
    cases hs
    have hset : ∀ d ∈ s.entries, Settles s.clients d (flushRequest (attempts d.req.ident) d) :=
      fun d hd => flushRequest_settles (h.waiting d hd) (hc d hd (h.waiting d hd).listed).1
        (hc d hd (h.waiting d hd).listed).2
    exact ⟨sweep_orderly h hset,sweep_oneAnswer h hset⟩
  | timer id =>
    cases hs
    have hset : ∀ d ∈ s.entries, Settles s.clients d (timeoutRequest id d) := fun d hd =>
      timeoutRequest_settles (h.waiting d hd) (hc d hd)
    have ho := sweep_orderly h hset
    have ha := sweep_oneAnswer h hset
    exact ⟨⟨ho.nodup,ho.fresh,ho.waiting⟩,ha.leaves,ha.silent⟩

end

end

theorem clean_runs_answer_once (L : NameCodec) {s s' : Proxy} {e : Event}
    (hr : Reach emptyProxy (Guarded (Clean L) (Steps L)) s) (hc : Clean L s e)
    (hs : Steps L s e s') : OneAnswer s s' := by
  have ho : Orderly s := reach_invariant
    (show Orderly emptyProxy from
      ⟨nodup_nil,fun _ he => absurd he not_mem_nil,fun _ he => absurd he not_mem_nil⟩)
    (fun _ _ _ h he => (clean_step h he.1 he.2).1) hr
  exact (clean_step ho hc hs).2

def hostRequest (client : Nat) : Arrival where
  client := client
  bytes := [0,19,9,0,1,0,0,1,0,0,0,0,0,0,1,104,0,0,1,0,1]
  parsed := true
  servers := true
  dstid := 1
  altid := 2

def pendingProxy : Proxy where
  entries := [⟨{ newRequest emptyProxy .tcp (hostRequest 0) with
    request := some (setId .tcp 1 (hostRequest 0).bytes) },true,true⟩]
  clients := [0]
  nextClient := 1
  sent := []
  next := 1

theorem pendingProxy_reached :
    Reach emptyProxy (Guarded (Clean libresolv) (Steps libresolv)) pendingProxy := by
  have h1 : Reach emptyProxy (Guarded (Clean libresolv) (Steps libresolv)) ⟨[],[0],1,[],0⟩ :=
    .next (e := .clientConnected) .start ⟨trivial,rfl⟩
  exact .next (e := .tcpRequest (hostRequest 0) none true) h1 ⟨trivial,rfl⟩

theorem pendingProxy_times_out :
    OneAnswer pendingProxy (timerFired 0 pendingProxy) :=
  clean_runs_answer_once libresolv (e := .timer 0) pendingProxy_reached
    (fun e he _ => by
      obtain rfl := mem_singleton.mp he
      exact fun _ => by decide) rfl

theorem hangup_then_timeout_answers_twice :
    ∃ s s', Reach emptyProxy (Steps libresolv) s ∧ Steps libresolv s (.timer 0) s' ∧
      ¬OneAnswer s s' := by
  have h1 : Reach emptyProxy (Steps libresolv) (sweep hangupRequest pendingProxy) :=
    .next (e := .hangup) (reach_unguarded pendingProxy_reached) rfl
  refine ⟨_,timerFired 0 (sweep hangupRequest pendingProxy),h1,rfl,fun h => ?_⟩
  have hsilent := h.silent 0 (by decide) (by decide)
  exact absurd hsilent (by decide)

end FuzzingTargets.DnsProxy
