import FuzzingTargets.Connman.DnsProxy.ForwardReply

namespace FuzzingTargets.DnsProxy
open Bytes Checked

structure Entry where
  req : Request
  listed : Bool
  armed : Bool
  deriving DecidableEq

structure Sent where
  ident : Nat
  bytes : List UInt8
  deriving DecidableEq

structure Proxy where
  entries : List Entry
  clients : List Nat
  nextClient : Nat
  sent : List Sent
  next : Nat
  deriving DecidableEq

abbrev CachedPacket := {b : List UInt8 // 14 ≤ b.length}

inductive DomainAttempt where
  | missing
  | tooShort
  | tooLong
  | refused
  | accepted
  deriving DecidableEq

structure Attempt where
  cached : Option CachedPacket
  accepted : Bool
  dotted : Bool
  domains : List DomainAttempt
  deriving DecidableEq

abbrev Send := Protocol × List UInt8

def einval : Int := 22

def eio : Int := 5

structure Resolution where
  req : Request
  status : Int
  sends : List Send
  deriving DecidableEq

variable (p : Protocol) (id : Nat)

def sendCachedResponse (data : CachedPacket) : List Send :=
  match p with
  | .udp => [(.udp,data.1.drop 2)]
  | .tcp => [(.tcp,data.1)]

def resolveDomains : List DomainAttempt → Request → Request × Int
  | [], req => (req,0)
  | .missing :: ds, req => resolveDomains ds req
  | .tooShort :: _, req => (req,-einval)
  | .tooLong :: _, req => (req,-einval)
  | .refused :: _, req => (req,-eio)
  | .accepted :: ds, req => resolveDomains ds { req with numserv := req.numserv + 1 }

variable (a : Attempt) (e : Entry)

def nsResolv (req : Request) : Resolution :=
  match a.cached with
  | some data => ⟨req,1,sendCachedResponse req.protocol data⟩
  | none =>
    if a.accepted then
      let req := { req with numserv := req.numserv + 1 }
      if a.dotted then ⟨req,0,[]⟩
      else
        let req := { req with
          appendDomain := req.appendDomain || decide (a.domains.head?.any (· ≠ .missing)) }
        let r := resolveDomains a.domains req
        ⟨r.1,r.2,[]⟩
    else ⟨req,-eio,[]⟩

def resolv : List Attempt → Request → Bool × Request × List Send
  | [], req => (false,req,[])
  | a :: as, req =>
    let r := nsResolv a req
    if 0 < r.status then (true,r.req,r.sends) else resolv as r.req

def servfail (buf : List UInt8) : List UInt8 :=
  let o := protocolOffset p
  let buf := buf.modify (o + 2) (· ||| 0x80)
  let buf := buf.modify (o + 3) (fun b => (b &&& 0xf0) ||| 2)
  [6,7,8,9,10,11].foldl (fun buf i => buf.set (o + i) 0) buf

def sendResponse (buf : List UInt8) : List Send :=
  if buf.length < 12 then [] else [(p,servfail p buf)]

structure Outcome where
  entry : Option Entry
  sends : List Send
  deriving DecidableEq

def unchanged : Outcome := ⟨some e,[]⟩

def hangupRequest : Outcome :=
  if e.listed = false ∨ e.req.protocol = .udp then unchanged e
  else
    match e.req.request with
    | none => unchanged e
    | some request =>
      let req := { e.req with numserv := e.req.numserv - 1 }
      if req.numserv ≠ 0 then ⟨some { e with req := req },[]⟩
      else
        let request := setId .tcp req.srcid request
        ⟨some { e with req := { req with request := some (servfail .tcp request) }, listed := false },
          sendResponse .tcp request⟩

def connectRequest : Outcome :=
  if e.listed = false ∨ e.req.protocol = .udp then unchanged e
  else
    let r := nsResolv a e.req
    if 0 < r.status then ⟨none,r.sends⟩
    else if r.status < 0 then ⟨some { e with req := r.req },r.sends⟩
    else ⟨some { e with req := r.req, armed := true },r.sends⟩

def flushRequest : Outcome :=
  if e.listed = false then unchanged e
  else
    let r := nsResolv a e.req
    if r.status ≠ 0 then ⟨none,r.sends⟩
    else ⟨some { e with req := r.req, armed := true },r.sends⟩

def requestTimeout (req : Request) : List Send :=
  if req.resp.any (· ≠ []) then [(req.protocol,req.resp.getD [])]
  else
    match req.request with
    | none => []
    | some request => sendResponse req.protocol (setId req.protocol req.srcid request)

def timeoutRequest (e : Entry) : Outcome :=
  if e.req.ident = id ∧ e.armed = true then ⟨none,requestTimeout e.req⟩ else unchanged e

def forwardRequest (f : Forward) (e : Entry) : Outcome :=
  if e.req.ident = id then
    match f with
    | .waiting req => ⟨some { e with req := req },[]⟩
    | .answered req => ⟨none,[(p,req.resp.getD [])]⟩
  else unchanged e

def Reaches (clients : List Nat) (req : Request) (m : Send) : Prop :=
  m.1 = req.protocol ∧ (req.protocol = .tcp → req.client ∈ clients) ∧ m.2 ≠ []

instance (clients : List Nat) (req : Request) (m : Send) : Decidable (Reaches clients req m) :=
  inferInstanceAs (Decidable (_ ∧ _ ∧ _))

def delivered (clients : List Nat) (req : Request) (sends : List Send) : List Sent :=
  (sends.filter (fun m => decide (Reaches clients req m))).map (fun m => ⟨req.ident,m.2⟩)

def sweep (f : Entry → Outcome) (s : Proxy) : Proxy :=
  { s with
    entries := s.entries.filterMap (fun e => (f e).entry)
    sent := s.sent ++ s.entries.flatMap (fun e => delivered s.clients e.req (f e).sends) }

def wordLe (lo hi : UInt8) : UInt16 := lo.toUInt16 ||| (hi.toUInt16 <<< 8)

variable (L : NameCodec) (s : Proxy)

def findRequest (id : UInt16) : Option Entry :=
  s.entries.find? (fun e => e.listed && (e.req.dstid == id || e.req.altid == id))

def serverReply (p : Protocol) (reply : List UInt8) (stack : Stack) (addr : Nat)
    (s : Proxy) : Except Fault Proxy := do
  let lo ← load Fault.reply reply (protocolOffset p)
  let hi ← load Fault.reply reply (protocolOffset p + 1)
  match findRequest s (wordLe lo hi) with
  | none => pure s
  | some e => do
    let f ← forwardDnsReply L p reply stack addr e.req
    pure (sweep (forwardRequest p e.req.ident f) s)

structure Arrival where
  client : Nat
  bytes : List UInt8
  parsed : Bool
  servers : Bool
  dstid : UInt16
  altid : UInt16
  deriving DecidableEq

def newRequest (p : Protocol) (a : Arrival) : Request where
  ident := s.next
  client := a.client
  protocol := p
  srcid := wordLe (a.bytes.getD (protocolOffset p) 0) (a.bytes.getD (protocolOffset p + 1) 0)
  dstid := a.dstid
  altid := a.altid
  numserv := 0
  numresp := 0
  request := none
  resp := none
  appendDomain := false

def answerNow (req : Request) (sends : List Send) : Proxy :=
  { s with sent := s.sent ++ delivered s.clients req sends, next := s.next + 1 }

def enlist (req : Request) : Proxy :=
  { s with entries := s.entries ++ [⟨req,true,true⟩], next := s.next + 1 }

def Arrival.accepted (a : Arrival) : Bool :=
  a.parsed && decide (12 ≤ (a.bytes.drop (protocolOffset p)).length) && a.servers

def udpListenerEvent (a : Arrival) (attempts : List Attempt) (s : Proxy) : Proxy :=
  if a.bytes.length < 2 then s
  else if a.accepted .udp then
    match resolv attempts (newRequest s .udp a) with
    | (true,req,sends) => answerNow s req sends
    | (false,req,_) => enlist s { req with request := some (setId .udp a.dstid a.bytes) }
  else answerNow s (newRequest s .udp a) (sendResponse .udp a.bytes)

def tcpRequest (a : Arrival) (cached : Option CachedPacket) (connecting : Bool) (s : Proxy) :
    Proxy :=
  if a.client ∉ s.clients then s
  else if a.accepted .tcp then
    match cached with
    | some data => answerNow s (newRequest s .tcp a) (sendCachedResponse .tcp data)
    | none =>
      if connecting then
        enlist s { newRequest s .tcp a with request := some (setId .tcp a.dstid a.bytes) }
      else answerNow s (newRequest s .tcp a) (sendResponse .tcp (setId .tcp a.dstid a.bytes))
  else answerNow s (newRequest s .tcp a) (sendResponse .tcp a.bytes)

def kickClient (s : Proxy) : List Nat :=
  match s.entries.find? (fun e => e.req.ident == id && e.armed) with
  | none => s.clients
  | some e => if e.req.protocol = .tcp then s.clients.filter (· ≠ e.req.client) else s.clients

def timerFired (s : Proxy) : Proxy :=
  { sweep (timeoutRequest id) s with clients := kickClient id s }

inductive Event where
  | udpRequest (a : Arrival) (attempts : List Attempt)
  | tcpRequest (a : Arrival) (cached : Option CachedPacket) (connecting : Bool)
  | clientConnected
  | clientClosed (client : Nat)
  | reply (p : Protocol) (bytes : List UInt8) (stack : Stack) (addr : Nat)
  | hangup
  | connected (attempts : Nat → Attempt)
  | serverAppended (attempts : Nat → Attempt)
  | timer (id : Nat)

def step : Event → Except Fault Proxy
  | .udpRequest a attempts => pure (udpListenerEvent a attempts s)
  | .tcpRequest a cached connecting => pure (tcpRequest a cached connecting s)
  | .clientConnected =>
    pure { s with clients := s.nextClient :: s.clients, nextClient := s.nextClient + 1 }
  | .clientClosed c => pure { s with clients := s.clients.filter (· ≠ c) }
  | .reply p bytes stack addr => serverReply L p bytes stack addr s
  | .hangup => pure (sweep hangupRequest s)
  | .connected attempts => pure (sweep (fun e => connectRequest (attempts e.req.ident) e) s)
  | .serverAppended attempts => pure (sweep (fun e => flushRequest (attempts e.req.ident) e) s)
  | .timer id => pure (timerFired id s)

def emptyProxy : Proxy := ⟨[],[],0,[],0⟩

def Steps (e : Event) (s' : Proxy) : Prop := step L s e = .ok s'

def listedIds : List Nat := (s.entries.filter (·.listed)).map (·.req.ident)

def sentTo (id : Nat) : Nat := s.sent.countP (·.ident == id)

structure OneAnswer (s s' : Proxy) : Prop where
  leaves : ∀ id ∈ listedIds s, id ∉ listedIds s' → sentTo s' id = sentTo s id + 1
  silent : ∀ id < s.next, id ∉ listedIds s → sentTo s' id = sentTo s id

def Retries (req req' : Request) : Prop :=
  ∃ numserv appendDomain,
    req' = { req with numserv := numserv, appendDomain := appendDomain }

section

variable {req req' req'' : Request}

theorem Retries.rfl : Retries req req := ⟨_,_,Eq.refl _⟩

theorem Retries.trans (h : Retries req req') (h' : Retries req' req'') : Retries req req'' := by
  obtain ⟨n,b,rfl⟩ := h
  obtain ⟨n',b',rfl⟩ := h'
  exact ⟨n',b',Eq.refl _⟩

theorem resolveDomains_retries (ds : List DomainAttempt) (req : Request) :
    Retries req (resolveDomains ds req).1 := by
  induction ds generalizing req with
  | nil => exact .rfl
  | cons d ds ih =>
    cases d with
    | missing => exact ih req
    | tooShort | tooLong | refused => exact .rfl
    | accepted => exact .trans ⟨_,_,rfl⟩ (ih { req with numserv := req.numserv + 1 })

theorem nsResolv_retries (req : Request) : Retries req (nsResolv a req).req := by
  unfold nsResolv
  cases a.cached with
  | some data => exact .rfl
  | none =>
    dsimp only
    split_ifs
    · exact ⟨_,_,rfl⟩
    · exact .trans ⟨_,_,rfl⟩ (resolveDomains_retries a.domains { req with
        numserv := req.numserv + 1
        appendDomain := req.appendDomain || decide (a.domains.head?.any (· ≠ .missing)) })
    · exact .rfl

theorem resolv_retries (as : List Attempt) (req : Request) : Retries req (resolv as req).2.1 := by
  induction as generalizing req with
  | nil => exact .rfl
  | cons a as ih =>
    have h := nsResolv_retries a req
    unfold resolv
    dsimp only
    split_ifs
    · exact h
    · exact h.trans (ih _)

end

def StopsEarly (msg : List UInt8) : Prop :=
  sectionEnd L msg [wordAt msg 6,wordAt msg 8,wordAt msg 10]
    (questionEnd msg,hostLen msg + 1 + 1 + 4) = none

def conclude (req : Request) (rcode ancount : Nat) : Rewrite → Forward
  | .pass bytes => finish { req with resp := some bytes } rcode ancount
  | .drop => finish req rcode ancount
  | .corrupted => .waiting req

section

variable {L : NameCodec} {p : Protocol} {reply : List UInt8} {stack : Stack} {addr : Nat}
  {req : Request}

theorem wordAt_of_loadWord {msg : List UInt8} {i n : Nat} (h : loadWord msg i = .ok n) :
    wordAt msg i = n := by
  obtain ⟨hi,hhi,h⟩ := bind_eq_ok h
  obtain ⟨lo,hlo,h⟩ := bind_eq_ok h
  cases h
  rw [wordAt,getD_of_load hhi,getD_of_load hlo]

theorem serverReply_cases {s s' : Proxy} (hs : serverReply L p reply stack addr s = .ok s') :
    s' = s ∨ ∃ e f, findRequest s (wordLe (reply.getD (protocolOffset p) 0)
        (reply.getD (protocolOffset p + 1) 0)) = some e ∧
      forwardDnsReply L p reply stack addr e.req = .ok f ∧
        s' = sweep (forwardRequest p e.req.ident f) s := by
  unfold serverReply at hs
  obtain ⟨lo,hlo,hs⟩ := bind_eq_ok hs
  obtain ⟨hi,hhi,hs⟩ := bind_eq_ok hs
  rw [getD_of_load hlo,getD_of_load hhi]
  cases hfind : findRequest s (wordLe lo hi) with
  | none =>
    rw [hfind] at hs
    cases hs
    exact .inl rfl
  | some e =>
    rw [hfind] at hs
    obtain ⟨f,hf,hs⟩ := bind_eq_ok hs
    cases hs
    exact .inr ⟨e,f,rfl,hf,rfl⟩

variable {msg : List UInt8} (hmsg : reply.drop (protocolOffset p) = msg)
include hmsg

theorem forwardDnsReply_ok {f : Forward} (h : forwardDnsReply L p reply stack addr req = .ok f) :
    reply ≠ [] ∧ ∃ r, storeReply L p (setId p req.srcid reply) stack addr
        { req with numresp := req.numresp + 1 }
        ((msg.getD 3 0).toNat % 16) = .ok r ∧
      f = conclude { req with numresp := req.numresp + 1 } ((msg.getD 3 0).toNat % 16)
        (wordAt msg 6) r := by
  subst hmsg
  unfold forwardDnsReply at h
  dsimp only at h
  obtain ⟨flags,hflags,h⟩ := bind_eq_ok h
  obtain ⟨ancount,hancount,h⟩ := bind_eq_ok h
  obtain ⟨r,hr,h⟩ := bind_eq_ok h
  have hf : (reply.drop (protocolOffset p)).getD 3 0 = flags := getD_of_load hflags
  have ha := wordAt_of_loadWord hancount
  refine ⟨?_,r,?_,?_⟩
  · rintro rfl
    simpa using load_eq_ok hflags
  · rw [hf]
    exact hr
  · rw [hf,ha]
    cases r <;> cases h <;> rfl

theorem stripReply_cases {r : Rewrite} (hend : questionEnd msg ≤ msg.length)
    (hr : stripReply L p reply stack addr (hostLen msg) (domainLen msg) = .ok r) :
    (StopsEarly L msg ∧ r = .drop) ∨ (¬StopsEarly L msg ∧
      (r = .corrupted ∨ ∃ body, r = .pass (reply.take (protocolOffset p + domainHdrSz) ++ body))) := by
  have hlt := hostLen_lt msg
  have hq : domainHdrSz + (hostLen msg + 1) + domainLen msg + 1 + 4 ≤ msg.length := hend
  obtain ⟨buf,hb,he⟩ := (@expandReply_question L msg stack (by omega)).1 hend
  rw [stripReply,hmsg,he] at hr
  obtain ⟨o,ho,hr⟩ := bind_eq_ok hr
  have hsections :=
    (uncompressSections_follows _ _ hb (by simp only [nsMaxDname]; omega)).ended ho
  cases o with
  | none =>
    cases hr
    exact .inl ⟨hsections.symm,rfl⟩
  | some s =>
    refine .inr ⟨fun hstop => ?_,?_⟩
    · rw [StopsEarly] at hstop
      rw [hstop] at hsections
      cases hsections
    obtain ⟨q,-,hr⟩ := bind_eq_ok hr
    cases q with
    | none =>
      cases hr
      exact .inl rfl
    | some q =>
      cases hr
      exact .inr ⟨_,rfl⟩

theorem rewriteReply_cases {r : Rewrite} (hr : rewriteReply L p reply stack addr = .ok r) :
    (¬Strips msg ∧ r = .pass reply) ∨ (Strips msg ∧ questionEnd msg ≤ msg.length ∧
      stripReply L p reply stack addr (hostLen msg) (domainLen msg) = .ok r) := by
  have hfits : ReplyFits L msg := by
    rw [← hmsg,← rewriteReply_avoids L p reply stack addr,hr]
    exact avoids_ok _ _
  rw [rewriteReply_header hmsg hfits.header] at hr
  by_cases hstrip : Strips msg
  · rw [if_pos hstrip] at hr
    exact .inr ⟨hstrip,hfits.question hstrip,hr⟩
  · rw [if_neg hstrip] at hr
    cases hr
    exact .inl ⟨hstrip,rfl⟩

theorem storeReply_cases {rcode : Nat} {r : Rewrite}
    (hr : storeReply L p reply stack addr req rcode = .ok r) :
    (¬(rcode = 0 ∨ req.resp = none) ∧ r = .drop) ∨ ((rcode = 0 ∨ req.resp = none) ∧
        (¬(req.appendDomain = true ∧ wordAt msg 4 = 1) ∧ r = .pass reply ∨
          (req.appendDomain = true ∧ wordAt msg 4 = 1) ∧
            rewriteReply L p reply stack addr = .ok r)) := by
  subst hmsg
  rw [storeReply] at hr
  split_ifs at hr with hstores happend
  · obtain ⟨qd,hqd,hr⟩ := bind_eq_ok hr
    rw [wordAt_of_loadWord hqd]
    split_ifs at hr with hone
    · exact .inr ⟨hstores,.inr ⟨⟨happend,hone⟩,hr⟩⟩
    · cases hr
      exact .inr ⟨hstores,.inl ⟨fun h => hone h.2,rfl⟩⟩
  · cases hr
    exact .inr ⟨hstores,.inl ⟨fun h => happend h.1,rfl⟩⟩
  · cases hr
    exact .inl ⟨hstores,rfl⟩

end

end FuzzingTargets.DnsProxy
