import FuzzingTargets.Connman.DnsProxy.Uncompress

namespace FuzzingTargets.DnsProxy
open Bytes Checked List

variable (buf : List UInt8) (i : Nat) (bs : List UInt8)

def cstringAt : Except Fault (List UInt8) :=
  if 0 ∈ buf.drop i then .ok (cstring (buf.drop i)) else .error (.strip buf.length)

def strstr (needle : List UInt8) : List UInt8 → Option Nat
  | [] => if needle = [] then some 0 else none
  | c :: cs => if needle.isPrefixOf (c :: cs) then some 0 else (strstr needle cs).map (· + 1)

structure StripState where
  buf : List UInt8
  answers : Nat
  stop : Nat
  maxlen : Int
  deriving DecidableEq

def cutDomain (name : List UInt8) (s : StripState) (found : Option Nat) :
    Except Fault StripState :=
  match found with
  | none => pure s
  | some k => do
    let domain := s.answers + k + name.length
    let tail ← cstringAt s.buf domain
    if tail = [] then pure s
    else do
      let src := domain + tail.length
      let count := (((s.stop : Int) - src) % 2 ^ 64).toNat
      let moved ← loadSlice Fault.strip s.buf src count
      let buf ← storeSlice Fault.strip s.buf (s.answers + name.length) moved
      pure { s with buf := buf, stop := s.stop - tail.length, maxlen := s.maxlen - tail.length }

def consumed (addr answers next : Nat) (found : Option Nat) : Int :=
  match found with
  | none => addr + next
  | some k => (next : Int) - (answers + k)

variable (addr : Nat) (name : List UInt8) (fuel : Nat) (s : StripState)

def stripRecord : Except Fault (Option StripState) := do
  let hay ← cstringAt s.buf s.answers
  let found := strstr name hay
  let s ← cutDomain name s found
  let owner ← cstringAt s.buf s.answers
  let lenPos := s.answers + owner.length + 1 + 8
  let hi ← load Fault.strip s.buf lenPos
  let lo ← load Fault.strip s.buf (lenPos + 1)
  let next := lenPos + 2 + charWord16 hi lo
  if s.stop < next then pure none
  else pure (some { s with
    answers := next
    maxlen := (s.maxlen - consumed addr s.answers next found).bmod (2 ^ 32) })

def stripLoop (addr : Nat) (name : List UInt8) : Nat → StripState → Except Fault (Option StripState)
  | 0, s => .error (.strip s.answers)
  | fuel + 1, s =>
    if 0 < s.maxlen then do
      match ← stripRecord addr name s with
      | none => pure none
      | some s' => stripLoop addr name fuel s'
    else pure (some s)

def stripDomains (buf : List UInt8) (answers maxlen : Nat) :
    Except Fault (Option (List UInt8 × Nat)) := do
  let name ← cstringAt buf 0
  match ← stripLoop addr name (buf.length + 1) ⟨buf,answers,answers + maxlen,maxlen⟩ with
  | none => pure none
  | some s => pure (some (s.buf,s.stop - answers))

theorem cstringAt_avoids : Avoids Fault.OfExpansion (cstringAt buf i) := by
  unfold cstringAt
  split
  · exact avoids_ok _ _
  · exact avoids_error.mpr id

theorem load_strip_avoids : Avoids Fault.OfExpansion (load Fault.strip buf i) := by
  unfold load
  split
  · exact avoids_ok _ _
  · exact avoids_error.mpr id

theorem loadSlice_strip_avoids (i n : Nat) :
    Avoids Fault.OfExpansion (loadSlice Fault.strip buf i n) := by
  unfold loadSlice
  split
  · exact avoids_ok _ _
  · exact avoids_error.mpr id

theorem storeSlice_strip_avoids : Avoids Fault.OfExpansion (storeSlice Fault.strip buf i bs) := by
  unfold storeSlice
  split
  · exact avoids_ok _ _
  · exact avoids_error.mpr id

theorem cutDomain_avoids (found : Option Nat) :
    Avoids Fault.OfExpansion (cutDomain name s found) := by
  unfold cutDomain
  cases found with
  | none => exact avoids_pure _ _
  | some k =>
    refine avoids_bind.mpr ⟨cstringAt_avoids _ _,fun tail _ => ?_⟩
    split
    · exact avoids_pure _ _
    · refine avoids_bind.mpr ⟨loadSlice_strip_avoids _ _ _,fun moved _ => ?_⟩
      exact avoids_bind.mpr ⟨storeSlice_strip_avoids _ _ _,fun buf _ => avoids_pure _ _⟩

theorem stripRecord_avoids : Avoids Fault.OfExpansion (stripRecord addr name s) := by
  unfold stripRecord
  refine avoids_bind.mpr ⟨cstringAt_avoids _ _,fun hay _ => ?_⟩
  refine avoids_bind.mpr ⟨cutDomain_avoids _ _ _,fun s' _ => ?_⟩
  refine avoids_bind.mpr ⟨cstringAt_avoids _ _,fun owner _ => ?_⟩
  refine avoids_bind.mpr ⟨load_strip_avoids _ _,fun hi _ => ?_⟩
  refine avoids_bind.mpr ⟨load_strip_avoids _ _,fun lo _ => ?_⟩
  dsimp only
  split <;> exact avoids_pure _ _

theorem stripLoop_avoids : Avoids Fault.OfExpansion (stripLoop addr name fuel s) := by
  induction fuel generalizing s with
  | zero => exact avoids_error.mpr id
  | succ fuel ih =>
    unfold stripLoop
    split
    · refine avoids_bind.mpr ⟨stripRecord_avoids _ _ _,fun r _ => ?_⟩
      cases r with
      | none => exact avoids_pure _ _
      | some s' => exact ih s'
    · exact avoids_pure _ _

theorem stripDomains_avoids (buf : List UInt8) (answers maxlen : Nat) :
    Avoids Fault.OfExpansion (stripDomains addr buf answers maxlen) := by
  unfold stripDomains
  refine avoids_bind.mpr ⟨cstringAt_avoids _ _,fun name _ => ?_⟩
  refine avoids_bind.mpr ⟨stripLoop_avoids _ _ _ _,fun r _ => ?_⟩
  cases r with
  | none | some s => exact avoids_pure _ _

inductive Protocol where
  | udp
  | tcp
  deriving DecidableEq

def protocolOffset : Protocol → Nat
  | .udp => 0
  | .tcp => 2

def domainHdrSz : Nat := 12

abbrev Stack := {b : List UInt8 // b.length = nsMaxDname}

def loadWord (msg : List UInt8) (i : Nat) : Except Fault Nat := do
  let hi ← load Fault.reply msg i
  let lo ← load Fault.reply msg (i + 1)
  pure (be16 hi lo)

def loadCharWord (msg : List UInt8) (i : Nat) : Except Fault Nat := do
  let hi ← load Fault.reply msg i
  let lo ← load Fault.reply msg (i + 1)
  pure (charWord16 hi lo)

def strnlen (msg : List UInt8) : Nat → Nat → Except Fault Nat
  | 0, _ => pure 0
  | n + 1, i => do
    let c ← load Fault.reply msg i
    if c = 0 then pure 0
    else do
      let k ← strnlen msg n (i + 1)
      pure (k + 1)

def loadDomainLen (msg : List UInt8) (hostLen : Nat) : Except Fault Nat :=
  if 0 < hostLen then strnlen msg (msg.length - domainHdrSz) (domainHdrSz + 1 + hostLen)
  else pure 0

inductive Rewrite where
  | pass (bytes : List UInt8)
  | drop
  | corrupted
  deriving DecidableEq

variable (L : NameCodec) (p : Protocol) (reply : List UInt8) (stack : Stack) (addr : Nat)

def expandReply (msg : List UInt8) (stack : Stack) (hostLen domainLen : Nat) :
    Except Fault (Option Cursor) := do
  let len := hostLen + 1
  let host ← loadSlice Fault.reply msg domainHdrSz len
  let buf ← storeSlice Fault.uncompressed stack.1 0 host
  let buf ← storeSlice Fault.uncompressed buf len [0]
  let question ← loadSlice Fault.reply msg (domainHdrSz + len + domainLen + 1) 4
  let buf ← storeSlice Fault.uncompressed buf (len + 1) question
  let ancount ← loadWord msg 6
  let nscount ← loadWord msg 8
  let arcount ← loadWord msg 10
  uncompressSections L msg [ancount,nscount,arcount]
    ⟨domainHdrSz + len + domainLen + 1 + 4,buf,len + 1 + 4⟩

def stripReply (hostLen domainLen : Nat) : Except Fault Rewrite := do
  match ← expandReply L (reply.drop (protocolOffset p)) stack hostLen domainLen with
  | none => pure .drop
  | some s => do
    let fixedLen := hostLen + 1 + 1 + 4
    match ← stripDomains addr s.buf fixedLen (s.upos - fixedLen) with
    | none => pure .corrupted
    | some (buf,newLen) =>
      pure (.pass (reply.take (protocolOffset p + domainHdrSz) ++ buf.take (newLen + fixedLen)))

def rewriteReply : Except Fault Rewrite := do
  let msg := reply.drop (protocolOffset p)
  let host ← load Fault.reply msg domainHdrSz
  let hostLen := host.toNat
  let domainLen ← loadDomainLen msg hostLen
  let domainLen := domainLen % 65536
  let dnsTypePos := (hostLen + 1 + domainLen + 1) % 256
  let dnsType ← loadCharWord msg (domainHdrSz + dnsTypePos)
  let dnsClass ← loadCharWord msg (domainHdrSz + dnsTypePos + 2)
  if dnsType ≠ 1 ∧ dnsType ≠ 28 ∧ dnsClass ≠ 1 then pure (.pass reply)
  else if 0 < domainLen then stripReply L p reply stack addr hostLen domainLen
  else pure (.pass reply)

structure Request where
  ident : Nat
  client : Nat
  protocol : Protocol
  srcid : UInt16
  dstid : UInt16
  altid : UInt16
  numserv : Nat
  numresp : Nat
  request : Option (List UInt8)
  resp : Option (List UInt8)
  appendDomain : Bool
  deriving DecidableEq

def idBytes (id : UInt16) : List UInt8 := [id.toUInt8,(id >>> 8).toUInt8]

def setId (id : UInt16) (reply : List UInt8) : List UInt8 :=
  (reply.set (protocolOffset p) id.toUInt8).set (protocolOffset p + 1) (id >>> 8).toUInt8

inductive Forward where
  | waiting (req : Request)
  | answered (req : Request)
  deriving DecidableEq

def storeReply (req : Request) (rcode : Nat) : Except Fault Rewrite := do
  if rcode = 0 ∨ req.resp = none then do
    if req.appendDomain then do
      let qdcount ← loadWord (reply.drop (protocolOffset p)) 4
      if qdcount = 1 then rewriteReply L p reply stack addr
      else pure (.pass reply)
    else pure (.pass reply)
  else pure .drop

def finish (req : Request) (rcode ancount : Nat) : Forward :=
  if req.numresp < req.numserv ∧ (0 < rcode ∨ (ancount = 0 ∧ req.appendDomain = true)) then
    .waiting req
  else .answered req

def forwardDnsReply (req : Request) : Except Fault Forward := do
  let msg := reply.drop (protocolOffset p)
  let flags ← load Fault.reply msg 3
  let rcode := flags.toNat % 16
  let ancount ← loadWord msg 6
  let req := { req with numresp := req.numresp + 1 }
  match ← storeReply L p (setId p req.srcid reply) stack addr req rcode with
  | .pass bytes => pure (finish { req with resp := some bytes } rcode ancount)
  | .drop => pure (finish req rcode ancount)
  | .corrupted => pure (.waiting req)

variable {msg reply : List UInt8} {i : Nat} {p : Protocol}

def hostLen (msg : List UInt8) : Nat := (msg.getD domainHdrSz 0).toNat

def domainLen (msg : List UInt8) : Nat :=
  if 0 < hostLen msg then strlen (msg.drop (domainHdrSz + 1 + hostLen msg)) % 65536 else 0

def dnsTypePos (msg : List UInt8) : Nat := (hostLen msg + 1 + domainLen msg + 1) % 256

def wordAt (msg : List UInt8) (i : Nat) : Nat := be16 (msg.getD i 0) (msg.getD (i + 1) 0)

def charWordAt (msg : List UInt8) (i : Nat) : Nat :=
  charWord16 (msg.getD i 0) (msg.getD (i + 1) 0)

def Strips (msg : List UInt8) : Prop :=
  ¬(charWordAt msg (domainHdrSz + dnsTypePos msg) ≠ 1 ∧
    charWordAt msg (domainHdrSz + dnsTypePos msg) ≠ 28 ∧
    charWordAt msg (domainHdrSz + dnsTypePos msg + 2) ≠ 1) ∧ 0 < domainLen msg

instance (msg : List UInt8) : Decidable (Strips msg) := inferInstanceAs (Decidable (_ ∧ _))

def questionEnd (msg : List UInt8) : Nat := domainHdrSz + (hostLen msg + 1) + domainLen msg + 1 + 4

def replyVisits (L : NameCodec) (msg : List UInt8) : List Visit :=
  sectionVisits L msg [wordAt msg 6,wordAt msg 8,wordAt msg 10]
    (questionEnd msg,hostLen msg + 1 + 1 + 4)

structure ReplyFits (L : NameCodec) (msg : List UInt8) : Prop where
  host : domainHdrSz < msg.length
  terminated : 0 < hostLen msg → 0 ∈ msg.drop (domainHdrSz + 1 + hostLen msg)
  typeClass : domainHdrSz + dnsTypePos msg + 4 ≤ msg.length
  question : Strips msg → questionEnd msg ≤ msg.length
  records : Strips msg → ∀ v ∈ replyVisits L msg, v.Fits msg

theorem getD_eq_getElem (h : i < msg.length) : msg.getD i 0 = msg[i] := by
  rw [getD_eq_getElem?_getD,getElem?_eq_getElem h,Option.getD_some]

theorem load_getD (h : i < msg.length) : load Fault.reply msg i = .ok (msg.getD i 0) := by
  rw [load_ok h,getD_eq_getElem h]

theorem loadWord_ok (h : i + 1 < msg.length) : loadWord msg i = .ok (wordAt msg i) := by
  unfold loadWord wordAt
  rw [load_getD (by omega),bind_ok,load_getD h]
  rfl

theorem loadCharWord_ok (h : i + 1 < msg.length) : loadCharWord msg i = .ok (charWordAt msg i) := by
  unfold loadCharWord charWordAt
  rw [load_getD (by omega),bind_ok,load_getD h]
  rfl

theorem avoids_loadCharWord :
    Avoids Fault.OfExpansion (loadCharWord msg i) ↔ i + 1 < msg.length := by
  constructor
  · intro h
    have h1 := avoids_bind.mp h
    have hi := (avoids_load (fun _ => trivial)).mp h1.1
    have h2 := avoids_bind.mp (h1.2 _ (load_ok hi))
    exact (avoids_load (fun _ => trivial)).mp h2.1
  · intro h
    rw [loadCharWord_ok h]
    exact avoids_ok _ _

theorem strnlen_terminated {n : Nat} (hz : 0 ∈ msg.drop i) (hn : msg.length < i + n) :
    strnlen msg n i = .ok (strlen (msg.drop i)) := by
  induction n generalizing i with
  | zero =>
    rw [drop_eq_nil_of_le (by omega)] at hz
    cases hz
  | succ n ih =>
    have hi : i < msg.length := by
      by_contra hle
      rw [drop_eq_nil_of_le (by omega)] at hz
      cases hz
    have hd : msg.drop i = msg[i] :: msg.drop (i + 1) := drop_eq_getElem_cons hi
    unfold strnlen
    rw [load_ok hi,bind_ok]
    by_cases hc : msg[i] = 0
    · rw [if_pos hc,hd,hc]
      rfl
    have hz' : 0 ∈ msg.drop (i + 1) := by
      rw [hd] at hz
      rcases mem_cons.mp hz with he | he
      · exact absurd he.symm hc
      · exact he
    rw [if_neg hc,ih hz' (by omega),bind_ok,hd]
    unfold strlen cstring
    rw [takeWhile_cons_of_pos (by simpa using hc)]
    rfl

theorem strnlen_unterminated {n : Nat} (hz : 0 ∉ msg.drop i) (hpos : 0 < n)
    (hn : msg.length < i + n) : ∃ f : Fault, f.OfExpansion ∧ strnlen msg n i = .error f := by
  induction n generalizing i with
  | zero => omega
  | succ n ih =>
    unfold strnlen
    rcases Nat.lt_or_ge i msg.length with hi | hi
    · have hd : msg.drop i = msg[i] :: msg.drop (i + 1) := drop_eq_getElem_cons hi
      rw [hd,mem_cons,not_or] at hz
      obtain ⟨f,hf,he⟩ := ih hz.2 (by omega) (by omega)
      refine ⟨f,hf,?_⟩
      rw [load_ok hi,bind_ok,if_neg (fun h => hz.1 h.symm),he,bind_error]
    · exact ⟨.reply i,trivial,by rw [load_fault hi,bind_error]⟩

theorem hostLen_lt (msg : List UInt8) : hostLen msg < 256 := UInt8.toNat_lt _

section

variable {L : NameCodec} {msg : List UInt8} {stack : Stack}

theorem expandReply_question (hh : domainHdrSz + hostLen msg + 1 ≤ msg.length) :
    (questionEnd msg ≤ msg.length → ∃ buf : List UInt8, buf.length = nsMaxDname ∧
      expandReply L msg stack (hostLen msg) (domainLen msg) =
        uncompressSections L msg [wordAt msg 6,wordAt msg 8,wordAt msg 10]
          ⟨questionEnd msg,buf,hostLen msg + 1 + 1 + 4⟩) ∧
    (¬questionEnd msg ≤ msg.length → ∃ f : Fault, f.OfExpansion ∧
      expandReply L msg stack (hostLen msg) (domainLen msg) = .error f) := by
  have hlt := hostLen_lt msg
  have hs := stack.2
  have hlen : ((msg.drop domainHdrSz).take (hostLen msg + 1)).length = hostLen msg + 1 := by
    rw [length_take,length_drop]
    omega
  obtain ⟨b1,hb1,he1⟩ := store_fits stack.1 0 ((msg.drop domainHdrSz).take (hostLen msg + 1))
    (by rw [hlen,hs]; unfold nsMaxDname; omega)
  obtain ⟨b2,hb2,he2⟩ := store_fits b1 (hostLen msg + 1) [(0 : UInt8)]
    (by rw [hb1,hs,length_singleton]; unfold nsMaxDname; omega)
  unfold expandReply
  dsimp only
  rw [loadSlice_ok (by omega),bind_ok,he1,bind_ok,he2,bind_ok]
  constructor
  · intro hq
    have hq' : domainHdrSz + (hostLen msg + 1) + domainLen msg + 1 + 4 ≤ msg.length := hq
    have hlen4 : ((msg.drop (domainHdrSz + (hostLen msg + 1) + domainLen msg + 1)).take 4).length = 4 := by
      rw [length_take,length_drop]
      omega
    obtain ⟨b3,hb3,he3⟩ := store_fits b2 (hostLen msg + 1 + 1)
      ((msg.drop (domainHdrSz + (hostLen msg + 1) + domainLen msg + 1)).take 4)
      (by rw [hlen4,hb2,hb1,hs]; unfold nsMaxDname; omega)
    refine ⟨b3,by rw [hb3,hb2,hb1,hs],?_⟩
    unfold domainHdrSz at hq'
    rw [loadSlice_ok hq,bind_ok,he3,bind_ok,loadWord_ok (by omega),bind_ok,
      loadWord_ok (by omega),bind_ok,loadWord_ok (by omega),bind_ok]
    rfl
  · intro hq
    rw [questionEnd] at hq
    exact ⟨.reply _,trivial,by rw [loadSlice,if_neg hq,bind_error]⟩

theorem expandReply_avoids (hh : domainHdrSz + hostLen msg + 1 ≤ msg.length) :
    Avoids Fault.OfExpansion (expandReply L msg stack (hostLen msg) (domainLen msg)) ↔
      questionEnd msg ≤ msg.length ∧ ∀ v ∈ replyVisits L msg, v.Fits msg := by
  obtain ⟨hok,hfault⟩ := @expandReply_question L msg stack hh
  by_cases hq : questionEnd msg ≤ msg.length
  · obtain ⟨buf,hb,he⟩ := hok hq
    have hlt := hostLen_lt msg
    rw [he,(uncompressSections_follows ⟨questionEnd msg,buf,hostLen msg + 1 + 1 + 4⟩ _ hb
      (by simp only [nsMaxDname]; omega)).avoids]
    exact ⟨fun h => ⟨hq,h⟩,fun h => h.2⟩
  · obtain ⟨f,hf,he⟩ := hfault hq
    rw [he,avoids_error]
    exact ⟨fun h => absurd hf h,fun h => absurd h.1 hq⟩

theorem stripReply_avoids (p : Protocol) (reply : List UInt8) (addr hl dl : Nat) :
    Avoids Fault.OfExpansion (stripReply L p reply stack addr hl dl) ↔
      Avoids Fault.OfExpansion (expandReply L (reply.drop (protocolOffset p)) stack hl dl) := by
  unfold stripReply
  rw [avoids_bind]
  refine ⟨fun h => h.1,fun h => ⟨h,fun r _ => ?_⟩⟩
  cases r with
  | none => exact avoids_pure _ _
  | some s =>
    refine avoids_bind.mpr ⟨stripDomains_avoids _ _ _ _,fun r _ => ?_⟩
    cases r with
    | none | some q => exact avoids_pure _ _

end

theorem loadDomainLen_ok (h : domainHdrSz < msg.length)
    (hz : 0 < hostLen msg → 0 ∈ msg.drop (domainHdrSz + 1 + hostLen msg)) :
    ∃ d, loadDomainLen msg (hostLen msg) = .ok d ∧ d % 65536 = domainLen msg := by
  unfold loadDomainLen domainLen
  split
  · rename_i hpos
    exact ⟨_,strnlen_terminated (hz hpos) (by omega),rfl⟩
  · exact ⟨0,rfl,rfl⟩

theorem loadDomainLen_fault (h : domainHdrSz < msg.length)
    (hz : ¬(0 < hostLen msg → 0 ∈ msg.drop (domainHdrSz + 1 + hostLen msg))) :
    ∃ f : Fault, f.OfExpansion ∧ loadDomainLen msg (hostLen msg) = .error f := by
  rw [Classical.not_imp] at hz
  rw [loadDomainLen,if_pos hz.1]
  exact strnlen_unterminated hz.2 (by omega) (by omega)

theorem hostLen_pos_of_strips (h : Strips msg) : 0 < hostLen msg := by
  by_contra h0
  have hd := h.2
  rw [domainLen,if_neg h0] at hd
  omega

structure HeaderFits (msg : List UInt8) : Prop where
  host : domainHdrSz < msg.length
  terminated : 0 < hostLen msg → 0 ∈ msg.drop (domainHdrSz + 1 + hostLen msg)
  typeClass : domainHdrSz + dnsTypePos msg + 4 ≤ msg.length

theorem ReplyFits.header {L : NameCodec} (h : ReplyFits L msg) : HeaderFits msg :=
  ⟨h.host,h.terminated,h.typeClass⟩

section

variable {L : NameCodec} {stack : Stack} {addr : Nat} (hm : reply.drop (protocolOffset p) = msg)
include hm

theorem rewriteReply_header (h : HeaderFits msg) :
    rewriteReply L p reply stack addr =
      if Strips msg then stripReply L p reply stack addr (hostLen msg) (domainLen msg)
      else .ok (.pass reply) := by
  have htype := h.typeClass
  obtain ⟨d,he,hd⟩ := loadDomainLen_ok h.host h.terminated
  unfold rewriteReply
  simp only [hm]
  rw [load_getD h.host,bind_ok]
  change (loadDomainLen msg (hostLen msg) >>= _) = _
  rw [he,bind_ok,hd]
  change (loadCharWord msg (domainHdrSz + dnsTypePos msg) >>= _) = _
  rw [loadCharWord_ok (by omega),bind_ok]
  change (loadCharWord msg (domainHdrSz + dnsTypePos msg + 2) >>= _) = _
  rw [loadCharWord_ok (by omega),bind_ok]
  by_cases hstrip : Strips msg
  · rw [if_neg hstrip.1,if_pos hstrip.2,if_pos hstrip]
    rfl
  rw [if_neg hstrip]
  split
  · rfl
  · rename_i hcond
    rw [if_neg (fun hpos => hstrip ⟨hcond,hpos⟩)]
    rfl

theorem rewriteReply_loads (h : Avoids Fault.OfExpansion (rewriteReply L p reply stack addr)) :
    HeaderFits msg := by
  unfold rewriteReply at h
  simp only [hm] at h
  have h1 := avoids_bind.mp h
  have hhost := (avoids_load (fun _ => trivial)).mp h1.1
  have h2 := avoids_bind.mp (h1.2 _ (load_getD hhost))
  have hterm : 0 < hostLen msg → 0 ∈ msg.drop (domainHdrSz + 1 + hostLen msg) := by
    by_contra hnot
    obtain ⟨f,hf,he⟩ := loadDomainLen_fault hhost hnot
    exact h2.1 f he hf
  obtain ⟨d,he,hd⟩ := loadDomainLen_ok hhost hterm
  have h3 := h2.2 _ he
  rw [hd] at h3
  have h4 := avoids_bind.mp h3
  have h5 := avoids_bind.mp (h4.2 _ (loadCharWord_ok (avoids_loadCharWord.mp h4.1)))
  have hclass := avoids_loadCharWord.mp h5.1
  change domainHdrSz + dnsTypePos msg + 2 + 1 < _ at hclass
  exact ⟨hhost,hterm,by omega⟩

end

theorem rewriteReply_avoids (L : NameCodec) (p : Protocol) (reply : List UInt8) (stack : Stack)
    (addr : Nat) : Avoids Fault.OfExpansion (rewriteReply L p reply stack addr) ↔
      ReplyFits L (reply.drop (protocolOffset p)) := by
  generalize hm : reply.drop (protocolOffset p) = msg
  suffices hiff : HeaderFits msg →
      (Avoids Fault.OfExpansion (rewriteReply L p reply stack addr) ↔ ReplyFits L msg) by
    constructor
    · intro h
      exact (hiff (rewriteReply_loads hm h)).mp h
    · intro h
      exact (hiff h.header).mpr h
  intro hfits
  obtain ⟨hhost,hterm,htype⟩ := hfits
  rw [rewriteReply_header hm ⟨hhost,hterm,htype⟩]
  by_cases hstrip : Strips msg
  · have hin : domainHdrSz + 1 + hostLen msg < msg.length := by
      by_contra hle
      have := hterm (hostLen_pos_of_strips hstrip)
      rw [drop_eq_nil_of_le (by omega)] at this
      cases this
    rw [if_pos hstrip,stripReply_avoids,hm,expandReply_avoids (by omega)]
    constructor
    · intro h
      exact ⟨hhost,hterm,htype,fun _ => h.1,fun _ => h.2⟩
    · intro h
      exact ⟨h.question hstrip,h.records hstrip⟩
  · rw [if_neg hstrip]
    exact ⟨fun _ => ⟨hhost,hterm,htype,fun h => absurd h hstrip,fun h => absurd h hstrip⟩,
      fun _ => avoids_ok _ _⟩

structure ReachesStrip (p : Protocol) (reply : List UInt8) (req : Request) : Prop where
  size : 12 ≤ reply.length
  append : req.appendDomain = true
  stores : ((reply.drop (protocolOffset p)).getD 3 0).toNat % 16 = 0 ∨ req.resp = none
  single : wordAt (reply.drop (protocolOffset p)) 4 = 1

theorem setId_length (p : Protocol) (id : UInt16) (reply : List UInt8) :
    (setId p id reply).length = reply.length := by simp [setId]

theorem setId_getD (p : Protocol) (id : UInt16) (reply : List UInt8) (hi : 2 ≤ i) :
    ((setId p id reply).drop (protocolOffset p)).getD i 0 =
      (reply.drop (protocolOffset p)).getD i 0 := by
  simp only [setId,getD_eq_getElem?_getD,getElem?_drop]
  rw [getElem?_set_ne (by omega),getElem?_set_ne (by omega)]

theorem storeReply_strips (L : NameCodec) (stack : Stack) (addr : Nat) {req : Request}
    (h : ReachesStrip p reply req) (id : UInt16) :
    storeReply L p (setId p id reply) stack addr { req with numresp := req.numresp + 1 }
        (((reply.drop (protocolOffset p)).getD 3 0).toNat % 16) =
      rewriteReply L p (setId p id reply) stack addr := by
  have hsize := h.size
  have hoff : protocolOffset p ≤ 2 := by cases p <;> simp [protocolOffset]
  have hword : wordAt ((setId p id reply).drop (protocolOffset p)) 4 = 1 := by
    rw [wordAt,setId_getD p id reply (by omega),setId_getD p id reply (by omega)]
    exact h.single
  unfold storeReply
  rw [if_pos h.stores,if_pos h.append,loadWord_ok (by rw [length_drop,setId_length]; omega),
    bind_ok,if_pos hword]

theorem forwardDnsReply_rewrites (L : NameCodec) (stack : Stack) (addr : Nat) {req : Request}
    (h : ReachesStrip p reply req) :
    Avoids Fault.OfExpansion (forwardDnsReply L p reply stack addr req) ↔
      Avoids Fault.OfExpansion (rewriteReply L p (setId p req.srcid reply) stack addr) := by
  have hsize := h.size
  have hoff : protocolOffset p ≤ 2 := by cases p <;> simp [protocolOffset]
  have hlen : 10 ≤ (reply.drop (protocolOffset p)).length := by
    rw [length_drop]
    omega
  unfold forwardDnsReply
  dsimp only
  rw [load_getD (by omega),bind_ok,loadWord_ok (by omega),bind_ok]
  rw [storeReply_strips L stack addr h req.srcid,avoids_bind]
  refine ⟨fun hb => hb.1,fun hb => ⟨hb,fun r _ => ?_⟩⟩
  cases r with
  | pass bytes | drop | corrupted => exact avoids_pure _ _

theorem forwardDnsReply_in_bounds_iff (L : NameCodec) (p : Protocol) (reply : List UInt8)
    (stack : Stack) (addr : Nat) (req : Request) (h : ReachesStrip p reply req) :
    Avoids Fault.OfExpansion (forwardDnsReply L p reply stack addr req) ↔
      ReplyFits L ((setId p req.srcid reply).drop (protocolOffset p)) := by
  rw [forwardDnsReply_rewrites L stack addr h,rewriteReply_avoids]

def pendingRequest : Request where
  ident := 0
  client := 0
  protocol := .udp
  srcid := 7
  dstid := 1
  altid := 2
  numserv := 2
  numresp := 0
  request := none
  resp := none
  appendDomain := true

def zeroStack : Stack := ⟨replicate nsMaxDname 0,length_replicate⟩

def hostQuestion (ancount : UInt8) : List UInt8 :=
  [2,0,0x81,0x80,0,1,0,ancount,0,0,0,0,1,104,1,100,0,0,1,0,1]

def longAddress : List UInt8 := [0xc0,12,0,1,0,1,0,0,0,0,0,127] ++ replicate 127 1

def overflowReply : List UInt8 := hostQuestion 8 ++ (replicate 8 longAddress).flatten

theorem overflowReply_out_of_bounds :
    ReachesStrip .udp overflowReply pendingRequest ∧
      ¬Avoids Fault.OfExpansion
        (forwardDnsReply libresolv .udp overflowReply zeroStack 0 pendingRequest) := by
  have hreaches : ReachesStrip .udp overflowReply pendingRequest :=
    ⟨by decide +kernel,rfl,.inr rfl,by decide +kernel⟩
  refine ⟨hreaches,fun h => ?_⟩
  rw [forwardDnsReply_rewrites libresolv zeroStack 0 hreaches,rewriteReply_avoids] at h
  have hout : ∃ v ∈ replyVisits libresolv ((setId .udp 7 overflowReply).drop 0),
      ¬v.Fits ((setId .udp 7 overflowReply).drop 0) := by decide +kernel
  obtain ⟨v,hv,hnot⟩ := hout
  exact hnot (h.records (by decide +kernel) v hv)

def shortReply : List UInt8 :=
  hostQuestion 1 ++ [0xc0,12,0,1,0,1,0,0,0,60,0,4,10,0,0,1]

theorem shortReply_fits : ReplyFits libresolv ((setId .udp 7 shortReply).drop 0) :=
  ⟨by decide +kernel,fun _ => by decide +kernel,by decide +kernel,fun _ => by decide +kernel,
    fun _ => by decide +kernel⟩

theorem shortReply_in_bounds :
    Avoids Fault.OfExpansion
      (forwardDnsReply libresolv .udp shortReply zeroStack 0 pendingRequest) :=
  (forwardDnsReply_in_bounds_iff libresolv .udp shortReply zeroStack 0 pendingRequest
    ⟨by decide,rfl,.inr rfl,by decide⟩).mpr shortReply_fits

end FuzzingTargets.DnsProxy
