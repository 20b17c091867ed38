import FuzzingTargets.Connman.DnsProxy.ForwardReply
import FuzzingTargets.Foundation.Runs

namespace FuzzingTargets.DnsProxy.Cache
open Bytes Checked Runs List

inductive Fault where
  | read (i : Nat)
  | name (i : Nat)
  | stored (i : Nat)
  | dnsName (i : Int)
  | stuck
  deriving DecidableEq

inductive Errno where
  | einval
  | enobufs
  | enomsg
  deriving DecidableEq

def loadByte (pkt : List UInt8) (i : Nat) : Except Fault UInt8 := load .read pkt i

def loadBytes (pkt : List UInt8) (i n : Nat) : Except Fault (List UInt8) := loadSlice .read pkt i n

def compressed (b : UInt8) : Bool := b &&& 0xC0 == 0xC0

def pointerOffset (b lo : UInt8) : Nat := (b &&& 0x3F).toNat * 256 + lo.toNat

structure NameScan where
  outputLen : Nat
  next : Option Nat
  name : List UInt8
  nameLen : Nat
  deriving DecidableEq

def NameScan.mark (s : NameScan) (p : Nat) : NameScan := { s with next := some (s.next.getD p) }

def getName (pkt : List UInt8) (max outputMax : Nat) :
    Nat → Nat → Nat → NameScan → Except Fault (Option Errno × NameScan)
  | 0, _, _, _ => .error .stuck
  | fuel + 1, counter, p, s =>
    if 10 < counter then .ok (some .einval,s)
    else do
      let b ← loadByte pkt p
      if b = 0 then .ok (none,s)
      else if compressed b then do
        let lo ← loadByte pkt (p + 1)
        if max ≤ pointerOffset b lo then .ok (some .enobufs,s)
        else getName pkt max outputMax fuel (counter + 1) (pointerOffset b lo) (s.mark (p + 2))
      else if max < b.toNat then .ok (some .enobufs,s)
      else if outputMax < s.outputLen then .ok (some .enobufs,s)
      else do
        let label ← loadBytes pkt (p + 1) (b.toNat + 1)
        let name ← storeSlice .name s.name s.nameLen (b :: label)
        let p' := p + b.toNat + 1
        let s' := { s with outputLen := 2, name := name, nameLen := s.nameLen + 1 + b.toNat }.mark p'
        if max ≤ p' then .ok (some .enobufs,s')
        else getName pkt max outputMax fuel counter p' s'

def nameFuel (max : Nat) : Nat := 12 * (max + 2)

def emptyScan (name : List UInt8) : NameScan := ⟨0,none,name,0⟩

def compressedOwner (outputLen : Nat) : List UInt8 := if outputLen = 0 then [] else [0xC0,0x0C]

structure Head where
  type : Nat
  cls : Nat
  ttl : Nat
  deriving DecidableEq

structure RrScan where
  err : Option Errno
  head : Head
  rdlen : Nat
  next : Nat
  rsp : List UInt8
  name : List UInt8
  deriving DecidableEq

def be32 (bs : List UInt8) : Nat :=
  be16 (bs.getD 0 0) (bs.getD 1 0) * 65536 + be16 (bs.getD 2 0) (bs.getD 3 0)

def readHead (fixed : List UInt8) : Head :=
  ⟨be16 (fixed.getD 0 0) (fixed.getD 1 0),be16 (fixed.getD 2 0) (fixed.getD 3 0),
    be32 (fixed.drop 4)⟩

def readRdlen (fixed : List UInt8) : Nat := be16 (fixed.getD 8 0) (fixed.getD 9 0)

def parseRr (pkt : List UInt8) (max start : Nat) (head : Head) (name : List UInt8) :
    Except Fault RrScan := do
  let responseSize := nsMaxCdname - 1
  let (err,s) ← getName pkt max responseSize (nameFuel max) 0 start (emptyScan name)
  match err, s.next with
  | some e, _ => .ok ⟨some e,head,0,0,[],s.name⟩
  | none, none => .ok ⟨some .einval,head,0,0,[],s.name⟩
  | none, some rr => do
    let fixed ← loadBytes pkt rr 10
    let head := readHead fixed
    let rdlen := readRdlen fixed
    if 2 ^ 31 ≤ head.ttl then .ok ⟨some .einval,head,rdlen,0,[],s.name⟩
    else if responseSize < s.outputLen + 10 + rdlen then
      .ok ⟨some .enobufs,head,rdlen,0,[],s.name⟩
    else do
      let rdata ← loadBytes pkt (rr + 10) rdlen
      .ok ⟨none,head,rdlen,rr + 10 + rdlen,compressedOwner s.outputLen ++ fixed ++ rdata,
        s.name⟩

def checkAlias (aliases : List (List UInt8)) (name : List UInt8) : Bool :=
  aliases.any fun a => a.isPrefixOf name

structure Answers where
  err : Option Errno
  ptr : Nat
  head : Head
  name : List UInt8
  aliases : List (List UInt8)
  response : List UInt8
  answers : Nat
  deriving DecidableEq

structure Question where
  name : List UInt8
  qtype : Nat
  qclass : Nat
  deriving DecidableEq

def keepAnswer (q : Question) (maxlen : Nat) (a : Answers) (rr : RrScan) : Option Answers :=
  if rr.head.type = q.qtype ∧
      (checkAlias a.aliases rr.name ∨ a.aliases = [] ∧ q.name.isPrefixOf rr.name) then
    if maxlen < a.response.length + rr.rsp.length then none
    else some { a with
      err := none
      response := a.response ++ rr.rsp
      answers := (a.answers + 1) % 65536 }
  else some a

def parseAnswers (pkt : List UInt8) (buflen : Nat) (q : Question) (maxlen : Nat) :
    Nat → Answers → Except Fault Answers
  | 0, a => .ok a
  | n + 1, a => do
    let rr ← parseRr pkt buflen a.ptr a.head a.name
    let a' := { a with head := rr.head, name := rr.name, ptr := rr.next }
    if rr.err ≠ none then .ok { a' with err := rr.err }
    else if rr.head.cls ≠ q.qclass then parseAnswers pkt buflen q maxlen n a'
    else if rr.head.type = 5 ∧ q.name.isPrefixOf rr.name then do
      let (err,s) ← getName pkt buflen (nsMaxCdname - 1) (nameFuel buflen) 0
        (rr.next - rr.rdlen) (emptyScan rr.name)
      let aliases := if err = none then cstring s.name :: a.aliases else a.aliases
      parseAnswers pkt buflen q maxlen n { a' with name := s.name, aliases := aliases }
    else
      match keepAnswer q maxlen a' rr with
      | none => .ok { a' with err := some .enobufs }
      | some a' => parseAnswers pkt buflen q maxlen n a'

def strncpy (pkt : List UInt8) : Nat → Nat → Except Fault (List UInt8)
  | 0, _ => .ok []
  | n + 1, p => do
    let b ← loadByte pkt p
    if b = 0 then .ok [] else do
      let rest ← strncpy pkt n (p + 1)
      .ok (b :: rest)

structure Parsed where
  err : Option Errno
  question : List UInt8
  qtype : Nat
  head : Head
  response : List UInt8
  answers : Nat
  deriving DecidableEq

def parseResponse (pkt : List UInt8) (buflen maxlen : Nat) : Except Fault Parsed := do
  let counts ← loadBytes pkt 4 4
  let qdcount := be16 (counts.getD 0 0) (counts.getD 1 0)
  let ancount := be16 (counts.getD 2 0) (counts.getD 3 0)
  if buflen < 12 then .ok ⟨some .einval,[],0,⟨0,0,0⟩,[],0⟩
  else do
    let flags ← loadByte pkt 2
    if flags &&& 0x80 = 0 ∨ qdcount ≠ 1 then .ok ⟨some .einval,[],0,⟨0,0,0⟩,[],0⟩
    else do
      let question ← strncpy pkt nsMaxDname 12
      let ptr := 12 + question.length + 1
      let word ← loadBytes pkt ptr 2
      let qtype := be16 (word.getD 0 0) (word.getD 1 0)
      if qtype ≠ 1 ∧ qtype ≠ 28 then .ok ⟨some .enomsg,question,qtype,⟨0,0,0⟩,[],0⟩
      else do
        let word ← loadBytes pkt (ptr + 2) 2
        let q : Question := ⟨question,qtype,be16 (word.getD 0 0) (word.getD 1 0)⟩
        let a ← parseAnswers pkt buflen q maxlen ancount
          ⟨some .enomsg,ptr + 4,⟨0,0,0⟩,replicate (nsMaxDname + 1) 0,[],[],0⟩
        .ok ⟨a.err,question,qtype,a.head,a.response,a.answers⟩

def maxCacheTtl : Nat := 60 * 30

def minCacheTtl : Nat := 30

def maxCacheSize : Nat := 256

structure CacheData where
  inserted : Int
  validUntil : Int
  cacheUntil : Int
  timeout : Int
  type : Nat
  answers : Nat
  data : List UInt8
  positive : Bool
  asked : Nat
  deriving DecidableEq

structure CacheEntry where
  key : List UInt8
  wantRefresh : Bool
  hits : Nat
  ipv4 : Option CacheData
  ipv6 : Option CacheData
  deriving DecidableEq

structure State where
  entries : List CacheEntry
  size : Nat
  nextRefresh : Int
  maxTimeout : Int
  deriving DecidableEq

def empty : State := ⟨[],0,0,0⟩

def roundDownTtl (endTime : Int) (ttl : Nat) : Int :=
  if ttl < 15 then endTime
  else if ttl < 300 then endTime.tdiv 10 * 10
  else endTime.tdiv 30 * 30

section

variable (now : Int) (s : State)

def checkIsValid (d : CacheData) : Bool := now ≤ d.cacheUntil

def enforceValidity (e : CacheEntry) : CacheEntry :=
  { e with ipv4 := e.ipv4.filter (checkIsValid now), ipv6 := e.ipv6.filter (checkIsValid now) }

def lookup (question : List UInt8) : Option CacheEntry :=
  s.entries.find? fun e => e.key = question

def replace (e : CacheEntry) : State :=
  { s with entries := s.entries.map fun x => if x.key = e.key then e else x }

def remove (question : List UInt8) : State :=
  { s with entries := s.entries.filter fun e => e.key ≠ question, size := s.size - 1 }

def checkValidity (question : List UInt8) (type : Nat) (e : CacheEntry) (s : State) : State × Nat :=
  let wantRefresh := 2 < e.hits
  let e := enforceValidity now e
  let slot := if type = 1 then e.ipv4 else e.ipv6
  let other := if type = 1 then e.ipv6 else e.ipv4
  if type ≠ 1 ∧ type ≠ 28 ∨ slot.any (checkIsValid now) then (replace s e,type)
  else
    let e := if wantRefresh then { e with wantRefresh := true } else e
    if ¬other.any (checkIsValid now) ∧ ¬wantRefresh then (remove s question,0)
    else (replace s e,type)

def cacheCheck (proto : Protocol) (request : List UInt8) (s : State) :
    State × Option (List UInt8 × Nat) :=
  let question := cstring (request.drop (protocolOffset proto + 12))
  let q := request.drop (protocolOffset proto + 12 + question.length + 1)
  let type := be16 (q.getD 0 0) (q.getD 1 0)
  if type ≠ 1 ∧ type ≠ 28 then (s,none)
  else
    match lookup s question with
    | none => (s,none)
    | some e =>
      match checkValidity now question type e s with
      | (s,0) => (s,none)
      | (s,type) => (s,some (question,type))

def toInt32 (t : Int) : Int := t.bmod (2 ^ 32)

def expired (slot : Option CacheData) : Bool :=
  slot.any fun d => 0 < d.timeout ∧ d.cacheUntil < now

def noteTimeout (maxTimeout : Int) (slot : Option CacheData) : Int :=
  match slot with
  | none => maxTimeout
  | some d => if 0 < d.timeout then max maxTimeout (toInt32 d.cacheUntil) else maxTimeout

def cacheCheckEntry (tryHarder : Bool) (maxTimeout : Int) (e : CacheEntry) : Bool × Int :=
  let noted := noteTimeout maxTimeout e.ipv4
  if expired now e.ipv4 then (true,noted)
  else if expired now e.ipv6 then (true,noteTimeout noted e.ipv6)
  else (tryHarder ∧ e.hits < 4,noteTimeout noted e.ipv6)

def foreachRemove (now : Int) (tryHarder : Bool) :
    List CacheEntry → Int → List CacheEntry × Nat × Int
  | [], maxTimeout => ([],0,maxTimeout)
  | e :: es, maxTimeout =>
    let e := { e with hits := e.hits / 2 }
    let (dead,noted) := cacheCheckEntry now tryHarder maxTimeout e
    let (kept,count,noted) := foreachRemove now tryHarder es noted
    if dead then (kept,count + 1,noted) else (e :: kept,count,noted)

def cacheCleanup : State :=
  let (kept,count,noted) :=
    if s.maxTimeout ≤ now then foreachRemove now false s.entries 0 else (s.entries,0,0)
  let (kept,count,noted) :=
    if count = 0 then foreachRemove now true kept noted else (kept,count,noted)
  { s with
    entries := kept
    size := s.size - count
    maxTimeout := if count = 0 then noted else 0 }

def invalidateEntry (e : CacheEntry) : Option CacheEntry :=
  let e := enforceValidity now e
  let wanted := e.wantRefresh ∨ 0 < e.hits ∧ (e.ipv4.isSome ∨ e.ipv6.isSome)
  if wanted then some { e with wantRefresh := true, ipv4 := none, ipv6 := none } else none

def cacheInvalidate : State :=
  let kept := s.entries.filterMap (invalidateEntry now)
  { s with entries := kept, size := s.size - (s.entries.length - kept.length) }

def refreshEntry (e : CacheEntry) : CacheEntry :=
  let e := enforceValidity now e
  let age := if e.ipv4.isNone ∨ e.ipv6.isNone then 4 else 1
  if e.wantRefresh ∨ 2 < e.hits ∧ (e.ipv4.isNone ∨ e.ipv6.isNone) then
    { e with wantRefresh := false, hits := e.hits - age }
  else e

def cacheRefresh : State :=
  { s with entries := s.entries.map (refreshEntry now) }

def dnsNameLength (bs : List UInt8) : Nat :=
  if compressed (bs.getD 0 0) then 2 else strlen bs + 1

def replyQueryType (pkt : List UInt8) (len : Nat) : Except Fault Nat :=
  if len < 12 then .ok 0
  else if (0 : UInt8) ∉ pkt.drop 12 ∧ ¬compressed (pkt.getD 12 0) then .error (.read pkt.length)
  else do
    let c ← loadBytes pkt (12 + dnsNameLength (pkt.drop 12)) 2
    .ok (be16 (c.getD 0 0) (c.getD 1 0))

def negativeData (p : Protocol) (msg : List UInt8) (type asked ancount : Nat) (d : CacheData) :
    CacheData :=
  { inserted := d.inserted
    validUntil := d.validUntil
    cacheUntil := d.cacheUntil
    timeout := d.timeout
    type := type
    answers := ancount
    data := match p with
      | .udp => lengthBytes msg.length ++ msg
      | .tcp => msg
    positive := false
    asked := asked }

def positiveData (header : List UInt8) (r : Parsed) : CacheData :=
  let ttl := max r.head.ttl minCacheTtl
  let packet := header ++ r.question ++ [0] ++ lengthBytes r.head.type ++
    lengthBytes r.head.cls ++ r.response
  { inserted := now
    validUntil := now + ttl
    cacheUntil := roundDownTtl (now + min ttl maxCacheTtl) (min ttl maxCacheTtl)
    timeout := ttl
    type := r.head.type
    answers := r.answers
    data := lengthBytes packet.length ++ packet
    positive := true
    asked := r.qtype }

def CacheEntry.put (e : CacheEntry) (type : Nat) (d : CacheData) : CacheEntry :=
  if type = 1 then { e with ipv4 := some d } else { e with ipv6 := some d }

def storeAnswer (header : List UInt8) (r : Parsed) (s : State) : State :=
  let d := positiveData now header r
  match lookup s r.question with
  | none =>
    { s with
      entries := CacheEntry.put ⟨r.question,false,0,none,none⟩ r.head.type d :: s.entries
      size := s.size + 1 }
  | some e =>
    if r.head.type = 1 ∧ e.ipv4.isSome ∨ r.head.type = 28 ∧ e.ipv6.isSome then s
    else replace s { e.put r.head.type d with hits := e.hits - 1 }

def Parsed.noAnswer (r : Parsed) : Bool := r.err = some .enomsg ∨ r.err = some .enobufs

def negativeTarget (r : Parsed) (queryType : Nat) (s : State) : Option (CacheEntry × CacheData) :=
  if r.noAnswer ∧ queryType = 28 then
    match lookup s r.question with
    | some e => if e.ipv6 = none then e.ipv4.map fun d => (e,d) else none
    | none => none
  else none

structure Reply where
  protocol : Protocol
  memory : List UInt8
  length : Nat
  deriving DecidableEq

def Reply.pkt (m : Reply) : List UInt8 := m.memory.drop (protocolOffset m.protocol)

def Reply.pktLen (m : Reply) : Nat := m.length - protocolOffset m.protocol

def queryTypeOf (m : Reply) (r : Parsed) : Except Fault Nat :=
  if r.noAnswer then replyQueryType m.pkt m.pktLen else .ok 0

def updateParsed (oom : Bool) (m : Reply) (r : Parsed) (queryType : Nat) (s : State) :
    Except Fault State :=
  match negativeTarget r queryType s with
  | some (e,d) =>
    if oom then .ok s
    else do
      let counts ← loadBytes m.pkt 6 2
      let msg ← loadBytes m.memory 0 m.length
      let ancount := be16 (counts.getD 0 0) (counts.getD 1 0)
      .ok (replace s { e with
        ipv6 := some (negativeData m.protocol msg r.head.type r.qtype ancount d)
        hits := e.hits - 1 })
  | none =>
    if r.err ≠ none ∨ r.head.ttl = 0 ∨ oom then .ok s
    else do
      let header ← loadBytes m.pkt 0 12
      .ok (storeAnswer now header r s)

def cacheUpdate (oom : Bool) (m : Reply) (s : State) : Except Fault State := do
  let s := if maxCacheSize ≤ s.size then cacheCleanup now s else s
  if maxCacheSize ≤ s.size then .ok s
  else do
    let s := if s.nextRefresh < now then { cacheRefresh now s with nextRefresh := now + 30 } else s
    let flags ← loadByte m.pkt 3
    if flags &&& 0x0F ≠ 0 then .ok s
    else do
      let r ← parseResponse m.pkt m.pktLen nsMaxDname
      let queryType ← queryTypeOf m r
      updateParsed now oom m r queryType s

inductive Event where
  | update (now : Int) (oom : Bool) (reply : Reply)
  | check (now : Int) (proto : Protocol) (request : List UInt8)
  | hit (question : List UInt8)
  | cleanup (now : Int)
  | invalidate (now : Int)
  | refresh (now : Int)
  deriving DecidableEq

def countHit (question : List UInt8) (s : State) : State :=
  { s with entries := s.entries.map fun e =>
      if e.key = question then { e with hits := e.hits + 1 } else e }

def apply : Event → Except Fault State
  | .update now oom m => cacheUpdate now oom m s
  | .check now proto request => .ok (cacheCheck now proto request s).1
  | .hit question => .ok (countHit question s)
  | .cleanup now => .ok (cacheCleanup now s)
  | .invalidate now => .ok (cacheInvalidate now s)
  | .refresh now => .ok (cacheRefresh now s)

def Step (e : Event) (s' : State) : Prop := apply s e = .ok s'


end
def CacheEntry.Every (P : List UInt8 → Nat → CacheData → Prop) (e : CacheEntry) : Prop :=
  (∀ d ∈ e.ipv4, P e.key 1 d) ∧ ∀ d ∈ e.ipv6, P e.key 28 d

def State.Every (P : List UInt8 → Nat → CacheData → Prop) (s : State) : Prop :=
  ∀ e ∈ s.entries, e.Every P

def slotOf (type : Nat) : Nat := if type = 1 then 1 else 28

theorem find_mem {s : State} {question : List UInt8} {e : CacheEntry}
    (h : lookup s question = some e) : e ∈ s.entries ∧ e.key = question :=
  ⟨mem_of_find?_eq_some h,by simpa using find?_some h⟩

section

variable {P Q : List UInt8 → Nat → CacheData → Prop} {s : State} {e e' : CacheEntry}

structure Trims (e e' : CacheEntry) : Prop where
  key : e'.key = e.key
  ipv4 : ∀ d ∈ e'.ipv4, d ∈ e.ipv4
  ipv6 : ∀ d ∈ e'.ipv6, d ∈ e.ipv6

theorem trims_every (h : Trims e e') (he : e.Every P) : e'.Every P := by
  unfold CacheEntry.Every
  rw [h.key]
  exact ⟨fun d hd => he.1 d (h.ipv4 d hd),fun d hd => he.2 d (h.ipv6 d hd)⟩

theorem every_mono (h : ∀ key t d, P key t d → Q key t d) (hs : s.Every P) : s.Every Q :=
  fun e he => ⟨fun d hd => h _ _ _ ((hs e he).1 d hd),fun d hd => h _ _ _ ((hs e he).2 d hd)⟩

theorem ite_every {s1 s2 : State} (h1 : s1.Every P) (h2 : s2.Every P) (c : Prop) [Decidable c] :
    (if c then s1 else s2).Every P := by
  split
  · exact h1
  · exact h2

theorem replace_every (hs : s.Every P) (he : e.Every P) : (replace s e).Every P := by
  intro x hx
  obtain ⟨y,hy,rfl⟩ := mem_map.mp hx
  split
  · exact he
  · exact hs y hy

theorem invalidateEntry_every {now : Int} (h : invalidateEntry now e = some e') : e'.Every P := by
  unfold invalidateEntry at h
  dsimp only at h
  split at h
  · cases h
    exact ⟨by simp,by simp⟩
  · cases h

section

variable (now : Int)
include now

theorem enforceValidity_trims (e : CacheEntry) : Trims e (enforceValidity now e) :=
  ⟨rfl,fun _ hd => (Option.mem_filter_iff.mp hd).1,fun _ hd => (Option.mem_filter_iff.mp hd).1⟩

theorem checkValidity_every (question : List UInt8) (type : Nat) (hs : s.Every P) (he : e.Every P) :
    (checkValidity now question type e s).1.Every P := by
  have hvalid := trims_every (enforceValidity_trims now e) he
  unfold checkValidity
  dsimp only
  generalize (if type = 1 then (enforceValidity now e).ipv4 else _) = slot
  generalize (if type = 1 then (enforceValidity now e).ipv6 else _) = other
  split
  · exact replace_every hs hvalid
  split
  · exact fun x hx => hs x (mem_of_mem_filter hx)
  refine replace_every hs ?_
  split
  · exact ⟨hvalid.1,hvalid.2⟩
  · exact hvalid

theorem cacheCheck_every (proto : Protocol) (request : List UInt8) (hs : s.Every P) :
    (cacheCheck now proto request s).1.Every P := by
  unfold cacheCheck
  dsimp only
  split
  · exact hs
  split
  · exact hs
  rename_i e he
  generalize be16 _ _ = type
  have hchecked := checkValidity_every now (cstring (request.drop (protocolOffset proto + 12))) type
    hs (hs e (find_mem he).1)
  split
  · rename_i hc
    rw [hc] at hchecked
    exact hchecked
  · rename_i hc
    rw [hc] at hchecked
    exact hchecked

theorem foreachRemove_every {es : List CacheEntry} (tryHarder : Bool) (maxTimeout : Int)
    (h : ∀ e ∈ es, e.Every P) : ∀ e ∈ (foreachRemove now tryHarder es maxTimeout).1, e.Every P := by
  induction es generalizing maxTimeout with
  | nil => simp [foreachRemove]
  | cons e es ih =>
    have hrest := fun limit => ih limit fun x hx => h x (.tail _ hx)
    intro e' he'
    unfold foreachRemove at he'
    dsimp only at he'
    split at he'
    · exact hrest _ e' he'
    rcases mem_cons.mp he' with rfl | he'
    · have he := h e mem_cons_self
      exact ⟨he.1,he.2⟩
    · exact hrest _ e' he'

theorem cacheCleanup_every (hs : s.Every P) : (cacheCleanup now s).Every P := by
  have hfirst : ∀ e ∈ (if s.maxTimeout ≤ now then foreachRemove now false s.entries 0
      else (s.entries,0,0)).1, e.Every P := by
    split
    · exact foreachRemove_every now false 0 hs
    · exact hs
  unfold cacheCleanup
  generalize (if s.maxTimeout ≤ now then foreachRemove now false s.entries 0
    else (s.entries,0,0)) = first at hfirst ⊢
  obtain ⟨kept,count,noted⟩ := first
  have hsecond : ∀ e ∈ (if count = 0 then foreachRemove now true kept noted
      else (kept,count,noted)).1, e.Every P := by
    split
    · exact foreachRemove_every now true noted hfirst
    · exact hfirst
  exact hsecond

theorem cacheInvalidate_every (s : State) : (cacheInvalidate now s).Every P := by
  intro e' he'
  obtain ⟨e,-,h⟩ := mem_filterMap.mp he'
  exact invalidateEntry_every h

theorem refreshEntry_trims (e : CacheEntry) : Trims e (refreshEntry now e) := by
  have hvalid := enforceValidity_trims now e
  unfold refreshEntry
  dsimp only
  split
  · exact ⟨hvalid.key,hvalid.ipv4,hvalid.ipv6⟩
  · exact hvalid

theorem cacheRefresh_every (hs : s.Every P) : (cacheRefresh now s).Every P := by
  intro e' he'
  obtain ⟨e,he,rfl⟩ := mem_map.mp he'
  exact trims_every (refreshEntry_trims now e) (hs e he)

end

theorem countHit_every (question : List UInt8) (hs : s.Every P) : (countHit question s).Every P := by
  intro e' he'
  obtain ⟨e,he,rfl⟩ := mem_map.mp he'
  split
  · exact ⟨(hs e he).1,(hs e he).2⟩
  · exact hs e he

end

section

variable {P : List UInt8 → Nat → CacheData → Prop} {s : State} {e : CacheEntry} {now : Int}
  {oom : Bool} {m : Reply} {r : Parsed}

theorem put_every {type : Nat} {d : CacheData} (he : e.Every P) (hd : P e.key (slotOf type) d) :
    (e.put type d).Every P := by
  unfold CacheEntry.put
  unfold slotOf at hd
  split
  · rename_i htype
    rw [if_pos htype] at hd
    exact ⟨fun x hx => by cases hx; exact hd,he.2⟩
  · rename_i htype
    rw [if_neg htype] at hd
    exact ⟨he.1,fun x hx => by cases hx; exact hd⟩

theorem storeAnswer_every {header : List UInt8} (hs : s.Every P)
    (hd : P r.question (slotOf r.head.type) (positiveData now header r)) :
    (storeAnswer now header r s).Every P := by
  unfold storeAnswer
  split
  · intro e he
    rcases mem_cons.mp he with rfl | he
    · exact put_every ⟨by simp,by simp⟩ hd
    · exact hs e he
  rename_i e he
  obtain ⟨hmem,hkey⟩ := find_mem he
  split
  · exact hs
  · have hput := put_every (hs e hmem) (hkey ▸ hd)
    exact replace_every hs ⟨hput.1,hput.2⟩

theorem negativeTarget_spec {queryType : Nat} {d : CacheData}
    (h : negativeTarget r queryType s = some (e,d)) :
    r.noAnswer ∧ queryType = 28 ∧ lookup s r.question = some e ∧ d ∈ e.ipv4 := by
  unfold negativeTarget at h
  split at h
  · rename_i hneg
    split at h
    · rename_i x hx
      split at h
      · obtain ⟨d',hd',heq⟩ := Option.map_eq_some_iff.mp h
        cases heq
        exact ⟨hneg.1,hneg.2,hx,hd'⟩
      · cases h
    · cases h
  · cases h

def Reply.ancount (m : Reply) : Nat := be16 (m.pkt.getD 6 0) (m.pkt.getD 7 0)

def StoresPositive (P : List UInt8 → Nat → CacheData → Prop) (now : Int) (m : Reply) : Prop :=
  ∀ r header, parseResponse m.pkt m.pktLen nsMaxDname = .ok r → r.err = none →
    header.length = 12 → header <+: m.pkt →
    P r.question (slotOf r.head.type) (positiveData now header r)

def StoresNegative (P : List UInt8 → Nat → CacheData → Prop) (m : Reply) (s : State) : Prop :=
  ∀ r d, parseResponse m.pkt m.pktLen nsMaxDname = .ok r → r.noAnswer →
    replyQueryType m.pkt m.pktLen = .ok 28 → P r.question 1 d →
    (∃ e ∈ s.entries, e.key = r.question ∧ d ∈ e.ipv4) →
    P r.question 28
      (negativeData m.protocol (m.memory.take m.length) r.head.type r.qtype m.ancount d)

theorem updateParsed_every {queryType : Nat} {s' : State} (hs : s.Every P)
    (hr : parseResponse m.pkt m.pktLen nsMaxDname = .ok r) (hq : queryTypeOf m r = .ok queryType)
    (hpos : StoresPositive P now m) (hneg : StoresNegative P m s)
    (h : updateParsed now oom m r queryType s = .ok s') : s'.Every P := by
  unfold updateParsed at h
  split at h
  · rename_i e d htarget
    split at h
    · cases h
      exact hs
    obtain ⟨hno,rfl,hfind,hd⟩ := negativeTarget_spec htarget
    obtain ⟨hmem,hkey⟩ := find_mem hfind
    obtain ⟨counts,hcounts,h⟩ := bind_eq_ok h
    obtain ⟨msg,hmsg,h⟩ := bind_eq_ok h
    obtain ⟨-,rfl⟩ := loadSlice_eq_ok hcounts
    obtain ⟨-,rfl⟩ := loadSlice_eq_ok hmsg
    cases h
    have he := hs e hmem
    rw [queryTypeOf,if_pos hno] at hq
    refine replace_every hs ⟨he.1,fun x hx => ?_⟩
    cases hx
    have hstored := hneg r d hr hno hq (hkey ▸ he.1 d hd)
      ⟨e,hmem,hkey,hd⟩
    rw [← hkey] at hstored
    simpa [Reply.ancount,getD_eq_getElem?_getD,getElem?_take] using hstored
  split at h
  · cases h
    exact hs
  rename_i hstored
  obtain ⟨header,hheader,h⟩ := bind_eq_ok h
  obtain ⟨hfit,rfl⟩ := loadSlice_eq_ok hheader
  cases h
  refine storeAnswer_every hs (hpos r _ hr (by tauto) ?_ (List.take_prefix _ _))
  rw [length_take,length_drop]
  omega

theorem storesNegative_of_sources {s2 : State} (hneg : StoresNegative P m s)
    (h : s2.Every fun key t d => P key t d ∧
      (t = 1 → ∃ e ∈ s.entries, e.key = key ∧ d ∈ e.ipv4)) : StoresNegative P m s2 := by
  rintro r d hr hno hq hd ⟨e,hmem,hkey,hslot⟩
  obtain ⟨-,hsource⟩ := (h e hmem).1 d hslot
  exact hneg r d hr hno hq hd (hkey ▸ hsource rfl)

theorem cacheUpdate_every {s' : State} (hs : s.Every P) (hpos : StoresPositive P now m)
    (hneg : StoresNegative P m s) (h : cacheUpdate now oom m s = .ok s') : s'.Every P := by
  have hsource : s.Every fun key t d => P key t d ∧
      (t = 1 → ∃ e ∈ s.entries, e.key = key ∧ d ∈ e.ipv4) := fun e he =>
    ⟨fun d hd => ⟨(hs e he).1 d hd,fun _ => ⟨e,he,rfl,hd⟩⟩,
      fun d hd => ⟨(hs e he).2 d hd,by simp⟩⟩
  unfold cacheUpdate at h
  have hclean := ite_every (cacheCleanup_every now hsource) hsource (maxCacheSize ≤ s.size)
  generalize (if maxCacheSize ≤ s.size then cacheCleanup now s else s) = s1 at h hclean
  dsimp only at h
  split at h
  · cases h
    exact every_mono (fun _ _ _ hd => hd.1) hclean
  have hrefreshed : State.Every _ { cacheRefresh now s1 with nextRefresh := now + 30 } :=
    cacheRefresh_every now hclean
  have hfresh := ite_every hrefreshed hclean (s1.nextRefresh < now)
  generalize (if s1.nextRefresh < now then
      { cacheRefresh now s1 with nextRefresh := now + 30 } else s1) = s2 at h hfresh
  obtain ⟨flags,-,h⟩ := bind_eq_ok h
  split at h
  · cases h
    exact every_mono (fun _ _ _ hd => hd.1) hfresh
  obtain ⟨r,hr,h⟩ := bind_eq_ok h
  obtain ⟨queryType,hq,h⟩ := bind_eq_ok h
  exact updateParsed_every (every_mono (fun _ _ _ hd => hd.1) hfresh) hr hq hpos
    (storesNegative_of_sources hneg hfresh) h

theorem apply_every {event : Event} {s' : State} (hs : s.Every P)
    (hupdate : ∀ now oom m, event = .update now oom m →
      StoresPositive P now m ∧ StoresNegative P m s) (h : apply s event = .ok s') : s'.Every P := by
  cases event with
  | update now oom m =>
    obtain ⟨hpos,hneg⟩ := hupdate now oom m rfl
    exact cacheUpdate_every hs hpos hneg h
  | check now proto request =>
    cases h
    exact cacheCheck_every now proto request hs
  | hit question =>
    cases h
    exact countHit_every question hs
  | cleanup now =>
    cases h
    exact cacheCleanup_every now hs
  | invalidate now =>
    cases h
    exact cacheInvalidate_every now s
  | refresh now =>
    cases h
    exact cacheRefresh_every now hs

end

end FuzzingTargets.DnsProxy.Cache
