import FuzzingTargets.Connman.DnsProxy.CacheTyping

namespace FuzzingTargets.DnsProxy.Cache
open Bytes Checked Runs List

def recordTtls : Nat → List UInt8 → List Nat
  | 0, _ => []
  | n + 1, bs =>
    let rest := bs.drop (dnsNameLength bs)
    if rest.length < 10 then []
    else (readHead rest).ttl :: recordTtls n (rest.drop (10 + readRdlen rest))

def packetTtls (answers : Nat) (pkt : List UInt8) : List Nat :=
  recordTtls answers (pkt.drop (12 + (cstring (pkt.drop 12)).length + 1 + 4))

def CacheData.answerTtls (d : CacheData) : List Nat := packetTtls d.answers (d.data.drop 2)

def Reply.answerTtls (m : Reply) : List Nat := packetTtls m.ancount (m.pkt.take m.pktLen)

structure CachedAnswer where
  data : CacheData
  ttlLeft : Int
  deriving DecidableEq

def CacheEntry.slot (e : CacheEntry) (type : Nat) : Option CacheData :=
  if type = 1 then e.ipv4 else e.ipv6

def answerFromCache (now : Int) (proto : Protocol) (request : List UInt8) (s : State) :
    Option CachedAnswer :=
  match cacheCheck now proto request s with
  | (_,none) => none
  | (s,some (question,type)) => do
    let entry ← lookup s question
    let data ← entry.slot type
    some ⟨data,data.validUntil - now⟩

def CachedAnswer.ttl (a : CachedAnswer) : Option Int :=
  if a.data.answers = 0 then none else some a.ttlLeft

structure CacheData.Sane (d : CacheData) : Prop where
  inserted : d.inserted ≤ d.cacheUntil
  valid : d.cacheUntil ≤ d.validUntil
  bounded : d.cacheUntil - d.inserted ≤ maxCacheTtl

structure Fresh (clock : Int) (key : List UInt8) (slot : Nat) (d : CacheData) : Prop where
  sane : d.Sane
  inserted : d.inserted ≤ clock
  ttls : ∀ ttl ∈ d.answerTtls, d.validUntil - clock ≤ max minCacheTtl ttl

structure Clocked where
  clock : Int
  cache : State
  deriving DecidableEq

def Event.time : Event → Option Int
  | .update now _ _ => some now
  | .check now _ _ => some now
  | .hit _ => none
  | .cleanup now => some now
  | .invalidate now => some now
  | .refresh now => some now

def TimedStep (c : Clocked) (e : Event) (c' : Clocked) : Prop :=
  (∀ t ∈ e.time, c.clock ≤ t) ∧ Step c.cache e c'.cache ∧ c'.clock = e.time.getD c.clock

def LastShortest (m : Reply) : Prop :=
  ∀ p ∈ m.answerStarts, (headAt m.pkt p).type = m.queryType →
    (answerAt m.pkt p).root = false ∧ ∀ z ∈ m.answerStarts.getLast?,
      (headAt m.pkt z).ttl ≤ max minCacheTtl (headAt m.pkt p).ttl

def Unanswered (m : Reply) (question : List UInt8) : Prop :=
  ∃ r, parseResponse m.pkt m.pktLen nsMaxDname = .ok r ∧ r.noAnswer ∧ r.question = question ∧
    replyQueryType m.pkt m.pktLen = .ok 28

def CopiesShort (now : Int) (m : Reply) (s : State) : Prop :=
  ∀ e ∈ s.entries, Unanswered m e.key → ∀ d ∈ e.ipv4, ∀ ttl ∈ m.answerTtls,
    d.validUntil - now ≤ max minCacheTtl ttl

def Steady (c : Clocked) : Event → Prop
  | .update now _ m => 0 ≤ now ∧ LastShortest m ∧ CopiesShort now m c.cache
  | _ => True

section

variable {clock now : Int} {key : List UInt8} {slot : Nat} {d : CacheData} {m : Reply} {s : State}
  {header : List UInt8}

theorem fresh_later (h : Fresh clock key slot d) (hle : clock ≤ now) : Fresh now key slot d := by
  refine ⟨h.sane,h.inserted.trans hle,fun ttl hmem => ?_⟩
  have := h.ttls ttl hmem
  omega

theorem roundDownTtl_bounds {endTime : Int} {ttl : Nat} (h : 0 ≤ endTime) (httl : 30 ≤ ttl) :
    endTime - ttl ≤ roundDownTtl endTime ttl ∧ roundDownTtl endTime ttl ≤ endTime := by
  unfold roundDownTtl
  simp only [Int.tdiv_eq_ediv_of_nonneg h]
  split
  · omega
  split <;> omega

theorem positiveData_sane {r : Parsed} (hnow : 0 ≤ now) : (positiveData now header r).Sane := by
  have hmin : 30 ≤ min (max r.head.ttl minCacheTtl) maxCacheTtl := by
    simp only [minCacheTtl,maxCacheTtl]
    omega
  obtain ⟨hlow,hhigh⟩ := @roundDownTtl_bounds
    (now + (min (max r.head.ttl minCacheTtl) maxCacheTtl : Nat)) _ (by omega) hmin
  constructor
  · simp only [positiveData]
    omega
  · simp only [positiveData]
    omega
  · simp only [positiveData]
    omega

theorem recordTtls_bytes (rs : List StoredRr) :
    recordTtls rs.length (rs.map StoredRr.bytes).flatten = rs.map fun r => r.head.ttl := by
  induction rs with
  | nil => rfl
  | cons r rs ih =>
    have hfits := stored_fits r (rs.map StoredRr.bytes).flatten
    rw [map_cons,flatten_cons,length_cons,recordTtls,stored_name,
      stored_drop_name,stored_rdlen,stored_head,if_neg (by omega),stored_rest,ih]
    rfl

theorem answerTtls_eq (d : CacheData) : d.answerTtls = recordTtls d.answers (d.body.drop 4) := by
  simp only [CacheData.answerTtls,packetTtls,CacheData.body,CacheData.question,drop_drop,
    Nat.reduceAdd]
  congr 2
  omega

theorem positiveData_ttls {P : Head → Prop} {r : Parsed} {rs : List StoredRr}
    (hr : Answers.Sound P m r rs) (hheader : header.length = 12) :
    (positiveData now header r).answerTtls = rs.map fun r => r.head.ttl := by
  obtain ⟨-,hbody⟩ := positiveData_layout now hr hheader
  rw [answerTtls_eq,hbody]
  change recordTtls r.answers r.response = _
  rw [hr.keeps.bytes,hr.keeps.count,recordTtls_bytes]

theorem lastShortest_storesPositive (hnow : 0 ≤ now) (hm : LastShortest m) :
    StoresPositive (Fresh now) now m := by
  intro r header hr herr hheader _
  obtain ⟨rs,hsound⟩ := @parseResponse_sound (fun h => ∀ z ∈ m.answerStarts.getLast?,
    (headAt m.pkt z).ttl ≤ max minCacheTtl h.ttl) m r hm hr herr
  obtain ⟨z,hz,hhead⟩ := hsound.last
  refine ⟨positiveData_sane hnow,le_refl _,fun ttl hmem => ?_⟩
  rw [positiveData_ttls hsound hheader] at hmem
  obtain ⟨record,hrecord,rfl⟩ := mem_map.mp hmem
  have hlast := hsound.keeps.heads record hrecord z hz
  rw [← hhead] at hlast
  simp only [positiveData]
  omega

theorem negativeData_packet {type asked ancount : Nat} :
    (negativeData m.protocol (m.memory.take m.length) type asked ancount d).data.drop 2 =
      m.pkt.take m.pktLen := by
  unfold negativeData Reply.pkt Reply.pktLen
  cases m.protocol with
  | udp => rfl
  | tcp => exact drop_take

theorem copiesShort_storesNegative (hm : CopiesShort now m s) : StoresNegative (Fresh now) m s := by
  rintro r d hr hno hq hd ⟨e,hmem,hkey,hslot⟩
  refine ⟨⟨hd.sane.inserted,hd.sane.valid,hd.sane.bounded⟩,hd.inserted,fun ttl httl => ?_⟩
  rw [CacheData.answerTtls,negativeData_packet] at httl
  exact hm e hmem ⟨r,hr,hno,hkey.symm,hq⟩ d hslot ttl httl

theorem steady_step_fresh (c : Clocked) (e : Event) (c' : Clocked) (hc : c.cache.Every (Fresh c.clock))
    (h : Guarded Steady TimedStep c e c') : c'.cache.Every (Fresh c'.clock) := by
  obtain ⟨hsteady,htime,hstep,hclock⟩ := h
  have hle : c.clock ≤ c'.clock := by
    rw [hclock]
    cases htimes : e.time with
    | none => exact le_refl _
    | some t => exact htime t htimes
  have hlater := every_mono (fun _ _ _ hd => fresh_later hd hle) hc
  refine apply_every hlater (fun now oom m he => ?_) hstep
  subst he
  obtain ⟨hnow,hlast,hcopies⟩ := hsteady
  rw [hclock]
  exact ⟨lastShortest_storesPositive hnow hlast,copiesShort_storesNegative hcopies⟩

end

section

variable {now : Int} {s s' : State} {e : CacheEntry} {question : List UInt8} {type type' : Nat}
  {request : List UInt8}

def CacheEntry.Valid (now : Int) (e : CacheEntry) : Prop :=
  (∀ d ∈ e.ipv4, now ≤ d.cacheUntil) ∧ ∀ d ∈ e.ipv6, now ≤ d.cacheUntil

theorem enforceValidity_valid (now : Int) (e : CacheEntry) : (enforceValidity now e).Valid now :=
  ⟨fun _ hd => of_decide_eq_true (Option.mem_filter_iff.mp hd).2,
    fun _ hd => of_decide_eq_true (Option.mem_filter_iff.mp hd).2⟩

theorem replace_valid (hkey : e.key = question) (he : e.Valid now) :
    ∀ x ∈ (replace s e).entries, x.key = question → x.Valid now := by
  intro x hx hxkey
  obtain ⟨y,-,rfl⟩ := mem_map.mp hx
  by_cases hy : y.key = e.key
  · rw [if_pos hy]
    exact he
  · rw [if_neg hy] at hxkey
    exact absurd (hxkey.trans hkey.symm) hy

theorem checkValidity_valid (hkey : e.key = question)
    (h : checkValidity now question type e s = (s',type')) (htype : type' ≠ 0) :
    ∀ x ∈ s'.entries, x.key = question → x.Valid now := by
  have hvalid := enforceValidity_valid now e
  unfold checkValidity at h
  dsimp only at h
  generalize (if type = 1 then (enforceValidity now e).ipv4 else _) = slot at h
  generalize (if type = 1 then (enforceValidity now e).ipv6 else _) = other at h
  split at h
  · obtain ⟨rfl,rfl⟩ := Prod.mk.inj h
    exact replace_valid hkey hvalid
  split at h
  · obtain ⟨-,rfl⟩ := Prod.mk.inj h
    exact absurd rfl htype
  obtain ⟨rfl,rfl⟩ := Prod.mk.inj h
  split
  · exact replace_valid hkey ⟨hvalid.1,hvalid.2⟩
  · exact replace_valid hkey hvalid

theorem cacheCheck_valid {proto : Protocol}
    (h : cacheCheck now proto request s = (s',some (question,type))) :
    ∀ x ∈ s'.entries, x.key = question → x.Valid now := by
  unfold cacheCheck at h
  dsimp only at h
  split at h
  · cases h
  split at h
  · cases h
  rename_i e he
  split at h
  · cases h
  · rename_i s1 t ht hcheck
    cases h
    exact checkValidity_valid (find_mem he).2 hcheck ht

theorem answerFromCache_spec {P : List UInt8 → Nat → CacheData → Prop} {proto : Protocol}
    {a : CachedAnswer} (hs : s.Every P) (h : answerFromCache now proto request s = some a) :
    (∃ key slot, P key slot a.data) ∧ now ≤ a.data.cacheUntil ∧
      a.ttlLeft = a.data.validUntil - now := by
  unfold answerFromCache at h
  have hevery := cacheCheck_every now proto request hs
  split at h
  · cases h
  rename_i s' question type hcheck
  rw [hcheck] at hevery
  obtain ⟨e,he,h⟩ := Option.bind_eq_some_iff.mp h
  obtain ⟨d,hd,h⟩ := Option.bind_eq_some_iff.mp h
  cases h
  obtain ⟨hmem,hkey⟩ := find_mem he
  have hvalid := cacheCheck_valid hcheck e hmem hkey
  unfold CacheEntry.slot at hd
  split at hd
  · exact ⟨⟨_,_,(hevery e hmem).1 d hd⟩,hvalid.1 d hd,rfl⟩
  · exact ⟨⟨_,_,(hevery e hmem).2 d hd⟩,hvalid.2 d hd,rfl⟩

end

theorem steady_runs_serve_fresh {start : Int} {c : Clocked}
    (h : Reach ⟨start,empty⟩ (Guarded Steady TimedStep) c) :
    (∀ e ∈ c.cache.entries, ∀ d, d ∈ e.ipv4 ∨ d ∈ e.ipv6 → d.Sane) ∧
      ∀ now proto request a, c.clock ≤ now → answerFromCache now proto request c.cache = some a →
        a.data.inserted ≤ now ∧ now ≤ a.data.cacheUntil ∧
          ∀ ttl ∈ a.ttl, 0 ≤ ttl ∧ ∀ t ∈ a.data.answerTtls, ttl ≤ max minCacheTtl t := by
  have hfresh : c.cache.Every (Fresh c.clock) :=
    reach_invariant (by simp [State.Every,empty]) steady_step_fresh h
  constructor
  · rintro e he d (hd | hd)
    · exact ((hfresh e he).1 d hd).sane
    · exact ((hfresh e he).2 d hd).sane
  intro now proto request a hle ha
  obtain ⟨⟨key,slot,hd⟩,huntil,hleft⟩ := answerFromCache_spec hfresh ha
  have hnow := fresh_later hd hle
  refine ⟨hnow.inserted,huntil,fun ttl httl => ?_⟩
  unfold CachedAnswer.ttl at httl
  split at httl
  · cases httl
  · cases httl
    have hvalid := hnow.sane.valid
    exact ⟨by omega,fun t ht => hleft ▸ hnow.ttls t ht⟩

def lookupOf : List UInt8 := [7,0,1,0,0,1,0,0,0,0,0,0,1,104,0,0,1,0,1]

theorem addressReply_served_fresh :
    ∃ a, answerFromCache 1020 .udp lookupOf
        ⟨[⟨[1,104],false,0,some (cachedAddress 1 1),none⟩],1,1030,0⟩ = some a ∧
      a.ttl = some 40 ∧ a.data.inserted ≤ 1020 ∧ 1020 ≤ a.data.cacheUntil ∧
      ∀ t ∈ a.data.answerTtls, (40 : Int) ≤ max minCacheTtl t := by
  have hlast : LastShortest (replyTo 1 addressRecord) := by
    unfold LastShortest
    decide +kernel
  have hstep : Guarded Steady TimedStep ⟨1000,empty⟩
      (.update 1000 false (replyTo 1 addressRecord))
      ⟨1000,⟨[⟨[1,104],false,0,some (cachedAddress 1 1),none⟩],1,1030,0⟩⟩ := by
    refine ⟨⟨by decide,hlast,by simp [CopiesShort,empty]⟩,by simp [Event.time],?_,rfl⟩
    unfold Step
    decide +kernel
  have hserved : answerFromCache 1020 .udp lookupOf
      ⟨[⟨[1,104],false,0,some (cachedAddress 1 1),none⟩],1,1030,0⟩ =
      some ⟨cachedAddress 1 1,40⟩ := by decide +kernel
  obtain ⟨hin,huntil,httl⟩ := (steady_runs_serve_fresh (.next .start hstep)).2 1020 .udp lookupOf
    _ (by decide) hserved
  exact ⟨_,hserved,rfl,hin,huntil,(httl 40 rfl).2⟩

def longRecord : List UInt8 := [0xC0,0x0C,0,1,0,1,0,0,14,16,0,4,10,0,0,2]

def cachedPair : CacheData :=
  { inserted := 1000
    validUntil := 4600
    cacheUntil := 2790
    timeout := 3600
    type := 1
    answers := 2
    data := [0,51,9,0,0x81,0x80,0,1,0,2,0,0,0,0,1,104,0,0,1,0,1] ++
      addressRecord ++ longRecord
    positive := true
    asked := 1 }

theorem unevenReply_outlives_record :
    Reach ⟨1000,empty⟩ TimedStep ⟨1000,⟨[⟨[1,104],false,0,some cachedPair,none⟩],1,1030,0⟩⟩ ∧
      answerFromCache 1000 .udp lookupOf
        ⟨[⟨[1,104],false,0,some cachedPair,none⟩],1,1030,0⟩ = some ⟨cachedPair,3600⟩ ∧
      CachedAnswer.ttl ⟨cachedPair,3600⟩ = some 3600 ∧ cachedPair.answerTtls = [60,3600] := by
  refine ⟨.next (e := .update 1000 false (replyTo 2 (addressRecord ++ longRecord))) .start
    ⟨by simp [Event.time],?_,rfl⟩,by decide +kernel,by decide +kernel,by decide +kernel⟩
  unfold Step
  decide +kernel

end FuzzingTargets.DnsProxy.Cache
