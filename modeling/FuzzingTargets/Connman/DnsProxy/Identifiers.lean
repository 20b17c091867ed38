import FuzzingTargets.Connman.DnsProxy.OneAnswer

namespace FuzzingTargets.DnsProxy
open Bytes Checked Runs List

variable (s : Proxy) (id : UInt16) (e : Entry)

def Entry.ids : List UInt16 := [e.req.dstid,e.req.altid]

def pendingIds : List UInt16 := (s.entries.filter (·.listed)).flatMap Entry.ids

def Distinct : Prop := (pendingIds s).Nodup

instance (s : Proxy) : Decidable (Distinct s) := inferInstanceAs (Decidable (List.Nodup _))

def domainAsks (altid : UInt16) : List DomainAttempt → List UInt16
  | [] => []
  | .missing :: ds => domainAsks altid ds
  | .accepted :: ds => altid :: domainAsks altid ds
  | _ => []

def nsResolvAsks (a : Attempt) (req : Request) : List UInt16 :=
  match a.cached with
  | some _ => []
  | none =>
    if a.accepted then req.dstid :: if a.dotted then [] else domainAsks req.altid a.domains else []

def resolvAsks : List Attempt → Request → List UInt16
  | [], _ => []
  | a :: as, req =>
    let r := nsResolv a req
    nsResolvAsks a req ++ if 0 < r.status then [] else resolvAsks as r.req

structure Asked where
  ident : Nat
  id : UInt16
  deriving DecidableEq

def Entry.asks (a : Attempt) : List Asked := (nsResolvAsks a e.req).map (⟨e.req.ident,·⟩)

def asks : Event → List Asked
  | .udpRequest a attempts =>
    if a.bytes.length < 2 then []
    else if a.accepted .udp then (resolvAsks attempts (newRequest s .udp a)).map (⟨s.next,·⟩)
    else []
  | .connected attempts => s.entries.flatMap fun e =>
    if e.listed = false ∨ e.req.protocol = .udp then [] else e.asks (attempts e.req.ident)
  | .serverAppended attempts => s.entries.flatMap fun e =>
    if e.listed = false then [] else e.asks (attempts e.req.ident)
  | _ => []

structure Watch where
  proxy : Proxy
  asked : List Asked
  deriving DecidableEq

def Watches (L : NameCodec) (w : Watch) (e : Event) (w' : Watch) : Prop :=
  Steps L w.proxy e w'.proxy ∧ w'.asked = w.asked ++ asks w.proxy e

variable (w : Watch)

structure Asker : Prop where
  entry : e ∈ w.proxy.entries
  listed : e.listed = true
  asked : ⟨e.req.ident,id⟩ ∈ w.asked
  only : ∀ d ∈ w.proxy.entries, d.listed = true → id ∈ d.ids → d = e

def AnswersAsker (s' : Proxy) : Prop :=
  ∃ new, s'.sent = w.proxy.sent ++ new ∧ ∀ m ∈ new, ∃ e, Asker id e w ∧ m.ident = e.req.ident

def Solicited : Prop :=
  id ∈ pendingIds w.proxy → ∃ e ∈ w.proxy.entries, e.listed = true ∧ ⟨e.req.ident,id⟩ ∈ w.asked

def Bookkept (req req' : Request) : Prop :=
  ∃ numserv request appendDomain,
    req' = { req with numserv := numserv, request := request, appendDomain := appendDomain }

structure Keeps (o : Outcome) : Prop where
  listed : ∀ e', o.entry = some e' → e'.listed = true → e.listed = true
  same : ∀ e', o.entry = some e' → Bookkept e.req e'.req

structure SameIds (req req' : Request) : Prop where
  ident : req'.ident = req.ident
  dstid : req'.dstid = req.dstid
  altid : req'.altid = req.altid

structure KeepsIds (o : Outcome) : Prop where
  listed : ∀ e', o.entry = some e' → e'.listed = true → e.listed = true
  same : ∀ e', o.entry = some e' → SameIds e.req e'.req

structure Separated : Prop where
  nodup : (s.entries.map (·.req.ident)).Nodup
  fresh : ∀ e ∈ s.entries, e.req.ident < s.next
  distinct : Distinct s

def Event.drawn : Event → List UInt16
  | .udpRequest a _ => [a.dstid,a.altid]
  | .tcpRequest a _ _ => [a.dstid,a.altid]
  | _ => []

def FreshIds (e : Event) : Prop := e.drawn.Nodup ∧ ∀ id ∈ e.drawn, id ∉ pendingIds s

def Stems (drawn : List UInt16) : Prop :=
  (∃ d ∈ s.entries, SameIds d.req e.req) ∨ e.req.ident = s.next ∧ e.ids = drawn

inductive Evolution (L : NameCodec) (s s' : Proxy) : Event → Prop
  | unlisted {e : Event} (hentries : s'.entries = s.entries) (hnext : s.next ≤ s'.next) :
      Evolution L s s' e
  | enlisted {e : Event} {p : Protocol} {a : Arrival} {req : Request}
      (hdrawn : e.drawn = [a.dstid,a.altid]) (hreq : Bookkept (newRequest s p a) req)
      (hs' : s' = enlist s req) : Evolution L s s' e
  | swept {e : Event} {f : Entry → Outcome} (hf : ∀ d, Keeps d (f d))
      (hentries : s'.entries = (sweep f s).entries) (hnext : s'.next = s.next) : Evolution L s s' e
  | replied {p : Protocol} {reply : List UInt8} {stack : Stack} {addr : Nat} {d : Entry} {f : Forward}
      (hfind : findRequest s (wordLe (reply.getD (protocolOffset p) 0)
        (reply.getD (protocolOffset p + 1) 0)) = some d)
      (hf : forwardDnsReply L p reply stack addr d.req = .ok f)
      (hs' : s' = sweep (forwardRequest p d.req.ident f) s) :
      Evolution L s s' (.reply p reply stack addr)

structure Tallied : Prop where
  separated : Separated w.proxy
  issued : ∀ x ∈ w.asked, x.ident < w.proxy.next
  own : ∀ x ∈ w.asked, ∀ e ∈ w.proxy.entries, e.req.ident = x.ident → x.id ∈ e.ids

variable {L : NameCodec} {reply : List UInt8} {p : Protocol} {stack : Stack} {addr : Nat}

section

variable {req req' req'' : Request} {e : Entry}

theorem domainAsks_altid {altid : UInt16} (ds : List DomainAttempt) :
    ∀ x ∈ domainAsks altid ds, x = altid := by
  induction ds with
  | nil => exact fun x hx => absurd hx not_mem_nil
  | cons d ds ih =>
    cases d with
    | missing => exact ih
    | tooShort | tooLong | refused => exact fun x hx => absurd hx not_mem_nil
    | accepted => exact forall_mem_cons.mpr ⟨rfl,ih⟩

theorem nsResolvAsks_ids (a : Attempt) (req : Request) :
    ∀ x ∈ nsResolvAsks a req, x ∈ [req.dstid,req.altid] := by
  unfold nsResolvAsks
  cases a.cached with
  | some data => exact fun x hx => absurd hx not_mem_nil
  | none =>
    dsimp only
    split_ifs
    · simp
    · refine forall_mem_cons.mpr ⟨mem_cons_self,fun x hx => ?_⟩
      rw [domainAsks_altid a.domains x hx]
      exact .tail _ mem_cons_self
    · exact fun x hx => absurd hx not_mem_nil

theorem resolvAsks_ids (as : List Attempt) (req : Request) :
    ∀ x ∈ resolvAsks as req, x ∈ [req.dstid,req.altid] := by
  induction as generalizing req with
  | nil => exact fun x hx => absurd hx not_mem_nil
  | cons a as ih =>
    rw [resolvAsks]
    refine forall_mem_append.mpr ⟨nsResolvAsks_ids a req,?_⟩
    split_ifs
    · exact fun x hx => absurd hx not_mem_nil
    · obtain ⟨n,b,hreq⟩ := nsResolv_retries a req
      have hrest := ih (nsResolv a req).req
      rw [hreq] at hrest ⊢
      exact hrest

theorem SameIds.rfl : SameIds req req := ⟨Eq.refl _,Eq.refl _,Eq.refl _⟩

theorem Retries.bookkept (h : Retries req req') : Bookkept req req' := by
  obtain ⟨n,b,rfl⟩ := h
  exact ⟨n,_,b,Eq.refl _⟩

theorem Bookkept.ids (h : Bookkept req req') : SameIds req req' := by
  obtain ⟨n,request,b,rfl⟩ := h
  exact ⟨Eq.refl _,Eq.refl _,Eq.refl _⟩

theorem Keeps.ids {o : Outcome} (h : Keeps e o) : KeepsIds e o :=
  ⟨h.listed,fun e' he' => (h.same e' he').ids⟩

theorem Keeps.released {sends : List Send} : Keeps e ⟨none,sends⟩ := by
  constructor
  · intro e' h
    cases h
  · intro e' h
    cases h

theorem Keeps.kept {e' : Entry} {sends : List Send} (hl : e'.listed = true → e.listed = true)
    (hs : Bookkept e.req e'.req) : Keeps e ⟨some e',sends⟩ := by
  constructor
  · intro e' h
    cases h
    exact hl
  · intro e' h
    cases h
    exact hs

theorem Keeps.unaltered : Keeps e (unchanged e) := .kept id ⟨_,_,_,rfl⟩

theorem hangupRequest_keeps (e : Entry) : Keeps e (hangupRequest e) := by
  unfold hangupRequest
  split
  · exact .unaltered
  cases e.req.request with
  | none => exact .unaltered
  | some request =>
    dsimp only
    split
    · exact .kept id ⟨_,_,_,rfl⟩
    · exact .kept (fun h => absurd h Bool.false_ne_true) ⟨_,_,_,rfl⟩

theorem connectRequest_keeps (a : Attempt) (e : Entry) : Keeps e (connectRequest a e) := by
  have h := (nsResolv_retries a e.req).bookkept
  unfold connectRequest
  dsimp only
  split_ifs
  · exact .unaltered
  · exact .released
  · exact .kept id h
  · exact .kept id h

theorem flushRequest_keeps (a : Attempt) (e : Entry) : Keeps e (flushRequest a e) := by
  have h := (nsResolv_retries a e.req).bookkept
  unfold flushRequest
  dsimp only
  split_ifs
  · exact .unaltered
  · exact .released
  · exact .kept id h

theorem timeoutRequest_keeps (i : Nat) (e : Entry) : Keeps e (timeoutRequest i e) := by
  unfold timeoutRequest
  split
  · exact .released
  · exact .unaltered

theorem finish_waiting {rcode ancount : Nat} (h : finish req rcode ancount = .waiting req') :
    SameIds req req' := by
  unfold finish at h
  split at h
  · cases h
    exact .rfl
  · cases h

theorem forwardDnsReply_waiting
    (h : forwardDnsReply L p reply stack addr req = .ok (.waiting req')) :
    SameIds req req' := by
  obtain ⟨-,r,-,hr⟩ := forwardDnsReply_ok rfl h
  cases r with
  | pass bytes | drop =>
    have hsame := finish_waiting hr.symm
    exact ⟨hsame.ident,hsame.dstid,hsame.altid⟩
  | corrupted =>
    cases hr
    exact ⟨rfl,rfl,rfl⟩

theorem forwardRequest_keepsIds {f : Forward} {d : Entry}
    (hd : d.req.ident = e.req.ident → d = e) (hf : ∀ req', f = .waiting req' → SameIds e.req req') :
    KeepsIds d (forwardRequest p e.req.ident f d) := by
  unfold forwardRequest
  split
  · rename_i hid
    obtain rfl := hd hid
    cases f with
    | waiting req' =>
      constructor
      · rintro _ ⟨⟩
        exact id
      · rintro _ ⟨⟩
        exact hf req' rfl
    | answered req' => exact Keeps.released.ids
  · exact Keeps.unaltered.ids

end

section

variable {s : Proxy} {f : Entry → Outcome}

theorem kept_ids {es : List Entry} (hf : ∀ e ∈ es, KeepsIds e (f e)) :
    (((es.filterMap fun e => (f e).entry).filter (·.listed)).flatMap Entry.ids).Sublist
      ((es.filter (·.listed)).flatMap Entry.ids) ∧
    ((es.filterMap fun e => (f e).entry).map (·.req.ident)).Sublist (es.map (·.req.ident)) := by
  induction es with
  | nil => exact ⟨.slnil,.slnil⟩
  | cons e es ih =>
    obtain ⟨hids,hidents⟩ := ih fun d hd => hf d (.tail _ hd)
    have hkeeps := hf e mem_cons_self
    have hskip : ((es.filter (·.listed)).flatMap Entry.ids).Sublist
        (((e :: es).filter (·.listed)).flatMap Entry.ids) :=
      ((sublist_cons_self e es).filter _).flatMap _
    cases ho : (f e).entry with
    | none =>
      simp only [filterMap_cons,ho]
      exact ⟨hids.trans hskip,hidents.cons _⟩
    | some e' =>
      have hsame := hkeeps.same e' ho
      simp only [filterMap_cons,ho,map_cons,hsame.ident]
      refine ⟨?_,hidents.cons_cons _⟩
      cases hl : e'.listed with
      | false =>
        rw [filter_cons_of_neg (by simp [hl])]
        exact hids.trans hskip
      | true =>
        have heq : e'.ids = e.ids := by
          simp [Entry.ids,hsame.dstid,hsame.altid]
        rw [filter_cons_of_pos hl,filter_cons_of_pos (hkeeps.listed e' ho hl),
          flatMap_cons,flatMap_cons,heq]
        exact hids.append_left _

theorem sweep_separated (h : Separated s) (hf : ∀ e ∈ s.entries, KeepsIds e (f e)) :
    Separated (sweep f s) := by
  obtain ⟨hids,hidents⟩ := kept_ids hf
  refine ⟨hidents.nodup h.nodup,fun e' he' => ?_,hids.nodup h.distinct⟩
  obtain ⟨e,he,ho⟩ := mem_filterMap.mp he'
  rw [((hf e he).same e' ho).ident]
  exact h.fresh e he

theorem Separated.congr {s' : Proxy} (h : Separated s) (hentries : s'.entries = s.entries)
    (hnext : s.next ≤ s'.next) : Separated s' := by
  refine ⟨hentries ▸ h.nodup,fun e he => (h.fresh e (hentries ▸ he)).trans_le hnext,?_⟩
  unfold Distinct pendingIds
  rw [hentries]
  exact h.distinct

theorem enlist_separated {req : Request} (h : Separated s) (hid : req.ident = s.next)
    (hfresh : req.dstid ≠ req.altid ∧ req.dstid ∉ pendingIds s ∧ req.altid ∉ pendingIds s) :
    Separated (enlist s req) := by
  obtain ⟨hne,hdst,halt⟩ := hfresh
  obtain ⟨hnodup,hless⟩ := enlist_numbered h.nodup h.fresh hid
  refine ⟨hnodup,hless,?_⟩
  have hids : pendingIds (enlist s req) = pendingIds s ++ [req.dstid,req.altid] := by
    simp [pendingIds,enlist,Entry.ids]
  rw [Distinct,hids,nodup_append]
  refine ⟨h.distinct,by simpa using hne,?_⟩
  intro a ha b hb
  rcases mem_cons.mp hb with rfl | hb
  · exact fun heq => hdst (heq ▸ ha)
  · obtain rfl := mem_singleton.mp hb
    exact fun heq => halt (heq ▸ ha)

theorem only_of_distinct (h : Distinct s) {id : UInt16} {e : Entry} (he : e ∈ s.entries)
    (hl : e.listed = true) (hid : id ∈ e.ids) :
    ∀ d ∈ s.entries, d.listed = true → id ∈ d.ids → d = e := by
  intro d hd hdl hdid
  have hsymm : Std.Symm (Function.onFun List.Disjoint Entry.ids) := ⟨fun _ _ h => h.symm⟩
  by_contra hne
  exact (nodup_flatMap.mp h).2.forall (mem_filter.mpr ⟨hd,hdl⟩)
    (mem_filter.mpr ⟨he,hl⟩) hne hdid hid

theorem sweep_stems (hf : ∀ e ∈ s.entries, KeepsIds e (f e)) {drawn : List UInt16} :
    ∀ e' ∈ (sweep f s).entries, Stems s e' drawn := by
  intro e' he'
  obtain ⟨e,he,ho⟩ := mem_filterMap.mp he'
  exact .inl ⟨e,he,(hf e he).same e' ho⟩

theorem entries_stem (s : Proxy) (drawn : List UInt16) : ∀ e ∈ s.entries, Stems s e drawn :=
  fun e he => .inl ⟨e,he,.rfl⟩

theorem enlist_stems {req : Request} (hid : req.ident = s.next) :
    ∀ e' ∈ (enlist s req).entries, Stems s e' [req.dstid,req.altid] := by
  refine forall_mem_append.mpr ⟨entries_stem s _,?_⟩
  exact forall_mem_singleton.mpr (.inr ⟨hid,rfl⟩)

end

section

variable {s s' : Proxy}

theorem step_evolution {e : Event} (hs : Steps L s e s') : Evolution L s s' e := by
  cases e with
  | udpRequest a attempts =>
    cases hs
    have hreq := (resolv_retries attempts (newRequest s .udp a)).bookkept
    unfold udpListenerEvent
    split_ifs
    · exact .unlisted rfl le_rfl
    · generalize resolv attempts (newRequest s .udp a) = r at hreq ⊢
      obtain ⟨cached,req,sends⟩ := r
      obtain ⟨n,request,b,rfl⟩ := hreq
      cases cached with
      | true => exact .unlisted rfl (Nat.le_succ _)
      | false => exact .enlisted rfl ⟨_,_,_,rfl⟩ rfl
    · exact .unlisted rfl (Nat.le_succ _)
  | tcpRequest a cached connecting =>
    cases hs
    unfold tcpRequest
    split
    · exact .unlisted rfl le_rfl
    split
    · cases cached with
      | some data => exact .unlisted rfl (Nat.le_succ _)
      | none =>
        split_ifs
        · exact .enlisted rfl ⟨_,_,_,rfl⟩ rfl
        · exact .unlisted rfl (Nat.le_succ _)
    · exact .unlisted rfl (Nat.le_succ _)
  | clientConnected | clientClosed c =>
    cases hs
    exact .unlisted rfl le_rfl
  | reply p bytes stack addr =>
    rcases serverReply_cases hs with rfl | ⟨e,f,hfind,hf,hs'⟩
    · exact .unlisted rfl le_rfl
    · exact .replied hfind hf hs'
  | hangup =>
    cases hs
    exact .swept hangupRequest_keeps rfl rfl
  | connected attempts =>
    cases hs
    exact .swept (fun d => connectRequest_keeps (attempts d.req.ident) d) rfl rfl
  | serverAppended attempts =>
    cases hs
    exact .swept (fun d => flushRequest_keeps (attempts d.req.ident) d) rfl rfl
  | timer id =>
    cases hs
    exact .swept (timeoutRequest_keeps id) rfl rfl

theorem forward_keepsIds
    {e : Entry} {f : Forward} (h : Separated s) (he : e ∈ s.entries)
    (hf : forwardDnsReply L p reply stack addr e.req = .ok f) :
    ∀ d ∈ s.entries, KeepsIds d (forwardRequest p e.req.ident f d) := by
  intro d hd
  refine forwardRequest_keepsIds (fun hid => inj_on_of_nodup_map h.nodup hd he hid) ?_
  rintro req' rfl
  exact forwardDnsReply_waiting hf

theorem findRequest_ids {id : UInt16} {e : Entry} (hfind : findRequest s id = some e) :
    e ∈ s.entries ∧ e.listed = true ∧ id ∈ e.ids := by
  have hmatch := find?_some hfind
  simp only [Bool.and_eq_true,Bool.or_eq_true,beq_iff_eq] at hmatch
  refine ⟨mem_of_find?_eq_some hfind,hmatch.1,?_⟩
  rcases hmatch.2 with rfl | rfl
  · exact mem_cons_self
  · exact .tail _ mem_cons_self

theorem separated_step {e : Event} (h : Separated s) (hfresh : FreshIds s e)
    (hs : Steps L s e s') : Separated s' := by
  cases step_evolution hs with
  | unlisted hentries hnext => exact h.congr hentries hnext
  | enlisted hdrawn hreq hs' =>
    obtain ⟨n,request,b,rfl⟩ := hreq
    obtain ⟨hnodup,hnew⟩ := hfresh
    rw [hdrawn] at hnodup hnew
    subst hs'
    exact enlist_separated h rfl ⟨by simpa [newRequest] using hnodup,by simpa [newRequest] using hnew⟩
  | swept hf hentries hnext =>
    exact (sweep_separated h fun d _ => (hf d).ids).congr hentries hnext.ge
  | replied hfind hf hs' =>
    subst hs'
    exact sweep_separated h (forward_keepsIds h (mem_of_find?_eq_some hfind) hf)

theorem step_stems {e : Event} (h : Separated s) (hs : Steps L s e s') :
    s.next ≤ s'.next ∧ ∀ e' ∈ s'.entries, Stems s e' e.drawn := by
  cases step_evolution hs with
  | unlisted hentries hnext => exact ⟨hnext,hentries ▸ entries_stem s _⟩
  | enlisted hdrawn hreq hs' =>
    obtain ⟨n,request,b,rfl⟩ := hreq
    subst hs'
    rw [hdrawn]
    exact ⟨Nat.le_succ _,enlist_stems rfl⟩
  | swept hf hentries hnext =>
    exact ⟨hnext.ge,hentries ▸ sweep_stems fun d _ => (hf d).ids⟩
  | replied hfind hf hs' =>
    subst hs'
    exact ⟨le_rfl,sweep_stems (forward_keepsIds h (mem_of_find?_eq_some hfind) hf)⟩

theorem entry_asks_ids {e : Entry} {a : Attempt} {x : Asked} (hx : x ∈ e.asks a) :
    x.ident = e.req.ident ∧ x.id ∈ e.ids := by
  obtain ⟨i,hi,rfl⟩ := mem_map.mp hx
  exact ⟨rfl,nsResolvAsks_ids a e.req i hi⟩

theorem asks_own {e : Event} (hs : Steps L s e s') {x : Asked}
    (hx : x ∈ asks s e) :
    x.ident = s.next ∧ x.id ∈ e.drawn ∧ s.next < s'.next ∨
      ∃ d ∈ s.entries, x.ident = d.req.ident ∧ x.id ∈ d.ids := by
  cases e with
  | udpRequest a attempts =>
    cases hs
    rw [asks] at hx
    split_ifs at hx with hshort haccepted
    · exact absurd hx not_mem_nil
    · obtain ⟨i,hi,rfl⟩ := mem_map.mp hx
      refine .inl ⟨rfl,resolvAsks_ids attempts _ i hi,?_⟩
      unfold udpListenerEvent
      rw [if_neg hshort,if_pos haccepted]
      split <;> exact Nat.lt_succ_self _
    · exact absurd hx not_mem_nil
  | connected attempts | serverAppended attempts =>
    obtain ⟨d,hd,hx⟩ := mem_flatMap.mp hx
    split at hx
    · exact absurd hx not_mem_nil
    · exact .inr ⟨d,hd,entry_asks_ids hx⟩
  | tcpRequest a cached connecting => exact absurd hx not_mem_nil
  | clientConnected | clientClosed c | reply p bytes stack addr | hangup | timer id =>
    exact absurd hx not_mem_nil

end

section

variable {w w' : Watch} {L : NameCodec}

theorem tallied_step {e : Event} (h : Tallied w) (hfresh : FreshIds w.proxy e)
    (hs : Watches L w e w') : Tallied w' := by
  obtain ⟨hstep,hasked⟩ := hs
  obtain ⟨hnext,hstems⟩ := step_stems h.separated hstep
  refine ⟨separated_step h.separated hfresh hstep,?_,?_⟩
  · rw [hasked]
    refine forall_mem_append.mpr ⟨fun x hx => (h.issued x hx).trans_le hnext,fun x hx => ?_⟩
    rcases asks_own hstep hx with ⟨hid,-,hlt⟩ | ⟨d,hd,hid,-⟩
    · rwa [hid]
    · rw [hid]
      exact (h.separated.fresh d hd).trans_le hnext
  rw [hasked]
  intro x hx e' he' hid
  rcases hstems e' he' with ⟨d,hd,hsame⟩ | ⟨hnew,hdrawn⟩
  · have hids : e'.ids = d.ids := by simp [Entry.ids,hsame.dstid,hsame.altid]
    rw [hsame.ident] at hid
    rw [hids]
    rcases mem_append.mp hx with hx | hx
    · exact h.own x hx d hd hid
    · rcases asks_own hstep hx with ⟨hnow,-⟩ | ⟨d',hd',hid',hx'⟩
      · exact absurd (hid.trans hnow) (h.separated.fresh d hd).ne
      · obtain rfl := inj_on_of_nodup_map h.separated.nodup hd hd' (hid.trans hid')
        exact hx'
  · rw [hnew] at hid
    rcases mem_append.mp hx with hx | hx
    · exact absurd hid.symm (h.issued x hx).ne
    · rcases asks_own hstep hx with ⟨-,hx',-⟩ | ⟨d,hd,hid',-⟩
      · rwa [hdrawn]
      · exact absurd (hid.trans hid').symm (h.separated.fresh d hd).ne

theorem asker_of_solicited (h : Tallied w) {id : UInt16} {e : Entry} (hsolicited : Solicited id w)
    (hfind : findRequest w.proxy id = some e) : Asker id e w := by
  obtain ⟨he,hl,hid⟩ := findRequest_ids hfind
  have honly := only_of_distinct h.separated.distinct he hl hid
  obtain ⟨d,hd,hdl,hasked⟩ :=
    hsolicited (mem_flatMap.mpr ⟨e,mem_filter.mpr ⟨he,hl⟩,hid⟩)
  obtain rfl := honly d hd hdl (h.own _ hasked d hd rfl)
  exact ⟨he,hl,hasked,honly⟩

theorem reply_answers_asker
    {s' : Proxy} (h : Tallied w)
    (hsolicited : Solicited (wordLe (reply.getD (protocolOffset p) 0)
      (reply.getD (protocolOffset p + 1) 0)) w)
    (hs : serverReply L p reply stack addr w.proxy = .ok s') :
    AnswersAsker (wordLe (reply.getD (protocolOffset p) 0)
      (reply.getD (protocolOffset p + 1) 0)) w s' := by
  rcases serverReply_cases hs with rfl | ⟨e,f,hfind,-,rfl⟩
  · exact ⟨[],(append_nil _).symm,fun m hm => absurd hm not_mem_nil⟩
  refine ⟨_,rfl,fun m hm => ⟨e,asker_of_solicited h hsolicited hfind,?_⟩⟩
  obtain ⟨d,-,hmd⟩ := mem_flatMap.mp hm
  rw [delivered_ident hmd]
  by_contra hne
  unfold forwardRequest at hmd
  rw [if_neg hne] at hmd
  exact absurd hmd not_mem_nil

end

def emptyWatch : Watch := ⟨emptyProxy,[]⟩

def pendingWatch : Watch := ⟨pendingProxy,[]⟩

theorem pendingWatch_reached :
    Reach emptyWatch (Guarded (fun w => FreshIds w.proxy) (Watches libresolv)) pendingWatch := by
  have h1 : Reach emptyWatch (Guarded (fun w => FreshIds w.proxy) (Watches libresolv))
      ⟨⟨[],[0],1,[],0⟩,[]⟩ :=
    .next (e := .clientConnected) .start ⟨⟨nodup_nil,fun _ h => absurd h not_mem_nil⟩,rfl,rfl⟩
  exact .next (e := .tcpRequest (hostRequest 0) none true) h1
    ⟨⟨by decide,fun _ _ => not_mem_nil⟩,rfl,rfl⟩

def emptyReply (id : UInt8) : List UInt8 := [0,12,id,0,129,128,0,0,0,0,0,0,0,0]

def forwarded : Watch where
  proxy := sweep (fun e => connectRequest ⟨none,true,true,[]⟩ e) pendingProxy
  asked := [⟨0,1⟩]

end FuzzingTargets.DnsProxy
