import FuzzingTargets.Foundation.Runs
import FuzzingTargets.Connman.DnsProxy.ForwardReply

namespace FuzzingTargets.DnsProxy.Servers
open Runs List

structure ServerData where
  index : Int
  server : String
  protocol : Option Protocol
  enabled : Bool
  channel : Bool
  deriving DecidableEq

structure Proxy where
  serverList : List ServerData
  connecting : List ServerData
  cacheRefcount : Int
  cache : Bool
  cacheTimer : Bool
  deriving DecidableEq

def initial : Proxy := ⟨[],[],0,false,false⟩

structure Services where
  defaultIndex : Int
  splitRouting : List Int
  deriving DecidableEq

def serviceIndexIsDefault (services : Services) (index : Int) : Bool :=
  if index < 0 then false else services.defaultIndex = index

def serviceIndexIsSplitRouting (services : Services) (index : Int) : Bool :=
  if index < 0 then false else index ∈ services.splitRouting

variable (i : Nat) (p : Proxy)

def createCache : Proxy :=
  let p := if p.cacheRefcount = 0 then { p with cache := true } else p
  { p with cacheRefcount := (p.cacheRefcount + 1).bmod 4294967296 }

def tryRemoveCache : Proxy :=
  let p := { p with cacheTimer := false }
  let p := if p.cacheRefcount = 1 then { p with cache := false } else p
  { p with cacheRefcount := (p.cacheRefcount - 1).bmod 4294967296 }

def armTimer : Proxy :=
  if p.cache ∧ ¬p.cacheTimer then { p with cacheTimer := true } else p

def serverDestroySocket (data : ServerData) : ServerData := { data with channel := false }

inductive Connect where
  | done
  | inProgress
  | failed
  deriving DecidableEq

structure SocketSetup where
  socket : Bool
  bindToDevice : Option Bool
  channel : Bool
  connect : Connect
  deriving DecidableEq

def serverCreateSocket (setup : SocketSetup) (data : ServerData) (p : Proxy) :
    Proxy × ServerData × Bool :=
  if ¬setup.socket then (p,serverDestroySocket data,false)
  else if setup.bindToDevice = some false then (p,serverDestroySocket data,false)
  else if ¬setup.channel then (p,serverDestroySocket data,false)
  else
    let data := { data with channel := true }
    match setup.connect with
    | .failed => (p,serverDestroySocket data,false)
    | .inProgress =>
      if data.protocol = some .udp then (p,serverDestroySocket data,false)
      else (createCache p,data,true)
    | .done => (createCache p,data,true)

structure ServerSetup where
  data : Bool
  getaddrinfo : Bool
  serverAddr : Bool
  socket : SocketSetup
  deriving DecidableEq

def enableFallback (enable : Bool) (list : List ServerData) : List ServerData :=
  list.map fun data => if data.index ≠ -1 then data else { data with enabled := enable }

variable (setup : ServerSetup) (services : Services) (index : Int)

def listServer (data : ServerData) (p : Proxy) : Proxy :=
  if serviceIndexIsDefault services data.index ∨ serviceIndexIsSplitRouting services data.index then
    { p with serverList := enableFallback false p.serverList ++ [{ data with enabled := true }] }
  else { p with serverList := p.serverList ++ [data] }

def createServer (server : String) (protocol : Option Protocol) (p : Proxy) : Proxy :=
  if ¬setup.data then p
  else if protocol = none then armTimer p
  else if ¬setup.getaddrinfo then armTimer p
  else if ¬setup.serverAddr then armTimer p
  else
    match serverCreateSocket setup.socket ⟨index,server,protocol,false,false⟩ p with
    | (p,_,false) => armTimer p
    | (p,data,true) =>
      if protocol = some .udp then listServer services data p
      else { p with connecting := p.connecting ++ [data] }

def isServer (server : String) (protocol : Protocol) (data : ServerData) : Bool :=
  if index < 0 ∧ data.index < 0 ∧ data.server = server ∧ data.protocol = some protocol then true
  else if index < 0 ∨ data.index < 0 then false
  else data.index = index ∧ data.server = server ∧ data.protocol = some protocol

def findServer (server : String) (protocol : Protocol) (list : List ServerData) : Option Nat :=
  list.findIdx? (isServer index server protocol)

def destroyServer : Proxy :=
  armTimer { p with serverList := p.serverList.eraseIdx i }

def destroyConnecting : Proxy :=
  armTimer { p with connecting := p.connecting.eraseIdx i }

def removeServer (server : String) (protocol : Protocol) (p : Proxy) : Proxy :=
  match findServer index server protocol p.serverList with
  | none => p
  | some i =>
    let p := destroyServer i p
    if ∃ data ∈ p.serverList, data.index ≠ -1 ∧ data.enabled = true then p
    else { p with serverList := enableFallback true p.serverList }

def isLoopback (server : String) : Bool := server = "127.0.0.1" ∨ server = "::1"

def dnsproxyAppend (server : Option String) (p : Proxy) : Proxy :=
  match server with
  | none => p
  | some server =>
    if isLoopback server then p
    else
      match findServer index server .udp p.serverList with
      | some _ => p
      | none => createServer setup services index server (some .udp) p

def dnsproxyRemove (server : Option String) (protocol : Protocol) (p : Proxy) : Proxy :=
  match server with
  | none => p
  | some server => if isLoopback server then p else removeServer index server protocol p

def dnsproxyOfflineMode (enabled : Bool) (p : Proxy) : Proxy :=
  { p with serverList := p.serverList.map fun data => { data with enabled := !enabled } }

def dnsproxyDefaultChanged (service : Option Int) (p : Proxy) : Proxy :=
  match service with
  | none => dnsproxyOfflineMode true p
  | some index =>
    if index < 0 then p
    else
      let list := p.serverList.map fun data => { data with enabled := data.index = index }
      if ∃ data ∈ p.serverList, data.index = index then { p with serverList := list }
      else { p with serverList := enableFallback true list }

def resolv (setup : SocketSetup) (p : Proxy) : Proxy :=
  match p.serverList[i]? with
  | none => p
  | some data =>
    if data.protocol = some .tcp then p
    else if ¬data.enabled then p
    else if ¬data.channel ∧ data.protocol = some .udp then
      let (p,data,_) := serverCreateSocket setup data p
      { p with serverList := p.serverList.set i data }
    else p

def udpServerError : Proxy :=
  match p.serverList[i]? with
  | none => p
  | some data =>
    if data.protocol = some .udp then
      { p with serverList := p.serverList.set i (serverDestroySocket data) }
    else p

def tcpServerClosed : Proxy :=
  match p.serverList[i]? with
  | none => p
  | some data => if data.protocol = some .tcp then destroyServer i p else p

def tcpServerConnected : Proxy :=
  match p.connecting[i]? with
  | none => p
  | some data =>
    { p with connecting := p.connecting.eraseIdx i, serverList := p.serverList ++ [data] }

def ensureCache (needed : Bool) : Proxy :=
  if needed ∧ ¬p.cache then createCache p else p

inductive Event where
  | append (setup : ServerSetup) (services : Services) (index : Int) (server : Option String)
  | remove (index : Int) (server : Option String) (protocol : Protocol)
  | defaultChanged (service : Option Int)
  | offlineMode (enabled : Bool)
  | openTcp (setup : ServerSetup) (services : Services) (index : Int) (server : String)
  | connected (i : Nat)
  | closeConnecting (i : Nat)
  | closeTcp (i : Nat)
  | socketError (i : Nat)
  | resolv (i : Nat) (setup : SocketSetup)
  | lookup (cacheable : Bool)
  | update (noerror : Bool)
  | timer
  deriving DecidableEq

def step (p : Proxy) : Event → Proxy
  | .append setup services index server => dnsproxyAppend setup services index server p
  | .remove index server protocol => dnsproxyRemove index server protocol p
  | .defaultChanged service => dnsproxyDefaultChanged service p
  | .offlineMode enabled => dnsproxyOfflineMode enabled p
  | .openTcp setup services index server => createServer setup services index server (some .tcp) p
  | .connected i => tcpServerConnected i p
  | .closeConnecting i => if i < p.connecting.length then destroyConnecting i p else p
  | .closeTcp i => tcpServerClosed i p
  | .socketError i => udpServerError i p
  | .resolv i setup => resolv i setup p
  | .lookup cacheable => if p.serverList = [] then p else ensureCache p cacheable
  | .update noerror =>
    if p.serverList = [] ∧ p.connecting = [] then p else ensureCache p noerror
  | .timer => if p.cacheTimer then tryRemoveCache p else p

section

variable {setup : SocketSetup} {data : ServerData} {p : Proxy}

structure SameEntry (data data' : ServerData) : Prop where
  index : data'.index = data.index
  enabled : data'.enabled = data.enabled

theorem serverCreateSocket_cases : ∃ data', (serverCreateSocket setup data p = (p,data',false) ∨
      serverCreateSocket setup data p = (createCache p,data',true)) ∧ SameEntry data data' := by
  unfold serverCreateSocket
  split
  · exact ⟨_,.inl rfl,rfl,rfl⟩
  split
  · exact ⟨_,.inl rfl,rfl,rfl⟩
  split
  · exact ⟨_,.inl rfl,rfl,rfl⟩
  cases setup.connect with
  | failed => exact ⟨_,.inl rfl,rfl,rfl⟩
  | inProgress =>
    dsimp only
    split
    · exact ⟨_,.inl rfl,rfl,rfl⟩
    · exact ⟨_,.inr rfl,rfl,rfl⟩
  | done => exact ⟨_,.inr rfl,rfl,rfl⟩

structure SameLists (p q : Proxy) : Prop where
  serverList : q.serverList = p.serverList
  connecting : q.connecting = p.connecting

theorem armTimer_lists : SameLists p (armTimer p) := by
  unfold armTimer
  split <;> exact ⟨rfl,rfl⟩

theorem createCache_lists : SameLists p (createCache p) := by
  unfold createCache
  split <;> exact ⟨rfl,rfl⟩

theorem tryRemoveCache_lists : SameLists p (tryRemoveCache p) := by
  unfold tryRemoveCache
  dsimp only
  split <;> exact ⟨rfl,rfl⟩

end

variable {data : ServerData}

section

def Exclusive (list : List ServerData) : Prop :=
  ∀ f ∈ list, ∀ r ∈ list, ¬(f.index = -1 ∧ f.enabled = true ∧ r.index ≠ -1 ∧ r.enabled = true)

instance : DecidablePred Exclusive := fun list =>
  inferInstanceAs (Decidable (∀ f ∈ list, ∀ r ∈ list, ¬_))

def OneKind (list : List ServerData) : Prop :=
  (∀ data ∈ list, data.index ≠ -1) ∨ ∀ data ∈ list, data.index = -1

def NotBothEnabled (e : Event) : Prop := e = .offlineMode false → OneKind p.serverList

structure Settled : Prop where
  exclusive : Exclusive p.serverList
  waiting : ∀ data ∈ p.connecting, data.enabled = false

variable {old list : List ServerData} {p : Proxy}

theorem Exclusive.of_enabled (h : Exclusive old) (hlist : ∀ data ∈ list, data.enabled = true →
      ∃ data' ∈ old, data'.index = data.index ∧ data'.enabled = true) : Exclusive list := by
  rintro f hf r hr ⟨hfindex,hfenabled,hrindex,hrenabled⟩
  obtain ⟨f',hf',hfeq,hfe⟩ := hlist f hf hfenabled
  obtain ⟨r',hr',hreq,hre⟩ := hlist r hr hrenabled
  exact h f' hf' r' hr' ⟨hfeq.trans hfindex,hfe,hreq ▸ hrindex,hre⟩

theorem initial_settled : Settled initial := by
  constructor
  · intro f hf
    cases hf
  · intro data hdata
    cases hdata

theorem Exclusive.append (h : Exclusive old) (hdata : data.enabled = false) :
    Exclusive (old ++ [data]) := by
  refine .of_enabled h fun x hx henabled => ?_
  rcases mem_append.mp hx with hx | hx
  · exact ⟨x,hx,rfl,henabled⟩
  · rw [mem_singleton.mp hx,hdata] at henabled
    cases henabled

theorem Exclusive.sublist (h : Exclusive old) (hsub : list.Sublist old) : Exclusive list :=
  .of_enabled h fun x hx henabled => ⟨x,hsub.subset hx,rfl,henabled⟩

theorem Exclusive.no_fallback (h : ∀ data ∈ list, data.index = -1 → data.enabled = false) :
    Exclusive list := by
  rintro f hf r hr ⟨hindex,henabled,-⟩
  rw [h f hf hindex] at henabled
  cases henabled

theorem Exclusive.no_regular (h : ∀ data ∈ list, data.index ≠ -1 → data.enabled = false) :
    Exclusive list := by
  rintro f hf r hr ⟨-,-,hindex,henabled⟩
  rw [h r hr hindex] at henabled
  cases henabled

theorem enableFallback_false (list : List ServerData) :
    ∀ data ∈ enableFallback false list, data.index = -1 → data.enabled = false := by
  intro data hdata hindex
  obtain ⟨x,-,rfl⟩ := mem_map.mp hdata
  by_cases hx : x.index = -1
  · rw [if_neg (not_not.mpr hx)]
  · rw [if_pos hx] at hindex
    exact absurd hindex hx

theorem enableFallback_regular {enable : Bool}
    (h : ∀ data ∈ list, data.index ≠ -1 → data.enabled = false) :
    ∀ data ∈ enableFallback enable list, data.index ≠ -1 → data.enabled = false := by
  intro data hdata hindex
  obtain ⟨x,hx,rfl⟩ := mem_map.mp hdata
  by_cases hne : x.index = -1
  · rw [if_neg (not_not.mpr hne)] at hindex
    exact absurd hne hindex
  · rw [if_pos hne]
    exact h x hx hne

theorem service_index_nonneg {services : Services} {index : Int}
    (h : serviceIndexIsDefault services index ∨ serviceIndexIsSplitRouting services index) :
    index ≠ -1 := by
  rintro rfl
  simp [serviceIndexIsDefault,serviceIndexIsSplitRouting] at h

theorem dnsproxyOfflineMode_exclusive :
    Exclusive (dnsproxyOfflineMode false p).serverList ↔ OneKind p.serverList := by
  constructor
  · intro h
    by_contra hboth
    simp only [OneKind,not_or,not_forall,ne_eq,not_not] at hboth
    obtain ⟨⟨f,hf,hfindex⟩,r,hr,hrindex⟩ := hboth
    exact h _ (mem_map_of_mem hf) _ (mem_map_of_mem hr) ⟨hfindex,rfl,hrindex,rfl⟩
  rintro hkind f hf r hr ⟨hfindex,-,hrindex,-⟩
  obtain ⟨f',hf',rfl⟩ := mem_map.mp hf
  obtain ⟨r',hr',rfl⟩ := mem_map.mp hr
  rcases hkind with hregular | hfallback
  · exact hregular f' hf' hfindex
  · exact hrindex (hfallback r' hr')

variable (h : Settled p)
include h

theorem listServer_settled (services : Services)
    (hdata : data.enabled = false) : Settled (listServer services data p) := by
  unfold listServer
  split
  · rename_i hindex
    refine ⟨.no_fallback fun x hx hfallback => ?_,h.waiting⟩
    rcases mem_append.mp hx with hx | hx
    · exact enableFallback_false _ x hx hfallback
    · rw [mem_singleton.mp hx] at hfallback
      exact absurd hfallback (service_index_nonneg hindex)
  · exact ⟨.append h.exclusive hdata,h.waiting⟩

theorem settled_of_lists {q : Proxy} (hq : SameLists p q) : Settled q :=
  ⟨hq.serverList ▸ h.exclusive,hq.connecting ▸ h.waiting⟩

theorem armTimer_settled : Settled (armTimer p) := settled_of_lists h armTimer_lists

theorem createCache_settled : Settled (createCache p) := settled_of_lists h createCache_lists

theorem createServer_settled (setup : ServerSetup) (services : Services) (index : Int)
    (server : String) (protocol : Option Protocol) :
    Settled (createServer setup services index server protocol p) := by
  have harm := armTimer_settled h
  unfold createServer
  split
  · exact h
  split
  · exact harm
  split
  · exact harm
  split
  · exact harm
  obtain ⟨data',hsocket | hsocket,-,henabled⟩ := @serverCreateSocket_cases
    setup.socket ⟨index,server,protocol,false,false⟩ p
  · rw [hsocket]
    exact harm
  rw [hsocket]
  have hcache := createCache_settled h
  dsimp only
  split
  · exact listServer_settled hcache services henabled
  refine ⟨hcache.exclusive,fun x hx => ?_⟩
  rcases mem_append.mp hx with hx | hx
  · exact hcache.waiting x hx
  · exact mem_singleton.mp hx ▸ henabled

theorem destroyServer_settled (i : Nat) : Settled (destroyServer i p) :=
  armTimer_settled ⟨.sublist h.exclusive (eraseIdx_sublist _ _),h.waiting⟩

theorem removeServer_settled (index : Int) (server : String)
    (protocol : Protocol) : Settled (removeServer index server protocol p) := by
  unfold removeServer
  cases findServer index server protocol p.serverList with
  | none => exact h
  | some i =>
    have hdestroyed := destroyServer_settled h i
    dsimp only
    split
    · exact hdestroyed
    rename_i hnone
    refine ⟨.no_regular (enableFallback_regular fun data hdata hindex => ?_),
      hdestroyed.waiting⟩
    by_contra henabled
    exact hnone ⟨data,hdata,hindex,by simpa using henabled⟩

theorem dnsproxyOfflineMode_settled : Settled (dnsproxyOfflineMode true p) := by
  refine ⟨.no_fallback fun data hdata _ => ?_,h.waiting⟩
  obtain ⟨x,-,rfl⟩ := mem_map.mp hdata
  rfl

theorem dnsproxyDefaultChanged_settled (service : Option Int) :
    Settled (dnsproxyDefaultChanged service p) := by
  unfold dnsproxyDefaultChanged
  cases service with
  | none => exact dnsproxyOfflineMode_settled h
  | some index =>
    dsimp only
    split_ifs with hneg hsome
    · exact h
    · refine ⟨.no_fallback fun data hdata hfallback => ?_,h.waiting⟩
      obtain ⟨x,-,rfl⟩ := mem_map.mp hdata
      dsimp only at hfallback ⊢
      exact decide_eq_false (by omega)
    · refine ⟨.no_regular (enableFallback_regular fun data hdata _ => ?_),h.waiting⟩
      obtain ⟨x,hx,rfl⟩ := mem_map.mp hdata
      exact decide_eq_false fun heq => hsome ⟨x,hx,heq⟩

theorem set_settled {i : Nat} {data' : ServerData} (hdata : p.serverList[i]? = some data)
    (hsame : SameEntry data data') : Exclusive (p.serverList.set i data') := by
  refine .of_enabled h.exclusive fun x hx hx' => ?_
  rcases mem_or_eq_of_mem_set hx with hmem | rfl
  · exact ⟨x,hmem,rfl,hx'⟩
  · exact ⟨data,mem_of_getElem? hdata,hsame.index.symm,hsame.enabled ▸ hx'⟩

theorem resolv_settled (i : Nat) (setup : SocketSetup) : Settled (resolv i setup p) := by
  unfold resolv
  cases hdata : p.serverList[i]? with
  | none => exact h
  | some data =>
    dsimp only
    split
    · exact h
    split
    · exact h
    split
    · obtain ⟨data',hsocket | hsocket,hsame⟩ := @serverCreateSocket_cases setup data p
      · rw [hsocket]
        exact ⟨set_settled h hdata hsame,h.waiting⟩
      rw [hsocket]
      have hcache := createCache_settled h
      exact ⟨set_settled hcache (createCache_lists.serverList.symm ▸ hdata) hsame,hcache.waiting⟩
    · exact h

theorem udpServerError_settled (i : Nat) : Settled (udpServerError i p) := by
  unfold udpServerError
  cases hdata : p.serverList[i]? with
  | none => exact h
  | some data =>
    dsimp only
    split
    · exact ⟨set_settled h hdata ⟨rfl,rfl⟩,h.waiting⟩
    · exact h

theorem tcpServerClosed_settled (i : Nat) : Settled (tcpServerClosed i p) := by
  unfold tcpServerClosed
  cases p.serverList[i]? with
  | none => exact h
  | some data =>
    dsimp only
    split
    · exact destroyServer_settled h i
    · exact h

theorem tcpServerConnected_settled (i : Nat) : Settled (tcpServerConnected i p) := by
  unfold tcpServerConnected
  cases hdata : p.connecting[i]? with
  | none => exact h
  | some data =>
    have hmem := mem_of_getElem? hdata
    exact ⟨.append h.exclusive (h.waiting data hmem),
      fun x hx => h.waiting x ((eraseIdx_sublist _ _).subset hx)⟩

theorem dnsproxyAppend_settled (setup : ServerSetup) (services : Services) (index : Int)
    (server : Option String) : Settled (dnsproxyAppend setup services index server p) := by
  unfold dnsproxyAppend
  cases server with
  | none => exact h
  | some server =>
    dsimp only
    split
    · exact h
    · cases findServer index server .udp p.serverList with
      | some i => exact h
      | none => exact createServer_settled h _ _ _ _ _

theorem dnsproxyRemove_settled (index : Int) (server : Option String)
    (protocol : Protocol) : Settled (dnsproxyRemove index server protocol p) := by
  unfold dnsproxyRemove
  cases server with
  | none => exact h
  | some server =>
    dsimp only
    split
    · exact h
    · exact removeServer_settled h _ _ _

theorem recreated_settled (a b : Prop) [Decidable a] [Decidable b] :
    Settled (if a then p else if b then createCache p else p) := by
  split_ifs
  · exact h
  · exact createCache_settled h
  · exact h

theorem step_settled {e : Event} (hguard : NotBothEnabled p e) : Settled (step p e) := by
  cases e with
  | append setup services index server => exact dnsproxyAppend_settled h _ _ _ _
  | remove index server protocol => exact dnsproxyRemove_settled h _ _ _
  | defaultChanged service => exact dnsproxyDefaultChanged_settled h service
  | offlineMode enabled =>
    cases enabled with
    | true => exact dnsproxyOfflineMode_settled h
    | false => exact ⟨dnsproxyOfflineMode_exclusive.mpr (hguard rfl),h.waiting⟩
  | openTcp setup services index server => exact createServer_settled h _ _ _ _ _
  | connected i => exact tcpServerConnected_settled h i
  | closeConnecting i =>
    simp only [step]
    split
    · exact armTimer_settled ⟨h.exclusive,
        fun x hx => h.waiting x ((eraseIdx_sublist _ _).subset hx)⟩
    · exact h
  | closeTcp i => exact tcpServerClosed_settled h i
  | socketError i => exact udpServerError_settled h i
  | resolv i setup => exact resolv_settled h i setup
  | lookup cacheable => exact recreated_settled h _ _
  | update noerror => exact recreated_settled h _ _
  | timer =>
    simp only [step]
    split
    · exact settled_of_lists h tryRemoveCache_lists
    · exact h

end

theorem fallback_exclusive_iff (events : List Event) :
    (∀ p ∈ states step initial events, Exclusive p.serverList) ↔
      Permitted NotBothEnabled step initial events := by
  refine states_good_iff (fun p => Settled.exclusive) (fun p e h hguard => step_settled h hguard) ?_ ?_ events
  · rintro p e - hgood rfl
    exact dnsproxyOfflineMode_exclusive.mp hgood
  · exact initial_settled

def workingSetup : ServerSetup := ⟨true,true,true,⟨true,none,true,.done⟩⟩

def fallbackBesideRegular : List Event :=
  [.append workingSetup ⟨2,[]⟩ (-1) (some "8.8.8.8"),
    .append workingSetup ⟨2,[]⟩ 2 (some "192.0.2.1"),.offlineMode true,.offlineMode false]

theorem fallbackBesideRegular_both_enabled :
    ¬∀ p ∈ states step initial fallbackBesideRegular, Exclusive p.serverList := by
  decide +kernel

end FuzzingTargets.DnsProxy.Servers
