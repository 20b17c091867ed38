import FuzzingTargets.Foundation.DelayedRelease
import FuzzingTargets.Connman.DnsProxy.Servers

namespace FuzzingTargets.DnsProxy.Servers
open Runs DelayedRelease List

variable (p : Proxy)

def references : Counter :=
  ⟨p.cacheRefcount,p.cache,p.cacheTimer,p.serverList.length + p.connecting.length⟩

def SocketSetup.Works (setup : SocketSetup) (protocol : Option Protocol) : Prop :=
  setup.socket = true ∧ setup.bindToDevice ≠ some false ∧ setup.channel = true ∧
    (setup.connect = .done ∨ setup.connect = .inProgress ∧ protocol ≠ some .udp)

instance (setup : SocketSetup) (protocol : Option Protocol) : Decidable (setup.Works protocol) :=
  inferInstanceAs (Decidable (_ ∧ _))

def ServerSetup.Works (setup : ServerSetup) (protocol : Option Protocol) : Prop :=
  protocol ≠ none ∧ setup.getaddrinfo = true ∧ setup.serverAddr = true ∧
    setup.socket.Works protocol

instance (setup : ServerSetup) (protocol : Option Protocol) : Decidable (setup.Works protocol) :=
  inferInstanceAs (Decidable (_ ∧ _))

def creation (setup : ServerSetup) (protocol : Option Protocol) : Action :=
  if setup.data = false then .idle
  else if setup.Works protocol then .enter
  else .refuse

def Unknown (index : Int) (server : String) (protocol : Protocol) : Prop :=
  isLoopback server = true ∨ findServer index server protocol p.serverList = none

instance (p : Proxy) (index : Int) (server : String) (protocol : Protocol) :
    Decidable (Unknown p index server protocol) := inferInstanceAs (Decidable (_ ∨ _))

def Reopens (i : Nat) (setup : SocketSetup) : Prop :=
  ∃ data ∈ p.serverList[i]?, data.enabled = true ∧ data.channel = false ∧
    data.protocol = some .udp ∧ setup.Works (some .udp)

instance (p : Proxy) (i : Nat) (setup : SocketSetup) : Decidable (Reopens p i setup) :=
  inferInstanceAs (Decidable (∃ data ∈ p.serverList[i]?, _))

def action : Event → Action
  | .append setup _ index (some server) =>
    if isLoopback server = true ∨ findServer index server .udp p.serverList ≠ none then .idle
    else creation setup (some .udp)
  | .openTcp setup _ _ _ => creation setup (some .tcp)
  | .remove index (some server) protocol => if Unknown p index server protocol then .idle else .leave
  | .closeConnecting i => if i < p.connecting.length then .leave else .idle
  | .closeTcp i =>
    if ∃ data ∈ p.serverList[i]?, data.protocol = some .tcp then .leave else .idle
  | .resolv i setup => if Reopens p i setup then .renew else .idle
  | .lookup cacheable => if cacheable = true ∧ p.serverList ≠ [] then .reuse else .idle
  | .update noerror => if noerror = true then .reuse else .idle
  | .timer => .expire
  | _ => .idle

def ReferenceCovered (e : Event) : Prop := Covered (references p) (action p e)

def CacheBalanced : Prop :=
  0 ≤ p.cacheRefcount ∧ (p.cache = true ↔ 0 < p.cacheRefcount) ∧
    (p.serverList = [] → p.connecting = [] → p.cacheTimer = false →
      p.cacheRefcount = 0 ∧ p.cache = false)

instance : DecidablePred CacheBalanced := fun _ => inferInstanceAs (Decidable (_ ∧ _ ∧ _))

def closeServer : Proxy := destroyServer 0 (step p .timer)

def closeConnection : Proxy := destroyConnecting 0 (step p .timer)

def shutdown : Proxy :=
  step (closeConnection^[p.connecting.length] (closeServer^[p.serverList.length] p)) .timer

section

variable {p : Proxy}

theorem references_createCache : references (createCache p) = (references p).acquire := by
  unfold createCache references Counter.acquire
  split
  · rename_i hzero
    simp [hzero]
  · rename_i hne
    simp [hne]

theorem references_armTimer : references (armTimer p) = (references p).arm := by
  unfold armTimer references Counter.arm
  cases hcache : p.cache <;> cases htimer : p.cacheTimer <;> simp [hcache,htimer]

theorem references_tryRemoveCache : references (tryRemoveCache p) = (references p).release := by
  unfold tryRemoveCache references Counter.release
  dsimp only
  split
  · rename_i hone
    simp [hone]
  · rename_i hne
    simp [hne]

theorem references_timer : references (step p .timer) = apply (references p) .expire := by
  simp only [step,apply]
  split
  · rename_i htimer
    rw [references_tryRemoveCache]
    exact (if_pos htimer).symm
  · rename_i htimer
    exact (if_neg htimer).symm

theorem serverCreateSocket_works {setup : SocketSetup} {data : ServerData} :
    (serverCreateSocket setup data p).2.2 = true ↔ setup.Works data.protocol := by
  unfold serverCreateSocket SocketSetup.Works
  split
  · rename_i hsocket
    simp [hsocket]
  split
  · rename_i hbind
    simp [hbind]
  split
  · rename_i hchannel
    simp [hchannel]
  rename_i hsocket hbind hchannel
  rw [not_not] at hsocket hchannel
  simp only [hsocket,hchannel,ne_eq,hbind,not_false_eq_true,true_and]
  cases setup.connect with
  | failed => simp
  | inProgress =>
    dsimp only
    split
    · rename_i hudp
      simp [hudp]
    · rename_i hudp
      simp [hudp]
  | done => simp

theorem references_listServer (services : Services) (data : ServerData) :
    references (listServer services data p) =
      { references p with users := (references p).users + 1 } := by
  unfold listServer references
  split
  · simp [enableFallback,Nat.add_right_comm]
  · simp [Nat.add_right_comm]

theorem references_createServer (setup : ServerSetup) (services : Services) (index : Int)
    (server : String) (protocol : Option Protocol) :
    references (createServer setup services index server protocol p) =
      apply (references p) (creation setup protocol) := by
  have hworks := @serverCreateSocket_works p setup.socket ⟨index,server,protocol,false,false⟩
  unfold createServer
  split
  · rename_i hdata
    rw [creation,if_pos (by simpa using hdata)]
    rfl
  rename_i hdata
  have hcreation : creation setup protocol = if setup.Works protocol then .enter else .refuse := by
    rw [creation,if_neg (by simpa using hdata)]
  have hrefused : ¬setup.Works protocol →
      references (armTimer p) = apply (references p) (creation setup protocol) := by
    intro hfails
    rw [hcreation,if_neg hfails]
    exact references_armTimer
  split
  · rename_i hprotocol
    exact hrefused fun h => h.1 hprotocol
  split
  · rename_i haddr
    exact hrefused fun h => haddr h.2.1
  split
  · rename_i hserver
    exact hrefused fun h => hserver h.2.2.1
  rename_i hprotocol haddr hserver
  obtain ⟨data',hsocket | hsocket,-,-⟩ := @serverCreateSocket_cases setup.socket
    ⟨index,server,protocol,false,false⟩ p
  · rw [hsocket] at hworks ⊢
    exact hrefused fun h => by simpa using hworks.mpr h.2.2.2
  rw [hsocket] at hworks ⊢
  rw [hcreation,if_pos ⟨hprotocol,not_not.mp haddr,not_not.mp hserver,hworks.mp rfl⟩]
  dsimp only
  split
  · rw [references_listServer,references_createCache]
    rfl
  · simp only [apply,← references_createCache]
    simp [references,createCache_lists.serverList,createCache_lists.connecting,Nat.add_assoc]

theorem references_destroyServer {i : Nat} (hi : i < p.serverList.length) :
    references (destroyServer i p) = apply (references p) .leave := by
  have husers : (references p).users ≠ 0 := by
    simp only [references]
    omega
  rw [destroyServer,references_armTimer,apply,if_neg husers]
  congr 1
  simp only [references,length_eraseIdx,if_pos hi]
  congr 1
  omega

theorem references_destroyConnecting {i : Nat} (hi : i < p.connecting.length) :
    references (destroyConnecting i p) = apply (references p) .leave := by
  have husers : (references p).users ≠ 0 := by
    simp only [references]
    omega
  rw [destroyConnecting,references_armTimer,apply,if_neg husers]
  congr 1
  simp only [references,length_eraseIdx,if_pos hi]
  congr 1
  omega

theorem references_relisted {list : List ServerData} (h : list.length = p.serverList.length) :
    references { p with serverList := list } = references p := by
  simp [references,h]

theorem references_removeServer (index : Int) (server : String) (protocol : Protocol) :
    references (removeServer index server protocol p) = apply (references p)
      (if findServer index server protocol p.serverList = none then .idle else .leave) := by
  unfold removeServer
  cases hfind : findServer index server protocol p.serverList with
  | none => rfl
  | some i =>
    have hi : i < p.serverList.length := (List.findIdx?_eq_some_iff_findIdx_eq.mp hfind).1
    rw [if_neg (by simp),← references_destroyServer hi]
    dsimp only
    split
    · rfl
    · exact references_relisted (by simp [enableFallback])

theorem references_resolv (i : Nat) (setup : SocketSetup) :
    references (resolv i setup p) =
      apply (references p) (if Reopens p i setup then .renew else .idle) := by
  have hreopens : Reopens p i setup → ∃ data, p.serverList[i]? = some data ∧
      data.enabled = true ∧ data.channel = false ∧ data.protocol = some .udp ∧
      setup.Works (some .udp) := fun ⟨data,hdata,h⟩ => ⟨data,hdata,h⟩
  unfold resolv
  cases hdata : p.serverList[i]? with
  | none =>
    rw [if_neg fun h => by simpa [hdata] using hreopens h]
    rfl
  | some data =>
    simp only [hdata,Option.some.injEq,exists_eq_left'] at hreopens
    dsimp only
    have hworks := @serverCreateSocket_works p setup data
    split
    · rename_i htcp
      rw [if_neg fun h => by simpa [htcp] using hreopens h]
      rfl
    split
    · rename_i henabled
      rw [if_neg fun h => henabled (hreopens h).1]
      rfl
    split
    · rename_i henabled hopen
      obtain ⟨hchannel,hudp⟩ := hopen
      rw [hudp] at hworks
      obtain ⟨data',hsocket | hsocket,-,-⟩ := @serverCreateSocket_cases setup data p
      · rw [hsocket] at hworks ⊢
        rw [if_neg fun h => by simpa using hworks.mpr (hreopens h).2.2.2]
        exact references_relisted (by simp)
      rw [hsocket] at hworks ⊢
      rw [if_pos ⟨data,hdata,not_not.mp henabled,by simpa using hchannel,hudp,hworks.mp rfl⟩]
      refine (references_relisted (by simp)).trans ?_
      exact references_createCache
    · rename_i hclosed
      rw [if_neg fun h => hclosed ⟨by simp [(hreopens h).2.1],(hreopens h).2.2.1⟩]
      rfl

theorem references_reuse (hnew : (p.serverList = [] ∧ p.connecting = []) → False) :
    references (if p.cache = false then createCache p else p) = apply (references p) .reuse := by
  have husers : (references p).users ≠ 0 := by
    simp only [references,ne_eq,Nat.add_eq_zero_iff,length_eq_zero_iff]
    exact hnew
  simp only [apply]
  split
  · rename_i hcache
    rw [references_createCache,if_neg (not_or.mpr ⟨husers,by simp [references,hcache]⟩)]
  · rename_i hcache
    rw [if_pos (.inr (by simpa [references] using hcache))]

theorem references_step (p : Proxy) (e : Event) :
    references (step p e) = apply (references p) (action p e) := by
  cases e with
  | append setup services index server =>
    cases server with
    | none => rfl
    | some server =>
      simp only [step,dnsproxyAppend,action]
      by_cases hloop : isLoopback server = true
      · rw [if_pos hloop,if_pos (.inl hloop)]
        rfl
      rw [if_neg hloop]
      cases hfind : findServer index server .udp p.serverList with
      | some i =>
        rw [if_pos (.inr (by simp))]
        rfl
      | none =>
        rw [if_neg (by simp [hloop])]
        exact references_createServer _ _ _ _ _
  | remove index server protocol =>
    cases server with
    | none => rfl
    | some server =>
      simp only [step,dnsproxyRemove,action]
      by_cases hloop : isLoopback server = true
      · have hunknown : Unknown p index server protocol := .inl hloop
        rw [if_pos hloop,if_pos hunknown]
        rfl
      have hunknown : Unknown p index server protocol ↔
          findServer index server protocol p.serverList = none := or_iff_right hloop
      rw [if_neg hloop,references_removeServer]
      simp only [hunknown]
  | defaultChanged service =>
    simp only [step,action,dnsproxyDefaultChanged]
    cases service with
    | none => exact references_relisted (by simp)
    | some index =>
      dsimp only
      split_ifs
      · rfl
      · exact references_relisted (by simp)
      · exact references_relisted (by simp [enableFallback])
  | offlineMode enabled => exact references_relisted (by simp)
  | openTcp setup services index server => exact references_createServer _ _ _ _ _
  | connected i =>
    simp only [step,action,tcpServerConnected]
    cases hdata : p.connecting[i]? with
    | none => rfl
    | some data =>
      have hi : i < p.connecting.length := (List.getElem?_eq_some_iff.mp hdata).1
      simp only [references,apply,length_append,length_eraseIdx,if_pos hi,length_singleton]
      congr 1
      omega
  | closeConnecting i =>
    simp only [step,action]
    split
    · rename_i hi
      exact references_destroyConnecting hi
    · rfl
  | closeTcp i =>
    simp only [step,action,tcpServerClosed]
    cases hdata : p.serverList[i]? with
    | none => simp [apply]
    | some data =>
      simp only [Option.mem_some_iff,exists_eq_left']
      split
      · exact references_destroyServer (List.getElem?_eq_some_iff.mp hdata).1
      · rfl
  | socketError i =>
    simp only [step,action,udpServerError]
    cases hdata : p.serverList[i]? with
    | none => rfl
    | some data =>
      dsimp only
      split
      · exact references_relisted (by simp)
      · rfl
  | resolv i setup => exact references_resolv i setup
  | lookup cacheable =>
    simp only [step,action,ensureCache]
    by_cases hlist : p.serverList = []
    · rw [if_pos hlist,if_neg (by simp [hlist])]
      rfl
    rw [if_neg hlist]
    cases cacheable with
    | false => rfl
    | true =>
      have haction : (if true = true ∧ p.serverList ≠ [] then Action.reuse else .idle) = .reuse :=
        if_pos ⟨rfl,hlist⟩
      rw [haction,← references_reuse (fun h => hlist h.1)]
      simp
  | update noerror =>
    simp only [step,action,ensureCache]
    by_cases hnone : p.serverList = [] ∧ p.connecting = []
    · rw [if_pos hnone]
      have husers : (references p).users = 0 := by simp [references,hnone]
      cases noerror with
      | false => rfl
      | true => exact (if_pos (.inl husers)).symm
    rw [if_neg hnone]
    cases noerror with
    | false => rfl
    | true =>
      rw [if_pos rfl,← references_reuse hnone]
      simp
  | timer => exact references_timer

end

section

variable {p : Proxy}

theorem step_timer_lists : SameLists p (step p .timer) := by
  simp only [step]
  split
  · exact tryRemoveCache_lists
  · exact ⟨rfl,rfl⟩

theorem closeServers_references {n : Nat} (hn : n ≤ p.serverList.length) :
    references (closeServer^[n] p) = leaveAfterExpiry^[n] (references p) ∧
      (closeServer^[n] p).serverList.length = p.serverList.length - n ∧
      (closeServer^[n] p).connecting = p.connecting := by
  induction n with
  | zero => exact ⟨rfl,rfl,rfl⟩
  | succ n ih =>
    obtain ⟨href,hlength,hconnecting⟩ := ih (by omega)
    rw [Function.iterate_succ_apply',Function.iterate_succ_apply',← href]
    generalize closeServer^[n] p = q at *
    have hlt : 0 < (step q .timer).serverList.length := by
      rw [step_timer_lists.serverList]
      omega
    refine ⟨?_,?_,?_⟩
    · rw [closeServer,references_destroyServer hlt,references_timer,leaveAfterExpiry]
    · rw [closeServer,destroyServer,armTimer_lists.serverList,length_eraseIdx,if_pos hlt,
        step_timer_lists.serverList]
      omega
    · exact armTimer_lists.connecting.trans (step_timer_lists.connecting.trans hconnecting)

theorem closeConnections_references {n : Nat} (hn : n ≤ p.connecting.length) :
    references (closeConnection^[n] p) = leaveAfterExpiry^[n] (references p) ∧
      (closeConnection^[n] p).connecting.length = p.connecting.length - n := by
  induction n with
  | zero => exact ⟨rfl,rfl⟩
  | succ n ih =>
    obtain ⟨href,hlength⟩ := ih (by omega)
    rw [Function.iterate_succ_apply',Function.iterate_succ_apply',← href]
    generalize closeConnection^[n] p = q at *
    have hlt : 0 < (step q .timer).connecting.length := by
      rw [step_timer_lists.connecting]
      omega
    constructor
    · rw [closeConnection,references_destroyConnecting hlt,references_timer,leaveAfterExpiry]
    · rw [closeConnection,destroyConnecting,armTimer_lists.connecting,length_eraseIdx,if_pos hlt,
        step_timer_lists.connecting]
      omega

theorem references_shutdown : references (shutdown p) = drain (references p) := by
  obtain ⟨hservers,-,hconnecting⟩ := closeServers_references (Nat.le_refl p.serverList.length)
  obtain ⟨hclosed,-⟩ := @closeConnections_references (closeServer^[p.serverList.length] p)
    p.connecting.length (by rw [hconnecting])
  rw [shutdown,references_timer,hclosed,hservers,← Function.iterate_add_apply,Nat.add_comm]
  rfl

theorem cacheBalanced_iff : CacheBalanced p ↔ InBalance (references p) := by
  unfold CacheBalanced InBalance
  simp only [references,Nat.add_eq_zero_iff,length_eq_zero_iff,and_imp]

end

theorem cache_references_iff (events : List Event) :
    (∀ p ∈ states step initial events, CacheBalanced p ∧ CacheBalanced (shutdown p)) ↔
      Permitted ReferenceCovered step initial events := by
  have hgood : ∀ p, CacheBalanced p ∧ CacheBalanced (shutdown p) ↔
      InBalance (references p) ∧ InBalance (drain (references p)) := by
    intro p
    rw [cacheBalanced_iff,cacheBalanced_iff,references_shutdown]
  simp only [hgood]
  refine @states_good_iff _ _ _ step (fun p => Held (references p)) _ ?_ ?_ ?_ initial ?_ events
  · intro p h
    exact ⟨inBalance_of_held h,(drain_inBalance_iff h.toCounted).mpr h.covered⟩
  · intro p e h hcovered
    rw [references_step]
    exact apply_held h hcovered
  · rintro p e h ⟨hbalanced,hdrained⟩
    rw [references_step] at hbalanced hdrained
    exact covered_of_inBalance h hbalanced hdrained
  · exact ⟨⟨by decide,by decide,by decide,by decide⟩,by decide⟩

def twoServersRemoved : List Event :=
  [.append workingSetup ⟨2,[]⟩ 2 (some "192.0.2.1"),
    .append workingSetup ⟨2,[]⟩ 2 (some "192.0.2.2"),
    .remove 2 (some "192.0.2.1") .udp,.remove 2 (some "192.0.2.2") .udp,.timer]

theorem twoServersRemoved_leak :
    ¬∀ p ∈ states step initial twoServersRemoved, CacheBalanced p := by
  decide +kernel

end FuzzingTargets.DnsProxy.Servers
