import FuzzingTargets.Connman.IpPool.Pools
import FuzzingTargets.Foundation.Runs

namespace FuzzingTargets.Connman.IpPool
open Runs List

structure Network where
  index : Int
  start : Nat
  stop : Nat
  deriving DecidableEq

def network (index : Int) (address prefixlen : Nat) : Network :=
  ⟨index,netStart address prefixlen,netStop address prefixlen⟩

def AddressInfo.network (info : AddressInfo) : Network := ⟨info.index,info.start,info.stop⟩

def Shares (a b c d : Nat) : Prop := ∃ x, (a ≤ x ∧ x ≤ b) ∧ c ≤ x ∧ x ≤ d

def Pool.block (p : Pool) : Nat := p.gateway - 1

structure World where
  state : State
  registered : List Network

def World.init : World := ⟨IpPool.init,[]⟩

inductive Call where
  | create (index : Int) (start range : Nat) (collisionCb : Bool)
  | unref (pool : Nat)
  | newaddr (index : Int) (address prefixlen : Nat)
  | deladdr (index : Int) (address prefixlen : Nat)

variable (w : World) (index : Int)

def register (address prefixlen : Nat) : List Network :=
  if isPrivateAddress address then network index address prefixlen :: w.registered
  else w.registered

def unregister (address prefixlen : Nat) : List Network :=
  if isPrivateAddress address then w.registered.erase (network index address prefixlen)
  else w.registered

def Step : Call → World → Prop
  | .create index start range cb, w' =>
    start + range ≤ 254 ∧ w'.registered = w.registered ∧
      ∃ fuel pool, create fuel w.state index start range cb = some (w'.state,pool)
  | .unref pool, w' => w' = ⟨unref w.state pool,w.registered⟩
  | .newaddr index address prefixlen, w' => address < 2 ^ 32 ∧
    w' = ⟨(newaddr w.state index address prefixlen).1,register w index address prefixlen⟩
  | .deladdr index address prefixlen, w' => address < 2 ^ 32 ∧
    w' = ⟨deladdr w.state index address prefixlen,unregister w index address prefixlen⟩

def Announced (s : State) (n : Network) (q : Pool) : Prop :=
  q.collisionCb = true ∧ ∀ i ∈ s.allocatedBlocks, i.contains n.start = true ↔ i.id = q.id

def SamePrefix (s : State) (n : Network) : Prop :=
  ∀ i ∈ s.allocatedBlocks, i.index = n.index → i.start = n.start →
    i.pool = none ∧ i.stop = n.stop ∧ i.useCount + 1 < 2 ^ 32

def Regular : Call → Prop
  | .create _ _ _ _ => True
  | .unref _ => True
  | .newaddr index address prefixlen => isPrivateAddress address = true →
    netStart address prefixlen % 256 = 0 ∧
    SamePrefix w.state (network index address prefixlen) ∧
    (network index address prefixlen ∉ w.registered → ∀ q ∈ w.state.pools,
      Shares (netStart address prefixlen) (netStop address prefixlen) q.startIp q.endIp →
      Announced w.state (network index address prefixlen) q)
  | .deladdr index address prefixlen => prefixlen < 32 ∧
    ∀ i ∈ w.state.allocatedBlocks, i.index = index → i.start = netStart address prefixlen →
      i.pool = none → i.stop = netStop address prefixlen

def Settled (n : Network) : Prop :=
  ∀ block, block % 256 = 0 → Shares block (block + 255) n.start n.stop →
    n.start ≤ block ∧ block ≤ n.stop

structure Tracked : Prop where
  counts : ∀ i ∈ w.state.allocatedBlocks, i.pool = none →
    i.useCount = w.registered.count i.network ∧ 0 < i.useCount
  known : ∀ n ∈ w.registered, ∃ i ∈ w.state.allocatedBlocks, i.pool = none ∧ i.network = n
  settled : ∀ n ∈ w.registered, Settled n

theorem network_settled {index : Int} {address prefixlen : Nat}
    (h : netStart address prefixlen % 256 = 0) : Settled (network index address prefixlen) := by
  rintro block hblock ⟨x,⟨hlo,hhi⟩,hstart,hstop⟩
  change netStart address prefixlen ≤ x at hstart
  change x ≤ netStart address prefixlen + netSize prefixlen - 1 at hstop
  change netStart address prefixlen ≤ block ∧
    block ≤ netStart address prefixlen + netSize prefixlen - 1
  rcases Nat.le_or_ge (netSize prefixlen) 256 with hsmall | hlarge
  · omega
  have hdvd : 256 ∣ netSize prefixlen := by
    have hexp : 8 ≤ 32 - prefixlen := by
      by_contra hlt
      have hle : netSize prefixlen ≤ 2 ^ 7 := Nat.pow_le_pow_right (by decide) (by omega)
      omega
    exact Nat.pow_dvd_pow 2 hexp
  omega

section

variable {w : World} {s s' : State} {index : Int} {address prefixlen start range fuel : Nat}
  {cb : Bool} {info i : AddressInfo}

theorem Tracked.network_unrecorded (ht : Tracked w) {n : Network}
    (h : ∀ i ∈ w.state.allocatedBlocks, i.index = n.index → i.start ≠ n.start) :
    n ∉ w.registered := by
  intro hn
  obtain ⟨i,hi,-,rfl⟩ := ht.known n hn
  exact h i hi rfl rfl

theorem Tracked.network_of_pool (ht : Tracked w) (hb : Base w.state)
    (hi : i ∈ w.state.allocatedBlocks) (hpool : i.pool ≠ none) {n : Network}
    (hindex : i.index = n.index) (hstart : i.start = n.start) : n ∉ w.registered := by
  intro hn
  obtain ⟨j,hj,hnone,rfl⟩ := ht.known n hn
  exact hpool (hb.same_key hi hj hindex hstart ▸ hnone)

structure TrackedBut (info : AddressInfo) (w : World) : Prop where
  counts : ∀ i ∈ w.state.allocatedBlocks, i ≠ info → i.pool = none →
    i.useCount = w.registered.count i.network ∧ 0 < i.useCount
  known : ∀ n ∈ w.registered, n ≠ info.network →
    ∃ i ∈ w.state.allocatedBlocks, i.pool = none ∧ i.network = n
  settled : ∀ n ∈ w.registered, n ≠ info.network → Settled n

theorem Tracked.but (ht : Tracked w) (info : AddressInfo) : TrackedBut info w :=
  ⟨fun i hi _ => ht.counts i hi,fun n hn _ => ht.known n hn,fun n hn _ => ht.settled n hn⟩

theorem Tracked.but_fresh (ht : Tracked w) (info : AddressInfo) :
    TrackedBut info ⟨withInfo w.state info,w.registered⟩ where
  counts := by
    intro i hi hne
    rcases mem_cons.mp hi with heq | hi
    · exact absurd heq hne
    · exact ht.counts i hi
  known := by
    intro n hn _
    obtain ⟨i,hi,hnet⟩ := ht.known n hn
    exact ⟨i,mem_cons_of_mem info hi,hnet⟩
  settled := fun n hn _ => ht.settled n hn

theorem withCount_other {id count : Nat} (h : i.id ≠ id) : i.withCount id count = i := by
  rw [AddressInfo.withCount,if_neg h]

theorem Base.network_ne (hb : Base s) (hi : i ∈ s.allocatedBlocks)
    (hinfo : info ∈ s.allocatedBlocks) (hid : i.id ≠ info.id) : i.network ≠ info.network := by
  intro hnet
  have hsame := hb.same_key hi hinfo (congrArg Network.index hnet) (congrArg Network.start hnet)
  exact hid (congrArg AddressInfo.id hsame)

variable {registered : List Network} {count : Nat}

theorem TrackedBut.recount (ht : TrackedBut info w) (hb : Base w.state)
    (hinfo : info ∈ w.state.allocatedBlocks) (hpool : info.pool = none)
    (hcount : count = registered.count info.network) (hpos : 0 < count)
    (hother : ∀ n ≠ info.network, registered.count n = w.registered.count n)
    (hsettled : Settled info.network) :
    Tracked ⟨{ w.state with
      allocatedBlocks := setCount w.state.allocatedBlocks info.id count },registered⟩ where
  counts := by
    intro j hj hnone
    obtain ⟨i,hi,rfl⟩ := mem_setCount.mp hj
    by_cases hid : i.id = info.id
    · have hsame := hb.same_id hi hinfo hid
      subst hsame
      rw [AddressInfo.withCount,if_pos rfl]
      exact ⟨hcount,hpos⟩
    · rw [withCount_other hid] at hnone ⊢
      rw [hother i.network (hb.network_ne hi hinfo hid)]
      exact ht.counts i hi (fun heq => hid (congrArg AddressInfo.id heq)) hnone
  known := by
    intro n hn
    by_cases heq : n = info.network
    · exact ⟨info.withCount info.id count,mem_setCount.mpr ⟨info,hinfo,rfl⟩,hpool,heq.symm⟩
    have hold : n ∈ w.registered := by
      rw [← count_pos_iff,← hother n heq,count_pos_iff]
      exact hn
    obtain ⟨i,hi,hnone,hnet⟩ := ht.known n hold heq
    exact ⟨i.withCount info.id count,mem_setCount.mpr ⟨i,hi,rfl⟩,hnone,hnet⟩
  settled := by
    intro n hn
    by_cases heq : n = info.network
    · rw [heq]
      exact hsettled
    · refine ht.settled n ?_ heq
      rw [← count_pos_iff,← hother n heq,count_pos_iff]
      exact hn

section

variable (ht : Tracked w) (hb : Base w.state)
include ht hb

theorem Tracked.drop (hinfo : info ∈ w.state.allocatedBlocks) (hgone : info.network ∉ registered)
    (hother : ∀ n ≠ info.network, registered.count n = w.registered.count n) :
    Tracked ⟨{ w.state with
      allocatedBlocks := removeInfo w.state.allocatedBlocks info.id },registered⟩ := by
  have hold : ∀ n ∈ registered, n ≠ info.network ∧ n ∈ w.registered := by
    intro n hn
    have hne : n ≠ info.network := fun heq => hgone (heq ▸ hn)
    refine ⟨hne,?_⟩
    rw [← count_pos_iff,← hother n hne,count_pos_iff]
    exact hn
  refine ⟨?_,?_,?_⟩
  · intro i hi hnone
    obtain ⟨hmem,hid⟩ := mem_removeInfo.mp hi
    rw [hother i.network (hb.network_ne hmem hinfo hid)]
    exact ht.counts i hmem hnone
  · intro n hn
    obtain ⟨hne,hmem⟩ := hold n hn
    obtain ⟨i,hi,hnone,rfl⟩ := ht.known n hmem
    refine ⟨i,mem_removeInfo.mpr ⟨hi,?_⟩,hnone,rfl⟩
    intro hid
    exact hne (congrArg AddressInfo.network (hb.same_id hi hinfo hid))
  · intro n hn
    exact ht.settled n (hold n hn).2

theorem Tracked.forget_pool {pool : Nat} {pools : List Pool}
    (hpool : ∃ p ∈ w.state.pools, p.id = pool) :
    Tracked ⟨{ w.state with
      allocatedBlocks := removeInfo w.state.allocatedBlocks pool, pools := pools },
      w.registered⟩ := by
  obtain ⟨p,hp,rfl⟩ := hpool
  obtain ⟨j,hj,hk⟩ := hb.recorded p hp
  refine ⟨?_,?_,ht.settled⟩
  · intro i hi hnone
    exact ht.counts i (mem_removeInfo.mp hi).1 hnone
  intro n hn
  obtain ⟨i,hi,hnone,hnet⟩ := ht.known n hn
  refine ⟨i,mem_removeInfo.mpr ⟨hi,?_⟩,hnone,hnet⟩
  intro hid
  have hsame := hb.same_id hi hj (hid.trans hk.id.symm)
  rw [hsame,hk.pool] at hnone
  cases hnone

theorem Tracked.recount_pool (hinfo : info ∈ w.state.allocatedBlocks) (hpool : info.pool ≠ none)
    (count : Nat) :
    Tracked ⟨{ w.state with
      allocatedBlocks := setCount w.state.allocatedBlocks info.id count },w.registered⟩ := by
  have hother : ∀ i ∈ w.state.allocatedBlocks, i.pool = none → i.withCount info.id count = i := by
    intro i hi hnone
    apply withCount_other
    intro hid
    exact hpool (hb.same_id hi hinfo hid ▸ hnone)
  refine ⟨?_,?_,ht.settled⟩
  · intro j hj hnone
    obtain ⟨i,hi,rfl⟩ := mem_setCount.mp hj
    rw [hother i hi hnone]
    exact ht.counts i hi hnone
  · intro n hn
    obtain ⟨i,hi,hnone,hnet⟩ := ht.known n hn
    exact ⟨i,mem_setCount.mpr ⟨i,hi,hother i hi hnone⟩,hnone,hnet⟩

theorem Tracked.newaddr (hr : Regular w (.newaddr index address prefixlen)) :
    Tracked ⟨(newaddr w.state index address prefixlen).1,register w index address prefixlen⟩ := by
  rcases newaddr_cases w.state index address prefixlen with
    ⟨hpriv,h⟩ | ⟨hpriv,info,hl,h⟩ | ⟨hpriv,hl,h⟩
  · rw [h,register,hpriv]
    exact ht
  · obtain ⟨haligned, hprefix,-⟩ := hr hpriv
    obtain ⟨hinfo,hindex,hstart⟩ := lookupInfo_some hl
    obtain ⟨hnone,hstop,hlt⟩ := hprefix info hinfo hindex hstart
    have hnet : info.network = network index address prefixlen := by
      rw [AddressInfo.network,hindex,hstart,hstop,network]
    have hcount := (ht.counts info hinfo hnone).1
    have hwrap : wrap (info.useCount + 1) = info.useCount + 1 := Nat.mod_eq_of_lt hlt
    rw [h,useInfo_state,register,if_pos hpriv,hwrap,← hnet]
    refine (ht.but info).recount hb hinfo hnone ?_ (Nat.succ_pos _) ?_ ?_
    · rw [count_cons_self,hcount]
    · intro n hne
      exact count_cons_of_ne (Ne.symm hne)
    · rw [hnet]
      exact network_settled haligned
  obtain ⟨haligned,-,-⟩ := hr hpriv
  have hunknown : network index address prefixlen ∉ w.registered :=
    ht.network_unrecorded (lookupInfo_none hl)
  have hadd : Base (withInfo w.state (freshInfo w.state index address prefixlen)) :=
    hb.addInfo rfl (netStart_le_netStop address prefixlen) rfl (lookupInfo_none hl)
  rw [h,useInfo_state,register,if_pos hpriv]
  refine (ht.but_fresh _).recount hadd mem_cons_self rfl ?_ Nat.one_pos ?_ ?_
  · change 1 = List.count (network index address prefixlen) _
    rw [count_cons_self,count_eq_zero_of_not_mem hunknown]
  · intro n hne
    exact count_cons_of_ne (Ne.symm hne)
  · exact network_settled haligned

theorem Tracked.deladdr (hr : Regular w (.deladdr index address prefixlen)) :
    Tracked ⟨deladdr w.state index address prefixlen,unregister w index address prefixlen⟩ := by
  obtain ⟨hlt,hstops⟩ := hr
  have hdel : delStart address prefixlen = netStart address prefixlen := by
    rw [delStart,Nat.mod_eq_of_lt hlt]
  rcases deladdr_cases w.state index address prefixlen with
    ⟨hpriv,h⟩ | ⟨hpriv,hl,h⟩ | ⟨hpriv,info,hl,hcase⟩
  · rw [h,unregister,hpriv]
    exact ht
  · rw [hdel] at hl
    have hunknown : network index address prefixlen ∉ w.registered :=
      ht.network_unrecorded (lookupInfo_none hl)
    rw [h,unregister,if_pos hpriv,erase_of_not_mem hunknown]
    exact ht
  rw [hdel] at hl
  obtain ⟨hinfo,hindex,hstart⟩ := lookupInfo_some hl
  by_cases hpool : info.pool = none
  · have hnet : info.network = network index address prefixlen := by
      rw [AddressInfo.network,hindex,hstart,hstops info hinfo hindex hstart hpool,network]
    obtain ⟨hcount,hpos⟩ := ht.counts info hinfo hpool
    have hother : ∀ n ≠ info.network,
        (w.registered.erase info.network).count n = w.registered.count n :=
      fun n hne => count_erase_of_ne hne
    have hself : (w.registered.erase info.network).count info.network = info.useCount - 1 := by
      rw [count_erase_self,hcount]
    have hwrap : wrap (info.useCount + (2 ^ 32 - 1)) = info.useCount - 1 := by
      have hbound := hb.bounded info hinfo
      unfold wrap
      omega
    rw [hwrap,hpool] at hcase
    rw [unregister,if_pos hpriv,← hnet]
    rcases hcase with ⟨hpool' | hleft,h⟩ | ⟨⟨-,hgone⟩,h⟩
    · cases hpool'
    · rw [h]
      exact (ht.but info).recount hb hinfo hpool hself.symm hleft hother
        (ht.settled _ (count_pos_iff.mp (hcount ▸ hpos)))
    · rw [h]
      exact ht.drop hb hinfo (count_eq_zero.mp (hself.trans hgone)) hother
  have hunknown : network index address prefixlen ∉ w.registered :=
    ht.network_of_pool hb hinfo hpool hindex hstart
  rw [unregister,if_pos hpriv,erase_of_not_mem hunknown]
  rcases hcase with ⟨-,h⟩ | ⟨⟨hnone,-⟩,-⟩
  · rw [h]
    exact ht.recount_pool hb hinfo hpool _
  · exact absurd hnone hpool

theorem Tracked.unref (pool : Nat) : Tracked ⟨unref w.state pool,w.registered⟩ := by
  rcases unref_cases w.state pool with h | ⟨hpool,h⟩ | ⟨count,h⟩
  · rw [h]
    exact ht
  · rw [h]
    exact ht.forget_pool hb hpool
  · rw [h]
    exact ⟨ht.counts,ht.known,ht.settled⟩

end

theorem Tracked.create (ht : Tracked w) {pool : Option Pool}
    (h : create fuel w.state index start range cb = some (s',pool)) :
    Tracked ⟨s',w.registered⟩ := by
  rcases create_cases h with ⟨rfl,-⟩ | ⟨block,-,-,rfl,-⟩
  · exact ht
  refine ⟨?_,?_,ht.settled⟩
  · intro i hi hnone
    rcases mem_cons.mp hi with rfl | hi
    · cases hnone
    · exact ht.counts i hi hnone
  · intro n hn
    obtain ⟨i,hi,hnet⟩ := ht.known n hn
    exact ⟨i,.tail _ hi,hnet⟩

end

section

variable {w w' : World} {c : Call}

theorem step_base (hb : Base w.state) (h : Step w c w') : Base w'.state := by
  cases c with
  | create index start range cb =>
    obtain ⟨hsum,-,fuel,pool,hcreate⟩ := h
    exact hb.create hsum hcreate
  | unref pool =>
    cases h
    exact hb.unref pool
  | newaddr index address prefixlen =>
    obtain ⟨-,rfl⟩ := h
    exact hb.newaddr index address prefixlen
  | deladdr index address prefixlen =>
    obtain ⟨-,rfl⟩ := h
    exact hb.deladdr index address prefixlen

theorem step_tracked (hb : Base w.state) (ht : Tracked w) (hr : Regular w c) (h : Step w c w') :
    Tracked w' := by
  cases c with
  | create index start range cb =>
    obtain ⟨-,hreg,fuel,pool,hcreate⟩ := h
    have hnext := ht.create hcreate
    rw [← hreg] at hnext
    exact hnext
  | unref pool =>
    cases h
    exact ht.unref hb pool
  | newaddr index address prefixlen =>
    obtain ⟨-,rfl⟩ := h
    exact ht.newaddr hb hr
  | deladdr index address prefixlen =>
    obtain ⟨-,rfl⟩ := h
    exact ht.deladdr hb hr

def World.Based (w : World) : Prop := Base w.state

structure World.Sound (w : World) : Prop where
  base : Base w.state
  tracked : Tracked w

theorem reach_based (hw : Reach World.init Step w) : w.Based := by
  have hinit : World.init.Based := base_init
  refine reach_invariant hinit ?_ hw
  intro v c v' hb hstep
  exact step_base hb hstep

theorem reach_sound (hw : Reach World.init (Guarded Regular Step) w) : w.Sound := by
  refine reach_invariant ⟨base_init,nofun,nofun,nofun⟩ ?_ hw
  rintro v c v' ⟨hb,ht⟩ ⟨hr,hstep⟩
  exact ⟨step_base hb hstep,step_tracked hb ht hr hstep⟩

end

section

variable {w : World} {s s' : State} {index : Int} {address prefixlen start range fuel : Nat}
  {cb : Bool} {p q : Pool}

theorem create_block (hb : Base s) (h : create fuel s index start range cb = some (s',some p)) :
    p.block % 256 = 0 ∧ ∀ i ∈ s.allocatedBlocks, i.contains p.block = false := by
  rcases create_cases h with ⟨-,hnone⟩ | ⟨block,hblock,hzero,-,hpool⟩
  · cases hnone
  obtain ⟨haligned,hlt,hfree⟩ := getFreeBlock_free hb.lastAligned hb.lastBound hblock hzero
  cases hpool
  have heq : (placePool s index block start range cb).2.block = block := by
    change (block + 1) % 2 ^ 32 - 1 = block
    omega
  rw [heq]
  exact ⟨haligned,hfree⟩

theorem Base.pools_apart (hb : Base s)
    (h : IpPool.create fuel s index start range cb = some (s',some p)) (hq : q ∈ s.pools) :
    ¬Shares p.block (p.block + 255) q.startIp q.endIp := by
  rintro ⟨x,⟨hlo,hhi⟩,hstart,hend⟩
  obtain ⟨haligned,hfree⟩ := create_block hb h
  obtain ⟨i,hi,hk⟩ := hb.recorded q hq
  have hin : i.contains p.block = true := by
    have heq : i.start = p.block := by
      have h1 := hk.aligned
      have h2 := hk.startIp
      have h3 := hk.endIp
      omega
    rw [AddressInfo.contains,← heq]
    exact decide_eq_true ⟨Nat.le_refl _,hb.ordered i hi⟩
  rw [hfree i hi] at hin
  cases hin

theorem World.Sound.networks_apart (hs : w.Sound)
    (h : create fuel w.state index start range cb = some (s',some p)) {n : Network}
    (hn : n ∈ w.registered) : ¬Shares p.block (p.block + 255) n.start n.stop := by
  intro hshares
  obtain ⟨haligned,hfree⟩ := create_block hs.base h
  have hin := hs.tracked.settled n hn p.block haligned hshares
  obtain ⟨i,hi,-,rfl⟩ := hs.tracked.known n hn
  have hcontains : i.contains p.block = true := decide_eq_true hin
  rw [hfree i hi] at hcontains
  cases hcontains

theorem collision_announced (hb : Base s) {info : AddressInfo} {count : Nat}
    (hid : info.id = s.nextId) (hq : q ∈ s.pools) (hcb : q.collisionCb = true)
    (honly : ∀ i ∈ s.allocatedBlocks, i.contains info.start = true ↔ i.id = q.id) :
    collision { withInfo s info with
      allocatedBlocks := setCount (withInfo s info).allocatedBlocks info.id count } info =
      some q.id := by
  obtain ⟨i,hi,hk⟩ := hb.recorded q hq
  have hfresh := hb.fresh i hi
  have hsome : ((setCount (withInfo s info).allocatedBlocks info.id count).find? fun it =>
      it.id ≠ info.id ∧ it.contains info.start).isSome := by
    rw [find?_isSome]
    refine ⟨i.withCount info.id count,
      mem_setCount.mpr ⟨i,mem_cons_of_mem info hi,rfl⟩,decide_eq_true ⟨?_,?_⟩⟩
    · change i.id ≠ info.id
      omega
    · exact (honly i hi).mpr hk.id
  obtain ⟨it,hit⟩ := Option.isSome_iff_exists.mp hsome
  have hpool : it.pool = some q.id := by
    obtain ⟨j,hj,rfl⟩ := mem_setCount.mp (mem_of_find?_eq_some hit)
    have htest := find?_some hit
    obtain ⟨hne,hin⟩ := of_decide_eq_true htest
    rcases mem_cons.mp hj with rfl | hj
    · exact absurd rfl hne
    · have hsame := hb.same_id hj hi (((honly j hj).mp hin).trans hk.id.symm)
      rw [hsame]
      exact hk.pool
  have hany : (s.pools.any fun p => p.id = q.id ∧ p.collisionCb) = true :=
    any_eq_true.mpr ⟨q,hq,decide_eq_true ⟨rfl,hcb⟩⟩
  have hpools : (withInfo s info).pools = s.pools := rfl
  rw [collision,hit,Option.bind_eq_bind,Option.bind_some,hpool,Option.bind_eq_bind,
    Option.bind_some,hpools,if_pos hany]

theorem World.Sound.announces (hs : w.Sound) (hr : Regular w (.newaddr index address prefixlen))
    (hpriv : isPrivateAddress address = true)
    (hnew : network index address prefixlen ∉ w.registered) (hq : q ∈ w.state.pools)
    (hshares : Shares (netStart address prefixlen) (netStop address prefixlen) q.startIp q.endIp) :
    (newaddr w.state index address prefixlen).2 = some q.id := by
  obtain ⟨-, hprefix,hann⟩ := hr hpriv
  obtain ⟨hcb,honly⟩ := hann hnew q hq hshares
  rcases newaddr_cases w.state index address prefixlen with
    ⟨hpub,-⟩ | ⟨-,info,hl,-⟩ | ⟨-,hl,h⟩
  · rw [hpriv] at hpub
    cases hpub
  · obtain ⟨hinfo,hindex,hstart⟩ := lookupInfo_some hl
    obtain ⟨hnone,hstop,-⟩ := hprefix info hinfo hindex hstart
    have hnet : info.network = network index address prefixlen := by
      rw [AddressInfo.network,hindex,hstart,hstop,network]
    obtain ⟨hcount,hpos⟩ := hs.tracked.counts info hinfo hnone
    rw [hcount,hnet,count_eq_zero_of_not_mem hnew] at hpos
    exact absurd hpos (Nat.lt_irrefl 0)
  · rw [h]
    exact collision_announced hs.base rfl hq hcb honly

end

theorem pools_stay_apart (w : World) :
    (Reach World.init Step w → ∀ fuel index start range cb s' p, start + range ≤ 254 →
      create fuel w.state index start range cb = some (s',some p) →
      ∀ q ∈ w.state.pools, ¬Shares p.block (p.block + 255) q.startIp q.endIp) ∧
    (Reach World.init (Guarded Regular Step) w →
      (∀ fuel index start range cb s' p, start + range ≤ 254 →
        create fuel w.state index start range cb = some (s',some p) →
        ∀ n ∈ w.registered, ¬Shares p.block (p.block + 255) n.start n.stop) ∧
      ∀ index address prefixlen, Regular w (.newaddr index address prefixlen) →
        isPrivateAddress address = true → network index address prefixlen ∉ w.registered →
        ∀ q ∈ w.state.pools,
          Shares (netStart address prefixlen) (netStop address prefixlen) q.startIp q.endIp →
          (newaddr w.state index address prefixlen).2 = some q.id) := by
  refine ⟨?_,fun hw => ⟨?_,?_⟩⟩
  · intro hw fuel index start range cb s' p _ h q hq
    exact (reach_based hw).pools_apart h hq
  · intro fuel index start range cb s' p _ h n hn
    exact (reach_sound hw).networks_apart h hn
  · intro index address prefixlen hr hpriv hnew q hq hshares
    exact (reach_sound hw).announces hr hpriv hnew hq hshares

def tethered : World := ⟨(placePool init 1 block16Bits 100 10 true).1,[]⟩

theorem tethered_reached : Reach World.init (Guarded Regular Step) tethered := by
  have hstep : Step World.init (.create 1 100 10 true) tethered :=
    ⟨by decide,rfl,1,some (placePool init 1 block16Bits 100 10 true).2,by decide⟩
  have hregular : Regular World.init (.create 1 100 10 true) := trivial
  exact .next .start ⟨hregular,hstep⟩

theorem tethered_regular : Regular tethered (.newaddr 7 0xC0A80001 24) := by
  intro _
  refine ⟨by decide,?_,?_⟩
  · intro i hi hindex
    cases mem_singleton.mp hi
    cases hindex
  intro _ q hq _
  cases mem_singleton.mp hq
  refine ⟨rfl,?_⟩
  intro i hi
  cases mem_singleton.mp hi
  decide

theorem tethered_apart :
    (∀ q ∈ tethered.state.pools, ¬Shares 0xC0A80100 0xC0A801FF q.startIp q.endIp) ∧
    (newaddr tethered.state 7 0xC0A80001 24).2 = some 0 := by
  obtain ⟨hpools,hrest⟩ := pools_stay_apart tethered
  obtain ⟨-,hcalled⟩ := hrest tethered_reached
  constructor
  · exact hpools (reach_unguarded tethered_reached) 2 2 1 253 true _
      (newPool 1 0xC0A80100 1 253 true) (by decide) rfl
  · exact hcalled 7 0xC0A80001 24 tethered_regular (by decide) (by decide)
      (newPool 0 block16Bits 100 10 true) mem_cons_self ⟨0xC0A80064,by decide⟩

def upperHalf : World :=
  ⟨(newaddr init 1 0xC0A80081 25).1,[network 1 0xC0A80081 25]⟩

theorem upperHalf_handed_out :
    (∃ s' p, Reach World.init Step upperHalf ∧
      create 1 upperHalf.state 2 1 253 true = some (s',some p) ∧
      ∃ n ∈ upperHalf.registered, Shares p.block (p.block + 255) n.start n.stop) ∧
    (∃ q ∈ tethered.state.pools, Reach World.init Step tethered ∧ tethered.registered = [] ∧
      Shares (netStart 0xC0A80069 32) (netStop 0xC0A80069 32) q.startIp q.endIp ∧
      (newaddr tethered.state 7 0xC0A80069 32).2 = none) := by
  have hstep : Step World.init (.newaddr 1 0xC0A80081 25) upperHalf := ⟨by decide,rfl⟩
  constructor
  · refine ⟨_,newPool 1 block16Bits 1 253 true,.next .start hstep,rfl,
      network 1 0xC0A80081 25,mem_cons_self,0xC0A80080,by decide⟩
  · exact ⟨newPool 0 block16Bits 100 10 true,mem_cons_self,
      reach_unguarded tethered_reached,rfl,⟨0xC0A80069,by decide⟩,by decide⟩

end FuzzingTargets.Connman.IpPool
