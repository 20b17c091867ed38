import Mathlib.Algebra.Group.Nat.Defs
import Mathlib.Data.List.Basic
import Mathlib.Tactic.Common
import Mathlib.Data.List.Nodup

namespace FuzzingTargets.Connman.IpPool
open List

structure AddressInfo where
  id : Nat
  index : Int
  start : Nat
  stop : Nat
  useCount : Nat
  pool : Option Nat
  deriving DecidableEq

structure Pool where
  id : Nat
  refcount : Nat
  gateway : Nat
  broadcast : Nat
  startIp : Nat
  endIp : Nat
  subnetMask : Nat
  collisionCb : Bool
  deriving DecidableEq

structure State where
  allocatedBlocks : List AddressInfo
  pools : List Pool
  lastBlock : Nat
  nextId : Nat
  deriving DecidableEq

def init : State := ⟨[],[],0,0⟩

def block16Bits : Nat := 0xC0A80000

def block20Bits : Nat := 0xAC100000

def block24Bits : Nat := 0x0A000000

def subnetMask24 : Nat := 0xFFFFFF00

def wrap (n : Nat) : Nat := n % 2 ^ 32

def second (block : Nat) : Nat := block / 2 ^ 16 % 256

def withSecond (block next : Nat) : Nat := block / 2 ^ 24 * 2 ^ 24 + next % 256 * 2 ^ 16

def withThird (block next : Nat) : Nat := block / 2 ^ 16 * 2 ^ 16 + next % 256 * 2 ^ 8

def after20Bits (block : Nat) : Nat :=
  let next := if 16 ≤ second block ∧ second block < 32 then second block + 1 else second block
  if next = 32 then block24Bits else withSecond block next

def after24Bits (block : Nat) : Nat :=
  let next := if second block < 255 then second block + 1 else second block
  if next = 255 then block16Bits else withSecond block next

def nextBlock (block : Nat) : Nat :=
  let next := block / 2 ^ 8 % 256 + 1
  if next = 255 then
    if block / 2 ^ 16 * 2 ^ 16 = block16Bits then block20Bits
    else if block20Bits ≤ block / 2 ^ 16 * 2 ^ 16 then after20Bits block
    else if block / 2 ^ 24 * 2 ^ 24 = block24Bits then after24Bits block
    else withThird block next
  else withThird block next

def AddressInfo.contains (info : AddressInfo) (address : Nat) : Bool :=
  info.start ≤ address ∧ address ≤ info.stop

def scanBlocks (allocated : List AddressInfo) (lastBlock : Nat) : Nat → Nat → Option Nat
  | 0, _ => none
  | fuel + 1, block =>
    if allocated.any fun info => info.contains block then
      if nextBlock block = lastBlock then some 0
      else scanBlocks allocated lastBlock fuel (nextBlock block)
    else some block

def getFreeBlock (fuel : Nat) (s : State) : Option Nat :=
  scanBlocks s.allocatedBlocks s.lastBlock fuel
    (if s.lastBlock = 0 then block16Bits else s.lastBlock)

def lookupInfo (allocated : List AddressInfo) (index : Int) (start : Nat) : Option AddressInfo :=
  allocated.find? fun info => info.index = index ∧ info.start = start

def isPrivateAddress (address : Nat) : Bool :=
  let a := address / 2 ^ 24 % 256
  let b := address / 2 ^ 16 % 256
  a = 10 ∨ (a = 192 ∧ b = 168) ∨ (a = 172 ∧ 16 ≤ b ∧ b ≤ 31)

def netSize (prefixlen : Nat) : Nat := 2 ^ (32 - prefixlen)

def netStart (address prefixlen : Nat) : Nat := address / netSize prefixlen * netSize prefixlen

def netStop (address prefixlen : Nat) : Nat := netStart address prefixlen + netSize prefixlen - 1

def delStart (address prefixlen : Nat) : Nat := netStart address (prefixlen % 32)

def AddressInfo.withCount (id count : Nat) (info : AddressInfo) : AddressInfo :=
  { info with useCount := if info.id = id then count else info.useCount }

def setCount (allocated : List AddressInfo) (id count : Nat) : List AddressInfo :=
  allocated.map (AddressInfo.withCount id count)

variable (s : State) (index : Int)

def collision (info : AddressInfo) : Option Nat := do
  let it ← s.allocatedBlocks.find? fun it => it.id ≠ info.id ∧ it.contains info.start
  let pool ← it.pool
  if s.pools.any fun p => p.id = pool ∧ p.collisionCb then some pool else none

def useInfo (info : AddressInfo) : State × Option Nat :=
  let count := wrap (info.useCount + 1)
  let s' := { s with allocatedBlocks := setCount s.allocatedBlocks info.id count }
  if 1 < count ∨ info.pool.isSome then (s',none) else (s',collision s' info)

def newaddr (address prefixlen : Nat) : State × Option Nat :=
  if isPrivateAddress address then
    match lookupInfo s.allocatedBlocks index (netStart address prefixlen) with
    | some info => useInfo s info
    | none =>
      let info : AddressInfo := {
        id := s.nextId
        index := index
        start := netStart address prefixlen
        stop := netStop address prefixlen
        useCount := 0
        pool := none }
      useInfo { s with
        allocatedBlocks := info :: s.allocatedBlocks
        nextId := s.nextId + 1 } info
  else (s,none)

def removeInfo (allocated : List AddressInfo) (id : Nat) : List AddressInfo :=
  allocated.filter fun info => info.id ≠ id

def deladdr (address prefixlen : Nat) : State :=
  if isPrivateAddress address then
    match lookupInfo s.allocatedBlocks index (delStart address prefixlen) with
    | none => s
    | some info =>
      let count := wrap (info.useCount + (2 ^ 32 - 1))
      if info.pool.isSome ∨ 0 < count then
        { s with allocatedBlocks := setCount s.allocatedBlocks info.id count }
      else { s with allocatedBlocks := removeInfo s.allocatedBlocks info.id }
  else s

def unref (pool : Nat) : State :=
  match s.pools.find? fun p => p.id = pool with
  | none => s
  | some p =>
    if p.refcount = 1 then
      { s with
        allocatedBlocks := removeInfo s.allocatedBlocks pool
        pools := s.pools.filter fun q => q.id ≠ pool }
    else
      { s with
        pools := s.pools.map fun q => { q with
          refcount := if q.id = pool then wrap (q.refcount + (2 ^ 32 - 1)) else q.refcount } }

def newPool (id block start range : Nat) (collisionCb : Bool) : Pool where
  id := id
  refcount := 1
  gateway := wrap (block + 1)
  broadcast := wrap (block + 255)
  startIp := wrap (block + start)
  endIp := wrap (block + start + if range = 0 then 1 else range)
  subnetMask := subnetMask24
  collisionCb := collisionCb

def poolInfo (id : Nat) (index : Int) (block range : Nat) : AddressInfo where
  id := id
  index := index
  start := block
  stop := wrap (block + range)
  useCount := 0
  pool := some id

def placePool (block start range : Nat) (collisionCb : Bool) : State × Pool :=
  let pool := newPool s.nextId block start range collisionCb
  ({ allocatedBlocks := poolInfo s.nextId index block range :: s.allocatedBlocks
     pools := pool :: s.pools
     lastBlock := block
     nextId := s.nextId + 1 },pool)

def create (fuel : Nat) (s : State) (index : Int) (start range : Nat) (collisionCb : Bool) :
    Option (State × Option Pool) :=
  if 254 < wrap (start + range) then some (s,none)
  else
    match getFreeBlock fuel s with
    | none => none
    | some 0 => some (s,none)
    | some block =>
      let placed := placePool s index block start range collisionCb
      some (placed.1,some placed.2)

variable {block : Nat}

section

theorem nextBlock_aligned (h : block < 2 ^ 32) :
    nextBlock block % 256 = 0 ∧ nextBlock block < 2 ^ 32 := by
  have hsecond : ∀ next, withSecond block next % 256 = 0 ∧ withSecond block next < 2 ^ 32 := by
    intro next
    unfold withSecond
    omega
  have hthird : ∀ next, withThird block next % 256 = 0 ∧ withThird block next < 2 ^ 32 := by
    intro next
    unfold withThird
    omega
  have h20 : after20Bits block % 256 = 0 ∧ after20Bits block < 2 ^ 32 := by
    unfold after20Bits
    dsimp only
    split
    · split
      · decide
      · exact hsecond _
    · split
      · decide
      · exact hsecond _
  have h24 : after24Bits block % 256 = 0 ∧ after24Bits block < 2 ^ 32 := by
    unfold after24Bits
    dsimp only
    split
    · split
      · decide
      · exact hsecond _
    · split
      · decide
      · exact hsecond _
  unfold nextBlock
  dsimp only
  split
  · split
    · decide
    split
    · exact h20
    · split
      · exact h24
      · exact hthird _
  · exact hthird _

theorem scanBlocks_free {allocated : List AddressInfo} {lastBlock fuel : Nat} :
    ∀ {block found : Nat}, block % 256 = 0 → block < 2 ^ 32 →
      scanBlocks allocated lastBlock fuel block = some found → found ≠ 0 →
      found % 256 = 0 ∧ found < 2 ^ 32 ∧ ∀ i ∈ allocated, i.contains found = false := by
  induction fuel with
  | zero =>
    intro block found _ _ hscan
    cases hscan
  | succ fuel ih =>
    intro block found haligned hlt hscan hfound
    rw [scanBlocks] at hscan
    split at hscan
    · split at hscan
      · cases hscan
        exact absurd rfl hfound
      · obtain ⟨hnext,hnextlt⟩ := nextBlock_aligned hlt
        exact ih hnext hnextlt hscan hfound
    rename_i hfree
    cases hscan
    refine ⟨haligned,hlt,?_⟩
    intro i hi
    exact Bool.eq_false_iff.mpr fun hc => hfree (any_eq_true.mpr ⟨i,hi,hc⟩)

theorem getFreeBlock_free {s : State} {fuel found : Nat} (haligned : s.lastBlock % 256 = 0)
    (hlt : s.lastBlock < 2 ^ 32) (h : getFreeBlock fuel s = some found) (hfound : found ≠ 0) :
    found % 256 = 0 ∧ found < 2 ^ 32 ∧ ∀ i ∈ s.allocatedBlocks, i.contains found = false := by
  unfold getFreeBlock at h
  split at h
  · exact scanBlocks_free (by decide) (by decide) h hfound
  · exact scanBlocks_free haligned hlt h hfound

theorem create_cases {s s' : State} {fuel start range : Nat} {index : Int} {cb : Bool}
    {pool : Option Pool} (h : create fuel s index start range cb = some (s',pool)) :
    (s' = s ∧ pool = none) ∨ ∃ block, getFreeBlock fuel s = some block ∧ block ≠ 0 ∧
      s' = (placePool s index block start range cb).1 ∧
      pool = some (placePool s index block start range cb).2 := by
  unfold create at h
  split at h
  · cases h
    exact .inl ⟨rfl,rfl⟩
  split at h
  · cases h
  · cases h
    exact .inl ⟨rfl,rfl⟩
  · rename_i block hzero hblock
    cases h
    exact .inr ⟨block,hblock,hzero,rfl,rfl⟩

end

def AddressInfo.key (info : AddressInfo) : Int × Nat := (info.index,info.start)

structure Keeps (i : AddressInfo) (q : Pool) : Prop where
  id : i.id = q.id
  pool : i.pool = some q.id
  aligned : i.start % 256 = 0
  startIp : i.start ≤ q.startIp
  endIp : q.endIp ≤ i.start + 255

structure Base : Prop where
  ids : (s.allocatedBlocks.map AddressInfo.id).Nodup
  keys : (s.allocatedBlocks.map AddressInfo.key).Nodup
  fresh : ∀ i ∈ s.allocatedBlocks, i.id < s.nextId
  ordered : ∀ i ∈ s.allocatedBlocks, i.start ≤ i.stop
  bounded : ∀ i ∈ s.allocatedBlocks, i.useCount < 2 ^ 32
  recorded : ∀ q ∈ s.pools, ∃ i ∈ s.allocatedBlocks, Keeps i q
  lastAligned : s.lastBlock % 256 = 0
  lastBound : s.lastBlock < 2 ^ 32

section

variable {s : State} {info i j : AddressInfo} {id count : Nat}

theorem base_init : Base init :=
  ⟨.nil,.nil,nofun,nofun,nofun,nofun,rfl,by decide⟩

theorem Base.same_id (hb : Base s) (hi : i ∈ s.allocatedBlocks) (hj : j ∈ s.allocatedBlocks)
    (h : i.id = j.id) : i = j := inj_on_of_nodup_map hb.ids hi hj h

theorem Base.same_key (hb : Base s) (hi : i ∈ s.allocatedBlocks) (hj : j ∈ s.allocatedBlocks)
    (hindex : i.index = j.index) (hstart : i.start = j.start) : i = j :=
  inj_on_of_nodup_map hb.keys hi hj (Prod.ext hindex hstart)

theorem mem_setCount {l : List AddressInfo} :
    j ∈ setCount l id count ↔ ∃ i ∈ l, i.withCount id count = j := mem_map

theorem mem_removeInfo {l : List AddressInfo} : j ∈ removeInfo l id ↔ j ∈ l ∧ j.id ≠ id := by
  rw [removeInfo,mem_filter,decide_eq_true_iff]

theorem wrap_lt (n : Nat) : wrap n < 2 ^ 32 := Nat.mod_lt n (by decide)

theorem Base.setCount (hb : Base s) (id : Nat) (hcount : count < 2 ^ 32) :
    Base { s with allocatedBlocks := setCount s.allocatedBlocks id count } where
  ids := by
    rw [IpPool.setCount,map_map]
    exact hb.ids
  keys := by
    rw [IpPool.setCount,map_map]
    exact hb.keys
  fresh := by
    intro j hj
    obtain ⟨i,hi,rfl⟩ := mem_setCount.mp hj
    exact hb.fresh i hi
  ordered := by
    intro j hj
    obtain ⟨i,hi,rfl⟩ := mem_setCount.mp hj
    exact hb.ordered i hi
  bounded := by
    intro j hj
    obtain ⟨i,hi,rfl⟩ := mem_setCount.mp hj
    change (if i.id = id then count else i.useCount) < 2 ^ 32
    split
    · exact hcount
    · exact hb.bounded i hi
  recorded := by
    intro q hq
    obtain ⟨i,hi,hk⟩ := hb.recorded q hq
    exact ⟨i.withCount id count,mem_setCount.mpr ⟨i,hi,rfl⟩,⟨hk.1,hk.2,hk.3,hk.4,hk.5⟩⟩
  lastAligned := hb.lastAligned
  lastBound := hb.lastBound

theorem Base.removeInfo (hb : Base s) {pools : List Pool} (hsub : ∀ q ∈ pools, q ∈ s.pools)
    (hkept : ∀ q ∈ pools, q.id ≠ id) :
    Base { s with allocatedBlocks := removeInfo s.allocatedBlocks id, pools := pools } where
  ids := hb.ids.sublist (List.filter_sublist.map _)
  keys := hb.keys.sublist (List.filter_sublist.map _)
  fresh := fun j hj => hb.fresh j (mem_removeInfo.mp hj).1
  ordered := fun j hj => hb.ordered j (mem_removeInfo.mp hj).1
  bounded := fun j hj => hb.bounded j (mem_removeInfo.mp hj).1
  recorded := by
    intro q hq
    obtain ⟨i,hi,hk⟩ := hb.recorded q (hsub q hq)
    refine ⟨i,mem_removeInfo.mpr ⟨hi,?_⟩,hk⟩
    rw [hk.id]
    exact hkept q hq
  lastAligned := hb.lastAligned
  lastBound := hb.lastBound

theorem Base.addInfo (hb : Base s) (hid : info.id = s.nextId) (hle : info.start ≤ info.stop)
    (huse : info.useCount = 0)
    (hkey : ∀ i ∈ s.allocatedBlocks, i.index = info.index → i.start ≠ info.start) :
    Base { s with allocatedBlocks := info :: s.allocatedBlocks, nextId := s.nextId + 1 } where
  ids := by
    refine nodup_cons.mpr ⟨?_,hb.ids⟩
    intro hmem
    obtain ⟨i,hi,heq⟩ := mem_map.mp hmem
    have hlt := hb.fresh i hi
    omega
  keys := by
    refine nodup_cons.mpr ⟨?_,hb.keys⟩
    intro hmem
    obtain ⟨i,hi,heq⟩ := mem_map.mp hmem
    exact hkey i hi (congrArg Prod.fst heq) (congrArg Prod.snd heq)
  fresh := by
    intro i hi
    rcases mem_cons.mp hi with rfl | hi
    · exact hid ▸ Nat.lt_succ_self _
    · exact Nat.lt_succ_of_lt (hb.fresh i hi)
  ordered := by
    intro i hi
    rcases mem_cons.mp hi with rfl | hi
    · exact hle
    · exact hb.ordered i hi
  bounded := by
    intro i hi
    rcases mem_cons.mp hi with rfl | hi
    · rw [huse]
      decide
    · exact hb.bounded i hi
  recorded := by
    intro q hq
    obtain ⟨i,hi,hk⟩ := hb.recorded q hq
    exact ⟨i,mem_cons_of_mem info hi,hk⟩
  lastAligned := hb.lastAligned
  lastBound := hb.lastBound

end

section

variable {s s' : State} {index : Int} {address prefixlen start range fuel : Nat} {cb : Bool}
  {info : AddressInfo}

theorem lookupInfo_some (h : lookupInfo s.allocatedBlocks index start = some info) :
    info ∈ s.allocatedBlocks ∧ info.index = index ∧ info.start = start :=
  ⟨mem_of_find?_eq_some h,by simpa using find?_some h⟩

theorem lookupInfo_none (h : lookupInfo s.allocatedBlocks index start = none) :
    ∀ i ∈ s.allocatedBlocks, i.index = index → i.start ≠ start := by
  intro i hi hindex hstart
  have hno := find?_eq_none.mp h i hi
  simp only [hindex,hstart,and_self,decide_true,not_true_eq_false] at hno

theorem netStart_le_netStop (address prefixlen : Nat) :
    netStart address prefixlen ≤ netStop address prefixlen := by
  have hpos : 0 < netSize prefixlen := Nat.pow_pos (by decide)
  unfold netStop
  omega

def freshInfo (s : State) (index : Int) (address prefixlen : Nat) : AddressInfo where
  id := s.nextId
  index := index
  start := netStart address prefixlen
  stop := netStop address prefixlen
  useCount := 0
  pool := none

def withInfo (s : State) (info : AddressInfo) : State :=
  { s with allocatedBlocks := info :: s.allocatedBlocks, nextId := s.nextId + 1 }

theorem useInfo_state (s : State) (info : AddressInfo) :
    (useInfo s info).1 =
      { s with allocatedBlocks := setCount s.allocatedBlocks info.id (wrap (info.useCount + 1)) } := by
  unfold useInfo
  dsimp only
  split <;> rfl

theorem newaddr_cases (s : State) (index : Int) (address prefixlen : Nat) :
    (isPrivateAddress address = false ∧ newaddr s index address prefixlen = (s,none)) ∨
    (isPrivateAddress address = true ∧
      ∃ info, lookupInfo s.allocatedBlocks index (netStart address prefixlen) = some info ∧
        newaddr s index address prefixlen = useInfo s info) ∨ (isPrivateAddress address = true ∧
      lookupInfo s.allocatedBlocks index (netStart address prefixlen) = none ∧
      newaddr s index address prefixlen = useInfo (withInfo s (freshInfo s index address prefixlen))
          (freshInfo s index address prefixlen)) := by
  cases hp : isPrivateAddress address with
  | false => exact .inl ⟨rfl,by rw [newaddr,hp]; rfl⟩
  | true =>
    cases hl : lookupInfo s.allocatedBlocks index (netStart address prefixlen) with
    | some info => exact .inr (.inl ⟨rfl,info,rfl,by rw [newaddr,if_pos hp,hl]⟩)
    | none => exact .inr (.inr ⟨rfl,rfl,by rw [newaddr,if_pos hp,hl]; rfl⟩)

theorem deladdr_cases (s : State) (index : Int) (address prefixlen : Nat) :
    (isPrivateAddress address = false ∧ deladdr s index address prefixlen = s) ∨
    (isPrivateAddress address = true ∧
      lookupInfo s.allocatedBlocks index (delStart address prefixlen) = none ∧
      deladdr s index address prefixlen = s) ∨
    (isPrivateAddress address = true ∧ ∃ info,
      lookupInfo s.allocatedBlocks index (delStart address prefixlen) = some info ∧
      ((info.pool.isSome ∨ 0 < wrap (info.useCount + (2 ^ 32 - 1))) ∧
          deladdr s index address prefixlen =
            { s with allocatedBlocks :=
                setCount s.allocatedBlocks info.id (wrap (info.useCount + (2 ^ 32 - 1))) } ∨
        (info.pool = none ∧ wrap (info.useCount + (2 ^ 32 - 1)) = 0) ∧
          deladdr s index address prefixlen =
            { s with allocatedBlocks := removeInfo s.allocatedBlocks info.id })) := by
  cases hp : isPrivateAddress address with
  | false => exact .inl ⟨rfl,by rw [deladdr,hp]; rfl⟩
  | true =>
    cases hl : lookupInfo s.allocatedBlocks index (delStart address prefixlen) with
    | none => exact .inr (.inl ⟨rfl,rfl,by rw [deladdr,if_pos hp,hl]⟩)
    | some info =>
      refine .inr (.inr ⟨rfl,info,rfl,?_⟩)
      rw [deladdr,if_pos hp,hl]
      dsimp only
      split
      · rename_i h
        exact .inl ⟨h,rfl⟩
      · rename_i h
        obtain ⟨hpool,hcount⟩ := not_or.mp h
        exact .inr ⟨⟨Option.not_isSome_iff_eq_none.mp hpool,by omega⟩,rfl⟩

theorem unref_cases (s : State) (pool : Nat) :
    unref s pool = s ∨
    ((∃ p ∈ s.pools, p.id = pool) ∧ unref s pool =
      { s with
        allocatedBlocks := removeInfo s.allocatedBlocks pool
        pools := s.pools.filter fun q => q.id ≠ pool }) ∨
    ∃ count : Pool → Nat, unref s pool =
      { s with pools := s.pools.map fun q => { q with refcount := count q } } := by
  unfold unref
  split
  · exact .inl rfl
  rename_i p hp
  split
  · have hid : p.id = pool := by simpa using find?_some hp
    exact .inr (.inl ⟨⟨p,mem_of_find?_eq_some hp,hid⟩,rfl⟩)
  · exact .inr (.inr ⟨fun q => if q.id = pool then wrap (q.refcount + (2 ^ 32 - 1))
      else q.refcount,rfl⟩)

theorem Base.newaddr (hb : Base s) (index : Int) (address prefixlen : Nat) :
    Base (newaddr s index address prefixlen).1 := by
  rcases newaddr_cases s index address prefixlen with ⟨-,h⟩ | ⟨-,info,-,h⟩ | ⟨-,hl,h⟩
  · rw [h]
    exact hb
  · rw [h,useInfo_state]
    exact hb.setCount _ (wrap_lt _)
  rw [h,useInfo_state]
  have hadd : Base (withInfo s (freshInfo s index address prefixlen)) :=
    hb.addInfo rfl (netStart_le_netStop address prefixlen) rfl (lookupInfo_none hl)
  exact hadd.setCount _ (wrap_lt _)

theorem Base.deladdr (hb : Base s) (index : Int) (address prefixlen : Nat) :
    Base (deladdr s index address prefixlen) := by
  rcases deladdr_cases s index address prefixlen with
    ⟨-,h⟩ | ⟨-,-,h⟩ | ⟨-,info,hl,⟨-,h⟩ | ⟨⟨hpool,-⟩,h⟩⟩
  · rw [h]
    exact hb
  · rw [h]
    exact hb
  · rw [h]
    exact hb.setCount _ (wrap_lt _)
  rw [h]
  refine hb.removeInfo (fun q hq => hq) ?_
  intro q hq heq
  obtain ⟨i,hi,hk⟩ := hb.recorded q hq
  have hsame := hb.same_id hi (lookupInfo_some hl).1 (hk.id.trans heq)
  rw [← hsame,hk.pool] at hpool
  cases hpool

theorem Base.unref (hb : Base s) (pool : Nat) : Base (unref s pool) := by
  rcases unref_cases s pool with h | ⟨-,h⟩ | ⟨count,h⟩
  · rw [h]
    exact hb
  · rw [h]
    refine hb.removeInfo (fun q hq => (mem_filter.mp hq).1) ?_
    intro q hq
    simpa using (mem_filter.mp hq).2
  rw [h]
  refine { hb with recorded := ?_ }
  intro q hq
  obtain ⟨q0,hq0,rfl⟩ := mem_map.mp hq
  obtain ⟨i,hi,hk⟩ := hb.recorded q0 hq0
  exact ⟨i,hi,⟨hk.1,hk.2,hk.3,hk.4,hk.5⟩⟩

theorem newPool_kept {id : Nat}
    (haligned : block % 256 = 0) (hlt : block < 2 ^ 32) (hsum : start + range ≤ 254) :
    Keeps (poolInfo id index block range) (newPool id block start range cb) := by
  refine ⟨rfl,rfl,haligned,?_,?_⟩
  · change block ≤ (block + start) % 2 ^ 32
    omega
  · change (block + start + if range = 0 then 1 else range) % 2 ^ 32 ≤ block + 255
    split <;> omega

theorem Base.placePool (hb : Base s) (haligned : block % 256 = 0)
    (hlt : block < 2 ^ 32) (hsum : start + range ≤ 254)
    (hfree : ∀ i ∈ s.allocatedBlocks, i.contains block = false) :
    Base (placePool s index block start range cb).1 := by
  have hle : block ≤ wrap (block + range) := by
    unfold wrap
    omega
  have hkey : ∀ i ∈ s.allocatedBlocks, i.index = index → i.start ≠ block := by
    intro i hi _ heq
    have hin : i.contains block = true := by
      rw [AddressInfo.contains,← heq]
      exact decide_eq_true ⟨Nat.le_refl _,hb.ordered i hi⟩
    rw [hfree i hi] at hin
    cases hin
  have hadd : Base (withInfo s (poolInfo s.nextId index block range)) :=
    hb.addInfo rfl hle rfl hkey
  refine { hadd with recorded := ?_, lastAligned := haligned, lastBound := hlt }
  intro q hq
  rcases mem_cons.mp hq with rfl | hq
  · exact ⟨_,mem_cons_self,newPool_kept haligned hlt hsum⟩
  · exact hadd.recorded q hq

theorem Base.create (hb : Base s) {pool : Option Pool} (hsum : start + range ≤ 254)
    (h : create fuel s index start range cb = some (s',pool)) : Base s' := by
  rcases create_cases h with ⟨rfl,-⟩ | ⟨block,hblock,hzero,rfl,-⟩
  · exact hb
  · obtain ⟨haligned,hlt,hfree⟩ := getFreeBlock_free hb.lastAligned hb.lastBound hblock hzero
    exact hb.placePool haligned hlt hsum hfree

end

end FuzzingTargets.Connman.IpPool
