import FuzzingTargets.Foundation.TwoIndex
import FuzzingTargets.Connman.Gdhcp.Options
import FuzzingTargets.Foundation.Checked

namespace FuzzingTargets.DhcpServer
open TwoIndex Loads List Checked
open Gdhcp (Request bigEndian)

structure Lease where
  expire : Nat
  nip : Nat
  mac : List UInt8
  deriving DecidableEq

inductive ByteOrder where
  | little
  | big
  deriving DecidableEq

structure Server where
  order : ByteOrder
  startIp : Nat
  endIp : Nat
  serverNip : Nat
  leaseSeconds : Nat
  optionHash : List (UInt8 × Nat)
  leases : Table Nat Lease

def macBcastAddr : List UInt8 := [255,255,255,255,255,255]

def macAnyAddr : List UInt8 := [0,0,0,0,0,0]

def findLeaseByMac (t : Table Nat Lease) (mac : List UInt8) : Option Nat :=
  t.list.find? fun r => (t.heap r).mac = mac

def removeLease (t : Table Nat Lease) (r : Nat) : Table Nat Lease := t.detach r (t.heap r).nip

variable (now : Nat) (s : Server)

def Usable (yiaddr : Nat) (mac : List UInt8) : Prop :=
  yiaddr ≠ 0 ∧ s.startIp ≤ yiaddr ∧ yiaddr ≤ s.endIp ∧ mac ≠ macBcastAddr ∧ mac ≠ macAnyAddr

instance (s : Server) (yiaddr : Nat) (mac : List UInt8) : Decidable (Usable s yiaddr mac) :=
  inferInstanceAs (Decidable (_ ∧ _))

def recycleLease (t : Table Nat Lease) (yiaddr : Nat) (leaseNip leaseMac : Option Nat) :
    Table Nat Lease × Nat :=
  match leaseNip, leaseMac with
  | some leaseNip, none => (t.detach leaseNip yiaddr,leaseNip)
  | some leaseNip, some leaseMac =>
    if leaseNip ≠ leaseMac then (removeLease (t.detach leaseNip yiaddr) leaseMac,leaseNip)
    else (t.detach leaseNip yiaddr,leaseNip)
  | none, some leaseMac => (t.detach leaseMac (t.heap leaseMac).nip,leaseMac)
  | none, none => ({ t with next := t.next + 1 },t.next)

def getLease (yiaddr : Nat) (mac : List UInt8) : Option (Table Nat Lease × Nat) :=
  if Usable s yiaddr mac then
    some (recycleLease s.leases yiaddr (s.leases.hash yiaddr) (findLeaseByMac s.leases mac))
  else none

def compareExpire (lease1 lease2 : Lease) : Int :=
  ((lease2.expire : Int) - lease1.expire).bmod 4294967296

def Precedes (lease1 lease2 : Lease) : Prop := compareExpire lease1 lease2 ≤ 0

instance : DecidableRel Precedes := fun _ _ => inferInstanceAs (Decidable (_ ≤ _))

def addLease (now expire : Nat) (s : Server) (mac : List UInt8) (yiaddr : Nat) : Option Server :=
  match getLease s yiaddr mac with
  | none => none
  | some (t,r) =>
    let expire := if expire = 0 then now + s.leaseSeconds else expire
    some { s with leases := t.attach Precedes r yiaddr ⟨expire,yiaddr,mac⟩ }

def isExpiredLease (lease : Lease) : Bool := lease.expire < now

def findFreeNip (s : Server) : Nat → Nat → Except Stop (Option Nat)
  | 0, _ => .error .hang
  | steps + 1, ip =>
    if s.endIp < ip then .ok none
    else if ip % 256 = 0 ∨ ip % 256 = 255 ∨ (s.leases.hash ip).isSome then
      findFreeNip s steps ((ip + 1) % 4294967296)
    else .ok (some ip)

def oldestNip : Nat :=
  match s.leases.list.getLast? with
  | none => 0
  | some r => if isExpiredLease now (s.leases.heap r) then (s.leases.heap r).nip else 0

def findFreeOrExpiredNip (steps now : Nat) (s : Server) : Except Stop Nat := do
  let free ← findFreeNip s steps s.startIp
  match free with
  | some ip => .ok ip
  | none => .ok (oldestNip now s)

def leaseSetExpire (t : Table Nat Lease) (r expire : Nat) : Table Nat Lease :=
  t.replace Precedes r { t.heap r with expire := expire % 4294967296 }

def checkRequestedNip (requestedNip : Nat) : Bool :=
  if requestedNip = 0 ∨ requestedNip < s.startIp ∨ s.endIp < requestedNip then false
  else
    match s.leases.hash requestedNip with
    | none => true
    | some r => isExpiredLease now (s.leases.heap r)

structure Sound : Prop where
  consistent : s.leases.Consistent Lease.nip Lease.mac
  usable : ∀ l, s.leases.Has l → Usable s l.nip l.mac

def Entered (old new : Table Nat Lease) (lease : Lease) : Prop :=
  ∀ l, new.Has l ↔ l = lease ∨ old.Has l ∧ l.nip ≠ lease.nip ∧ l.mac ≠ lease.mac

section

variable {t : Table Nat Lease} {s : Server} {mac : List UInt8} {r nip : Nat}

theorem findLeaseByMac_some (h : findLeaseByMac t mac = some r) :
    r ∈ t.list ∧ (t.heap r).mac = mac := by
  obtain ⟨hmac,hmem⟩ := And.intro (find?_some h) (mem_of_find?_eq_some h)
  exact ⟨hmem,by simpa using hmac⟩

theorem findLeaseByMac_none : findLeaseByMac t mac = none ↔ ∀ l, t.Has l → l.mac ≠ mac := by
  unfold findLeaseByMac
  rw [find?_eq_none]
  constructor
  · rintro h l ⟨r,hr,rfl⟩ hmac
    exact h r hr (by simpa using hmac)
  · intro h r hr hmac
    exact h _ ⟨r,hr,rfl⟩ (by simpa using hmac)

theorem checkRequestedNip_iff (h : Sound s) {now : Nat} : checkRequestedNip now s nip = true ↔
    (nip ≠ 0 ∧ s.startIp ≤ nip ∧ nip ≤ s.endIp) ∧
      ∀ l, s.leases.Has l → l.nip = nip → l.expire < now := by
  unfold checkRequestedNip
  by_cases hrange : nip = 0 ∨ nip < s.startIp ∨ s.endIp < nip
  · rw [if_pos hrange]
    simp only [Bool.false_eq_true,false_iff]
    rintro ⟨hin,-⟩
    omega
  have hin : nip ≠ 0 ∧ s.startIp ≤ nip ∧ nip ≤ s.endIp := by omega
  rw [if_neg hrange]
  simp only [hin,ne_eq,not_false_eq_true,and_self,true_and]
  cases hhash : s.leases.hash nip with
  | none =>
    simp only [true_iff]
    intro l hl hnip
    exact absurd hnip (h.consistent.hash_none.mp hhash l hl)
  | some r =>
    obtain ⟨hl,hnip⟩ := h.consistent.hash_some hhash
    simp only [isExpiredLease,decide_eq_true_eq]
    constructor
    · intro hexpired l hl' hnip'
      rw [h.consistent.eq_of_key hl' hl (hnip'.trans hnip.symm)]
      exact hexpired
    · intro hall
      exact hall _ hl hnip

theorem findFreeNip_free {steps ip : Nat} (h : findFreeNip s steps ip = .ok (some nip)) :
    s.leases.hash nip = none := by
  induction steps generalizing ip with
  | zero => cases h
  | succ steps ih =>
    unfold findFreeNip at h
    split at h
    · cases h
    split at h
    · exact ih h
    rename_i hfree
    cases h
    simp only [not_or,Option.not_isSome_iff_eq_none] at hfree
    exact hfree.2.2

theorem findFreeNip_full {steps ip : Nat} (h : findFreeNip s steps ip = .ok none) :
    ∀ j, ip ≤ j → j ≤ s.endIp → j % 256 ≠ 0 → j % 256 ≠ 255 → s.leases.hash j ≠ none := by
  induction steps generalizing ip with
  | zero => cases h
  | succ steps ih =>
    unfold findFreeNip at h
    split at h
    · intro j hj hend
      omega
    split at h
    · rename_i htaken
      intro j hj hend hlow hhigh
      rcases Nat.eq_or_lt_of_le hj with rfl | hlt
      · rcases htaken with hzero | hlast | hsome
        · exact absurd hzero hlow
        · exact absurd hlast hhigh
        · exact Option.ne_none_iff_isSome.mpr hsome
      · exact ih h j ((Nat.mod_le _ _).trans hlt) hend hlow hhigh
    · cases h

end

section

variable {t : Table Nat Lease} {s : Server} {mac : List UInt8} {yiaddr r : Nat}

def Cleared (old new : Table Nat Lease) (yiaddr : Nat) (mac : List UInt8) (r : Nat) : Prop :=
  new.Consistent Lease.nip Lease.mac ∧ r ∉ new.list ∧ r < new.next ∧
    ∀ l, new.Has l ↔ old.Has l ∧ l.nip ≠ yiaddr ∧ l.mac ≠ mac

section

variable (h : t.Consistent Lease.nip Lease.mac)
include h

theorem not_mem_detach (k : Nat) : r ∉ (t.detach r k).list := fun hr => (h.nodup.mem_erase_iff.mp hr).1 rfl

theorem cleared_nip (hnip : t.hash yiaddr = some r)
    (hmac : ∀ l, t.Has l → l.mac = mac → l = t.heap r) :
    Cleared t (t.detach r yiaddr) yiaddr mac r := by
  obtain ⟨hr,hkey⟩ := (h.hash_iff yiaddr r).mp hnip
  refine ⟨Table.detach_consistent h hr hkey,not_mem_detach h _,h.fresh r hr,fun l => ?_⟩
  rw [Table.has_detach h hr]
  refine and_congr_right fun hl => ?_
  constructor
  · intro hne
    exact ⟨fun heq => hne (h.eq_of_key hl ⟨r,hr,rfl⟩ (heq.trans hkey.symm)),
      fun heq => hne (hmac l hl heq)⟩
  · rintro ⟨hne,-⟩ rfl
    exact hne hkey

theorem cleared_both (hnip : t.hash yiaddr = some r) {b : Nat} (hb : b ∈ t.list)
    (hmac : (t.heap b).mac = mac) (hne : r ≠ b) :
    Cleared t (removeLease (t.detach r yiaddr) b) yiaddr mac r := by
  obtain ⟨hr,hkey⟩ := (h.hash_iff yiaddr r).mp hnip
  have hdetach := Table.detach_consistent h hr hkey
  have hb' : b ∈ (t.detach r yiaddr).list := h.nodup.mem_erase_iff.mpr ⟨hne.symm,hb⟩
  refine ⟨Table.detach_consistent hdetach hb' rfl,?_,h.fresh r hr,fun l => ?_⟩
  · exact fun hmem => not_mem_detach h yiaddr (mem_of_mem_erase hmem)
  unfold removeLease
  rw [Table.has_detach hdetach hb',Table.has_detach h hr,and_assoc]
  refine and_congr_right fun hl => and_congr ?_ ?_
  · exact not_congr ⟨fun heq => heq ▸ hkey,fun heq =>
      h.eq_of_key hl ⟨r,hr,rfl⟩ (heq.trans hkey.symm)⟩
  · exact not_congr ⟨fun heq => heq ▸ hmac,fun heq =>
      h.eq_of_owner hl ⟨b,hb,rfl⟩ (heq.trans hmac.symm)⟩

theorem cleared_mac (hnip : t.hash yiaddr = none) (hr : r ∈ t.list) (hmac : (t.heap r).mac = mac) :
    Cleared t (t.detach r (t.heap r).nip) yiaddr mac r := by
  refine ⟨Table.detach_consistent h hr rfl,not_mem_detach h _,h.fresh r hr,fun l => ?_⟩
  rw [Table.has_detach h hr]
  refine and_congr_right fun hl => ?_
  constructor
  · intro hne
    exact ⟨h.hash_none.mp hnip l hl,
      fun heq => hne (h.eq_of_owner hl ⟨r,hr,rfl⟩ (heq.trans hmac.symm))⟩
  · rintro ⟨-,hne⟩ rfl
    exact hne hmac

theorem cleared_fresh (hnip : t.hash yiaddr = none) (hmac : findLeaseByMac t mac = none) :
    Cleared t { t with next := t.next + 1 } yiaddr mac t.next := by
  refine ⟨⟨h.nodup,h.hash_iff,h.owners,fun r hr => ?_⟩,?_,Nat.lt_succ_self _,fun l => ?_⟩
  · exact Nat.lt_succ_of_lt (h.fresh r hr)
  · exact fun hmem => absurd (h.fresh _ hmem) (Nat.lt_irrefl _)
  · exact ⟨fun hl => ⟨hl,h.hash_none.mp hnip l hl,findLeaseByMac_none.mp hmac l hl⟩,And.left⟩

theorem recycleLease_cleared :
    Cleared t (recycleLease t yiaddr (t.hash yiaddr) (findLeaseByMac t mac)).1 yiaddr mac
      (recycleLease t yiaddr (t.hash yiaddr) (findLeaseByMac t mac)).2 := by
  unfold recycleLease
  cases hnip : t.hash yiaddr with
  | none =>
    cases hmac : findLeaseByMac t mac with
    | none => exact cleared_fresh h hnip hmac
    | some b =>
      obtain ⟨hb,heq⟩ := findLeaseByMac_some hmac
      exact cleared_mac h hnip hb heq
  | some a =>
    cases hmac : findLeaseByMac t mac with
    | none =>
      exact cleared_nip h hnip fun l hl heq => absurd heq (findLeaseByMac_none.mp hmac l hl)
    | some b =>
      obtain ⟨hb,heq⟩ := findLeaseByMac_some hmac
      dsimp only
      split
      · rename_i hne
        exact cleared_both h hnip hb heq hne
      rename_i hsame
      refine cleared_nip h hnip fun l hl hl' => ?_
      rw [not_not.mp hsame]
      exact h.eq_of_owner hl ⟨b,hb,rfl⟩ (hl'.trans heq.symm)

end

theorem addLease_spec (h : Sound s) (husable : Usable s yiaddr mac) (now expire : Nat) :
    ∃ leases, addLease now expire s mac yiaddr = some { s with leases := leases } ∧
      Sound { s with leases := leases } ∧
      Entered s.leases leases
        ⟨if expire = 0 then now + s.leaseSeconds else expire,yiaddr,mac⟩ := by
  have hcleared := @recycleLease_cleared s.leases mac yiaddr h.consistent
  unfold addLease getLease
  rw [if_pos husable]
  generalize recycleLease s.leases yiaddr (s.leases.hash yiaddr) (findLeaseByMac s.leases mac) =
    recycled at hcleared ⊢
  obtain ⟨t,r⟩ := recycled
  obtain ⟨hconsistent,hr,hlt,hhas⟩ := hcleared
  have hentered : ∀ lease : Lease, lease.nip = yiaddr → lease.mac = mac →
      Entered s.leases (t.attach Precedes r yiaddr lease) lease := by
    rintro lease rfl rfl l
    exact (Table.has_attach hr).trans (or_congr_right (hhas l))
  refine ⟨_,rfl,⟨?_,fun l hl => ?_⟩,hentered _ rfl rfl⟩
  · exact Table.attach_consistent hconsistent hr hlt
      (fun y hy => ((hhas y).mp hy).2.1) (fun y hy => ((hhas y).mp hy).2.2)
  · rcases (hentered _ rfl rfl l).mp hl with rfl | ⟨hl,-⟩
    · exact husable
    · exact h.usable l hl

theorem removeLease_sound (h : Sound s) (hr : r ∈ s.leases.list) :
    Sound { s with leases := removeLease s.leases r } ∧
      ∀ l, (removeLease s.leases r).Has l ↔ s.leases.Has l ∧ l ≠ s.leases.heap r := by
  have hhas : ∀ l, (removeLease s.leases r).Has l ↔ s.leases.Has l ∧ l ≠ s.leases.heap r :=
    fun l => Table.has_detach h.consistent hr
  exact ⟨⟨Table.detach_consistent h.consistent hr rfl,
    fun l hl => h.usable l ((hhas l).mp hl).1⟩,hhas⟩

theorem leaseSetExpire_sound (h : Sound s) (hr : r ∈ s.leases.list) (expire : Nat) :
    Sound { s with leases := leaseSetExpire s.leases r expire } ∧
      ∀ l, (leaseSetExpire s.leases r expire).Has l ↔
        l = { s.leases.heap r with expire := expire % 4294967296 } ∨
          s.leases.Has l ∧ l ≠ s.leases.heap r := by
  have hhas : ∀ l, (leaseSetExpire s.leases r expire).Has l ↔
      l = { s.leases.heap r with expire := expire % 4294967296 } ∨
        s.leases.Has l ∧ l ≠ s.leases.heap r := fun l => Table.has_replace h.consistent hr
  refine ⟨⟨Table.replace_consistent h.consistent hr rfl rfl,fun l hl => ?_⟩,hhas⟩
  rcases (hhas l).mp hl with rfl | ⟨hl,-⟩
  · have husable := h.usable (s.leases.heap r) ⟨r,hr,rfl⟩
    exact husable
  · exact h.usable l hl

end

def offerTime : Nat := 300

inductive Destination where
  | broadcast
  | unicast (ciaddr chaddr : List UInt8)
  deriving DecidableEq

structure Reply where
  type : UInt8
  xid : List UInt8
  flags : List UInt8
  ciaddr : List UInt8
  yiaddr : Nat
  gateway : List UInt8
  chaddr : List UInt8
  serverId : Nat
  leaseTime : Option Nat
  options : List (UInt8 × Nat)
  destination : Destination
  deriving DecidableEq

def hardwareAddress (chaddr : List UInt8) : List UInt8 := chaddr.take 6

variable (now : Nat) (s : Server) (request : Request)

def initPacket (type : UInt8) : Reply :=
  { type := type
    xid := request.xid
    flags := request.flags
    ciaddr := request.ciaddr
    yiaddr := 0
    gateway := request.gateway
    chaddr := request.chaddr
    serverId := s.serverNip
    leaseTime := none
    options := []
    destination := .broadcast }

def addServerOptions (packet : Reply) : Reply := { packet with options := s.optionHash }

def sendPacketToClient (packet : Reply) : Reply :=
  if (packet.flags.getD 0 0).toNat / 128 = 1 ∨ bigEndian packet.ciaddr = 0 then
    { packet with destination := .broadcast }
  else { packet with destination := .unicast packet.ciaddr packet.chaddr }

def offeredNip (steps now : Nat) (s : Server) (lease : Option Nat) (requestedNip : Nat) :
    Except Stop Nat :=
  match lease with
  | some lease => .ok (s.leases.heap lease).nip
  | none =>
    if checkRequestedNip now s requestedNip then .ok requestedNip
    else findFreeOrExpiredNip steps now s

def sendOffer (steps now : Nat) (s : Server) (request : Request) (lease : Option Nat)
    (requestedNip : Nat) : Except Stop (Server × List Reply) := do
  let yiaddr ← offeredNip steps now s lease requestedNip
  if yiaddr = 0 then .ok (s,[])
  else
    match addLease now offerTime s (hardwareAddress request.chaddr) yiaddr with
    | none => .ok (s,[])
    | some s =>
      let packet := { initPacket s request 2 with yiaddr, leaseTime := some s.leaseSeconds }
      .ok (s,[sendPacketToClient (addServerOptions s packet)])

def sendAck (dest : Nat) : Server × List Reply :=
  let packet := { initPacket s request 5 with yiaddr := dest, leaseTime := some s.leaseSeconds }
  ((addLease now 0 s (hardwareAddress request.chaddr) dest).getD s,
    [sendPacketToClient (addServerOptions s packet)])

def sendNak : Reply := initPacket s request 6

def sendInform : Reply :=
  sendPacketToClient (addServerOptions s (initPacket s request 5))

def hostWord (order : ByteOrder) (bytes : List UInt8) : Nat :=
  match order with
  | .big => bigEndian bytes
  | .little => bigEndian bytes.reverse

def renewedNip : Nat :=
  if request.requestedIp.getD 0 = 0 then hostWord s.order request.ciaddr
  else request.requestedIp.getD 0

def handleRequest (lease : Option Nat) : Server × List Reply :=
  let requestedNip := renewedNip s request
  if requestedNip = 0 then (s,[])
  else
    match lease with
    | none => (s,[sendNak s request])
    | some lease =>
      if requestedNip = (s.leases.heap lease).nip then
        sendAck now s request (s.leases.heap lease).nip
      else if request.serverId then (s,[sendNak s request])
      else (s,[])

def handleDecline (lease : Option Nat) : Server :=
  match lease, request.requestedIp with
  | some lease, some requestedNip =>
    if request.serverId ∧ requestedNip = (s.leases.heap lease).nip then
      { s with leases := removeLease s.leases lease }
    else s
  | _, _ => s

def handleRelease (lease : Option Nat) : Server :=
  match lease with
  | none => s
  | some lease =>
    if request.serverId ∧ hostWord s.order request.ciaddr = (s.leases.heap lease).nip then
      { s with leases := leaseSetExpire s.leases lease now }
    else s

def listenerEvent (steps now : Nat) (s : Server) (request : Request) :
    Except Stop (Server × List Reply) :=
  let lease := findLeaseByMac s.leases (hardwareAddress request.chaddr)
  match request.type with
  | 1 => sendOffer steps now s request lease (request.requestedIp.getD 0)
  | 3 => .ok (handleRequest now s request lease)
  | 4 => .ok (handleDecline s request lease,[])
  | 7 => .ok (handleRelease now s request lease,[])
  | 8 => .ok (s,[sendInform s request])
  | _ => .ok (s,[])

def senderLease : Option Nat :=
  findLeaseByMac s.leases (hardwareAddress request.chaddr)

def Offers (reply : Reply) (nip : Nat) (mac : List UInt8) : Prop :=
  reply.type = 2 ∧ reply.yiaddr = nip ∧ hardwareAddress reply.chaddr = mac

def Acks (reply : Reply) (nip : Nat) (mac : List UInt8) : Prop :=
  reply.type = 5 ∧ reply.yiaddr = nip ∧ nip ≠ 0 ∧ hardwareAddress reply.chaddr = mac

section

variable (steps now : Nat) (s : Server) (request : Request)

inductive Origin (nip : Nat) : Prop
  | own {l : Lease} (hl : s.leases.Has l) (hmac : l.mac = hardwareAddress request.chaddr)
      (hnip : l.nip = nip)
  | requested (hnew : ∀ l, s.leases.Has l → l.mac ≠ hardwareAddress request.chaddr)
      (hnip : nip = request.requestedIp.getD 0)
      (hexpired : ∀ l, s.leases.Has l → l.nip = nip → l.expire < now)
  | free (hnew : ∀ l, s.leases.Has l → l.mac ≠ hardwareAddress request.chaddr)
      (hfree : ∀ l, s.leases.Has l → l.nip ≠ nip)
  | recycled {r : Nat} (hnew : ∀ l, s.leases.Has l → l.mac ≠ hardwareAddress request.chaddr)
      (hfull : findFreeNip s steps s.startIp = .ok none)
      (hlast : s.leases.list.getLast? = some r) (hnip : (s.leases.heap r).nip = nip)
      (hexpired : (s.leases.heap r).expire < now)

inductive Outcome (leases : Table Nat Lease) (replies : List Reply) : Prop
  | quiet (hleases : leases = s.leases)
      (hreplies : ∀ r ∈ replies, ∀ nip mac, ¬Offers r nip mac ∧ ¬Acks r nip mac)
  | offered {nip : Nat} {reply : Reply} (htype : request.type = 1)
      (horigin : Origin steps now s request nip)
      (hentered : Entered s.leases leases ⟨offerTime,nip,hardwareAddress request.chaddr⟩)
      (hreplies : replies = [reply]) (hoffer : Offers reply nip (hardwareAddress request.chaddr))
  | acked {l : Lease} {reply : Reply} (htype : request.type = 3) (hl : s.leases.Has l)
      (hmac : l.mac = hardwareAddress request.chaddr)
      (hentered : Entered s.leases leases
        ⟨now + s.leaseSeconds,l.nip,hardwareAddress request.chaddr⟩)
      (hreplies : replies = [reply]) (hack : Acks reply l.nip (hardwareAddress request.chaddr))
  | declined {l : Lease} (htype : request.type = 4) (hl : s.leases.Has l)
      (hmac : l.mac = hardwareAddress request.chaddr) (hnip : request.requestedIp = some l.nip)
      (hhas : ∀ x, leases.Has x ↔ s.leases.Has x ∧ x ≠ l) (hreplies : replies = [])
  | released {l : Lease} (htype : request.type = 7) (hl : s.leases.Has l)
      (hmac : l.mac = hardwareAddress request.chaddr)
      (hnip : hostWord s.order request.ciaddr = l.nip)
      (hhas : ∀ x, leases.Has x ↔
        x = { l with expire := now % 4294967296 } ∨ s.leases.Has x ∧ x ≠ l)
      (hreplies : replies = [])

def Settles (result : Server × List Reply) : Prop :=
  ∃ leases, result.1 = { s with leases := leases } ∧ Sound result.1 ∧
    Outcome steps now s request leases result.2

end

section

variable {steps now : Nat} {s : Server} {request : Request}

theorem sendPacketToClient_header (packet : Reply) :
    (sendPacketToClient packet).type = packet.type ∧
      (sendPacketToClient packet).yiaddr = packet.yiaddr ∧
        (sendPacketToClient packet).chaddr = packet.chaddr := by
  unfold sendPacketToClient
  split <;> exact ⟨rfl,rfl,rfl⟩

theorem sendNak_silent (nip : Nat) (mac : List UInt8) :
    ¬Offers (sendNak s request) nip mac ∧ ¬Acks (sendNak s request) nip mac :=
  ⟨fun h => absurd h.1 (by decide : (6 : UInt8) ≠ 2),
    fun h => absurd h.1 (by decide : (6 : UInt8) ≠ 5)⟩

theorem sendInform_silent (nip : Nat) (mac : List UInt8) :
    ¬Offers (sendInform s request) nip mac ∧ ¬Acks (sendInform s request) nip mac := by
  obtain ⟨htype,hyiaddr,-⟩ := sendPacketToClient_header
    (addServerOptions s (initPacket s request 5))
  constructor
  · rintro ⟨hoffer,-⟩
    exact absurd (htype.symm.trans hoffer) (by decide : (5 : UInt8) ≠ 2)
  · rintro ⟨-,hnip,hne,-⟩
    exact hne (hnip.symm.trans hyiaddr)

section

variable (h : Sound s)
include h

theorem offeredNip_origin {nip : Nat} (hne : nip ≠ 0)
    (hnip : offeredNip steps now s (senderLease s request) (request.requestedIp.getD 0) = .ok nip) :
    Origin steps now s request nip := by
  unfold offeredNip at hnip
  cases hlease : senderLease s request with
  | some r =>
    rw [hlease] at hnip
    cases hnip
    obtain ⟨hr,hmac⟩ := findLeaseByMac_some hlease
    exact .own ⟨r,hr,rfl⟩ hmac rfl
  | none =>
    have hnew := findLeaseByMac_none.mp hlease
    rw [hlease] at hnip
    by_cases hcheck : checkRequestedNip now s (request.requestedIp.getD 0) = true
    · rw [if_pos hcheck] at hnip
      cases hnip
      exact .requested hnew rfl ((checkRequestedNip_iff h).mp hcheck).2
    rw [if_neg hcheck] at hnip
    obtain ⟨free,hfree,hnip⟩ := bind_eq_ok hnip
    cases free with
    | some ip =>
      cases hnip
      exact .free hnew (h.consistent.hash_none.mp (findFreeNip_free hfree))
    | none =>
      simp only [Except.ok.injEq] at hnip
      unfold oldestNip at hnip
      split at hnip
      · exact absurd hnip.symm hne
      rename_i r hlast
      split at hnip
      · rename_i hexpired
        exact .recycled hnew hfree hlast hnip (by simpa [isExpiredLease] using hexpired)
      · exact absurd hnip.symm hne

theorem settles_silent : Settles steps now s request (s,[]) :=
  ⟨s.leases,rfl,h,.quiet rfl (by simp)⟩

theorem sendOffer_outcome (htype : request.type = 1) {result : Server × List Reply}
    (hstep : sendOffer steps now s request (senderLease s request) (request.requestedIp.getD 0) = .ok result) :
    Settles steps now s request result := by
  obtain ⟨nip,hnip,hstep⟩ := bind_eq_ok hstep
  by_cases hzero : nip = 0
  · rw [if_pos hzero] at hstep
    cases hstep
    exact settles_silent h
  rw [if_neg hzero] at hstep
  by_cases husable : Usable s nip (hardwareAddress request.chaddr)
  · obtain ⟨leases,hadd,hsound,hentered⟩ := addLease_spec h husable now offerTime
    rw [hadd] at hstep
    cases hstep
    refine ⟨leases,rfl,hsound,.offered htype (offeredNip_origin h hzero hnip) hentered rfl ?_⟩
    obtain ⟨htype,hyiaddr,hchaddr⟩ := sendPacketToClient_header (addServerOptions
      { s with leases := leases } { initPacket { s with leases := leases } request 2 with
        yiaddr := nip, leaseTime := some s.leaseSeconds })
    exact ⟨htype,hyiaddr,congrArg hardwareAddress hchaddr⟩
  · rw [addLease,getLease,if_neg husable] at hstep
    cases hstep
    exact settles_silent h

theorem handleRequest_outcome (htype : request.type = 3) :
    Settles steps now s request (handleRequest now s request (senderLease s request)) := by
  have hnak : Settles steps now s request (s,[sendNak s request]) :=
    ⟨s.leases,rfl,h,.quiet rfl (by simpa using sendNak_silent)⟩
  unfold handleRequest
  by_cases hzero : renewedNip s request = 0
  · rw [if_pos hzero]
    exact settles_silent h
  rw [if_neg hzero]
  cases hlease : senderLease s request with
  | none => exact hnak
  | some r =>
    obtain ⟨hr,hmac⟩ := findLeaseByMac_some hlease
    have hhas : s.leases.Has (s.leases.heap r) := ⟨r,hr,rfl⟩
    dsimp only
    by_cases heq : renewedNip s request = (s.leases.heap r).nip
    · have husable := h.usable _ hhas
      rw [hmac] at husable
      obtain ⟨leases,hadd,hsound,hentered⟩ := addLease_spec h husable now 0
      rw [if_pos heq]
      unfold sendAck
      rw [hadd]
      refine ⟨leases,rfl,hsound,.acked htype hhas hmac hentered rfl ?_⟩
      obtain ⟨htype,hyiaddr,hchaddr⟩ := sendPacketToClient_header (addServerOptions s
        { initPacket s request 5 with
          yiaddr := (s.leases.heap r).nip, leaseTime := some s.leaseSeconds })
      exact ⟨htype,hyiaddr,husable.1,congrArg hardwareAddress hchaddr⟩
    rw [if_neg heq]
    split
    · exact hnak
    · exact settles_silent h

theorem handleDecline_outcome (htype : request.type = 4) :
    Settles steps now s request (handleDecline s request (senderLease s request),[]) := by
  unfold handleDecline
  cases hlease : senderLease s request with
  | none => exact settles_silent h
  | some r =>
    obtain ⟨hr,hmac⟩ := findLeaseByMac_some hlease
    cases hrequested : request.requestedIp with
    | none => exact settles_silent h
    | some nip =>
      dsimp only
      split
      · rename_i hnip
        obtain ⟨hsound,hhas⟩ := removeLease_sound h hr
        exact ⟨_,rfl,hsound,.declined htype ⟨r,hr,rfl⟩ hmac (hnip.2 ▸ hrequested) hhas rfl⟩
      · exact settles_silent h

theorem handleRelease_outcome (htype : request.type = 7) :
    Settles steps now s request (handleRelease now s request (senderLease s request),[]) := by
  unfold handleRelease
  cases hlease : senderLease s request with
  | none => exact settles_silent h
  | some r =>
    obtain ⟨hr,hmac⟩ := findLeaseByMac_some hlease
    dsimp only
    split
    · rename_i hnip
      obtain ⟨hsound,hhas⟩ := leaseSetExpire_sound h hr now
      exact ⟨_,rfl,hsound,.released htype ⟨r,hr,rfl⟩ hmac hnip.2 hhas rfl⟩
    · exact settles_silent h

theorem listenerEvent_outcome {s' : Server} {replies : List Reply}
    (hstep : listenerEvent steps now s request = .ok (s',replies)) :
    ∃ leases, s' = { s with leases := leases } ∧ Sound s' ∧
      Outcome steps now s request leases replies := by
  change Settles steps now s request (s',replies)
  unfold listenerEvent at hstep
  split at hstep
  · rename_i htype
    exact sendOffer_outcome h htype hstep
  · rename_i htype
    rw [← Except.ok.inj hstep]
    exact handleRequest_outcome h htype
  · rename_i htype
    cases hstep
    exact handleDecline_outcome h htype
  · rename_i htype
    cases hstep
    exact handleRelease_outcome h htype
  · cases hstep
    exact ⟨s.leases,rfl,h,.quiet rfl (by simpa using sendInform_silent)⟩
  · cases hstep
    exact settles_silent h

end

end

end FuzzingTargets.DhcpServer
