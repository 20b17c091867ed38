import FuzzingTargets.Foundation.Runs
import FuzzingTargets.Connman.Gdhcp.LeaseRuns

namespace FuzzingTargets.DhcpServer
open TwoIndex TwoIndex.Table Runs List

inductive LeaseCall where
  | add (now expire : Nat) (chaddr : List UInt8) (yiaddr : Nat)
  | remove (lease : Nat)
  | setExpire (lease expire : Nat)
  deriving DecidableEq

def call (s : Server) : LeaseCall → Server
  | .add now expire chaddr yiaddr =>
    (addLease now expire s (hardwareAddress chaddr) yiaddr).getD s
  | .remove lease => { s with leases := removeLease s.leases lease }
  | .setExpire lease expire => { s with leases := leaseSetExpire s.leases lease expire }

def MadeByServer (s : Server) : LeaseCall → Prop
  | .add now expire _ _ =>
    now + s.leaseSeconds < 2147483648 ∧ (expire = 0 ∨ expire = offerTime)
  | .remove lease => lease ∈ s.leases.list
  | .setExpire lease expire => lease ∈ s.leases.list ∧ expire + s.leaseSeconds < 2147483648

instance (s : Server) (c : LeaseCall) : Decidable (MadeByServer s c) :=
  match c with
  | .add .. => inferInstanceAs (Decidable (_ ∧ _))
  | .remove .. => inferInstanceAs (Decidable (_ ∈ _))
  | .setExpire .. => inferInstanceAs (Decidable (_ ∧ _))

structure LeasesConsistent (s : Server) : Prop where
  listed_once : s.leases.list.Nodup
  same_leases : ∀ r, r ∈ s.leases.list ↔ ∃ nip, s.leases.hash nip = some r
  keyed : ∀ nip r, s.leases.hash nip = some r → (s.leases.heap r).nip = nip
  macs_differ : ∀ r ∈ s.leases.list, ∀ r' ∈ s.leases.list,
    (s.leases.heap r).mac = (s.leases.heap r').mac → r = r'
  nips_differ : ∀ r ∈ s.leases.list, ∀ r' ∈ s.leases.list,
    (s.leases.heap r).nip = (s.leases.heap r').nip → r = r'
  in_range : ∀ r ∈ s.leases.list,
    s.startIp ≤ (s.leases.heap r).nip ∧ (s.leases.heap r).nip ≤ s.endIp
  ordered : s.leases.list.Pairwise fun r r' =>
    (s.leases.heap r').expire ≤ (s.leases.heap r).expire
  last_first : ∀ r ∈ s.leases.list.getLast?, ∀ r' ∈ s.leases.list,
    (s.leases.heap r).expire ≤ (s.leases.heap r').expire

structure Timed (s : Server) : Prop where
  sound : Sound s
  small : ∀ l, s.leases.Has l → l.expire < 2147483648
  descending : Descending Lease.expire s.leases.heap s.leases.list

section

variable {s : Server} {t : Table Nat Lease} {mac : List UInt8} {yiaddr r : Nat}

theorem precedes_iff {lease1 lease2 : Lease} (h1 : lease1.expire < 2147483648)
    (h2 : lease2.expire < 2147483648) : Precedes lease1 lease2 ↔ lease2.expire ≤ lease1.expire := by
  unfold Precedes compareExpire
  rw [Int.bmod_eq_of_le (by omega) (by omega)]
  omega

theorem recycleLease_kept (yiaddr : Nat) (leaseNip leaseMac : Option Nat) :
    (recycleLease t yiaddr leaseNip leaseMac).1.heap = t.heap ∧
      (recycleLease t yiaddr leaseNip leaseMac).1.list.Sublist t.list := by
  unfold recycleLease
  cases leaseNip with
  | none =>
    cases leaseMac with
    | none => exact ⟨rfl,.refl _⟩
    | some b => exact ⟨rfl,erase_sublist⟩
  | some a =>
    cases leaseMac with
    | none => exact ⟨rfl,erase_sublist⟩
    | some b =>
      dsimp only
      split
      · exact ⟨rfl,erase_sublist.trans erase_sublist⟩
      · exact ⟨rfl,erase_sublist⟩

theorem addLease_timed (h : Timed s) {now expire : Nat}
    (hmade : now + s.leaseSeconds < 2147483648 ∧ (expire = 0 ∨ expire = offerTime)) :
    Timed ((addLease now expire s mac yiaddr).getD s) := by
  by_cases husable : Usable s yiaddr mac
  · obtain ⟨leases,hadd,hsound,hentered⟩ := addLease_spec h.sound husable now expire
    have hexpire : (if expire = 0 then now + s.leaseSeconds else expire) < 2147483648 := by
      unfold offerTime at hmade
      split <;> omega
    obtain ⟨-,hnot,-,hhas⟩ := @recycleLease_cleared s.leases mac yiaddr h.sound.consistent
    obtain ⟨hheap,hlist⟩ := @recycleLease_kept s.leases yiaddr (s.leases.hash yiaddr)
      (findLeaseByMac s.leases mac)
    have hleases : leases = _ := (Server.mk.inj (Option.some.inj (hadd.symm.trans (by
      rw [addLease,getLease,if_pos husable])))).2.2.2.2.2.2
    rw [hadd,Option.getD_some]
    refine ⟨hsound,fun l hl => ?_,?_⟩
    · rcases (hentered l).mp hl with rfl | ⟨hold,-⟩
      · exact hexpire
      · exact h.small l hold
    rw [hleases]
    refine placed_descending hnot ?_ fun a ha => ?_
    · rw [hheap]
      exact h.descending.sublist hlist
    · exact precedes_iff hexpire (h.small _ ((hhas _).mp ⟨a,ha,rfl⟩).1)
  · rw [addLease,getLease,if_neg husable]
    exact h

theorem removeLease_timed (h : Timed s) (hr : r ∈ s.leases.list) :
    Timed { s with leases := removeLease s.leases r } := by
  obtain ⟨hsound,hhas⟩ := removeLease_sound h.sound hr
  exact ⟨hsound,fun l hl => h.small l ((hhas l).mp hl).1,
    h.descending.sublist erase_sublist⟩

theorem leaseSetExpire_timed (h : Timed s) (hr : r ∈ s.leases.list) {expire : Nat}
    (hexpire : expire < 2147483648) :
    Timed { s with leases := leaseSetExpire s.leases r expire } := by
  obtain ⟨hsound,hhas⟩ := leaseSetExpire_sound h.sound hr expire
  have hmod : expire % 4294967296 < 2147483648 := by omega
  have hnot : r ∉ s.leases.list.erase r := not_mem_detach h.sound.consistent 0
  refine ⟨hsound,fun l hl => ?_,?_⟩
  · rcases (hhas l).mp hl with rfl | ⟨hold,-⟩
    · exact hmod
    · exact h.small l hold
  · refine placed_descending hnot (h.descending.sublist erase_sublist) fun a ha => ?_
    exact precedes_iff hmod (h.small _ ⟨a,mem_of_mem_erase ha,rfl⟩)

theorem call_timed {c : LeaseCall} (h : Timed s) (hmade : MadeByServer s c) : Timed (call s c) := by
  cases c with
  | add now expire chaddr yiaddr => exact addLease_timed h hmade
  | remove lease => exact removeLease_timed h hmade
  | setExpire lease expire => exact leaseSetExpire_timed h hmade.1 (by have := hmade.2; omega)

theorem timed_noLeases (h : s.leases = noLeases) : Timed s := by
  refine ⟨noLeases_sound h,?_,?_⟩
  · exact fun l hl => absurd hl (noLeases_has h l)
  · rw [h]
    exact List.Pairwise.nil

theorem timed_consistent (h : Timed s) : LeasesConsistent s := by
  have hconsistent := h.sound.consistent
  constructor
  · exact hconsistent.nodup
  · intro r
    constructor
    · intro hr
      exact ⟨_,(hconsistent.hash_iff _ r).mpr ⟨hr,rfl⟩⟩
    · rintro ⟨nip,hhash⟩
      exact ((hconsistent.hash_iff nip r).mp hhash).1
  · intro nip r hhash
    exact ((hconsistent.hash_iff nip r).mp hhash).2
  · exact hconsistent.owners
  · exact fun r hr r' hr' => hconsistent.keys hr hr'
  · intro r hr
    obtain ⟨-,hstart,hend,-⟩ := h.sound.usable _ ⟨r,hr,rfl⟩
    exact ⟨hstart,hend⟩
  · exact h.descending
  intro r hlast r' hr'
  obtain ⟨front,hfront⟩ := getLast?_eq_some_iff.mp hlast
  have hdescending := h.descending
  rw [hfront] at hr' hdescending
  rcases mem_append.mp hr' with hr' | hr'
  · exact (pairwise_append.mp hdescending).2.2 r' hr' r (mem_singleton_self r)
  · rw [mem_singleton.mp hr']

end

def Calls (s s' : Server) : Prop := s' = s ∨ ∃ c, MadeByServer s c ∧ s' = call s c

section

variable {steps now : Nat} {s s' : Server} {request : Gdhcp.Request} {replies : List Reply}
  {lease : Option Nat} {guard : Server → Event → Prop} {events : List Event}

theorem handleDecline_call (hlease : ∀ r ∈ lease, r ∈ s.leases.list) :
    Calls s (handleDecline s request lease) := by
  unfold handleDecline
  cases lease with
  | none => exact .inl rfl
  | some r =>
    cases request.requestedIp with
    | none => exact .inl rfl
    | some nip =>
      dsimp only
      split
      · exact .inr ⟨.remove r,hlease r rfl,rfl⟩
      · exact .inl rfl

section

variable (hnow : now + s.leaseSeconds < 2147483648)
include hnow

theorem sendOffer_call {requestedNip : Nat}
    (hstep : sendOffer steps now s request lease requestedNip = .ok (s',replies)) :
    Calls s s' := by
  obtain ⟨yiaddr,-,hstep⟩ := Checked.bind_eq_ok hstep
  by_cases hzero : yiaddr = 0
  · rw [if_pos hzero] at hstep
    cases hstep
    exact .inl rfl
  rw [if_neg hzero] at hstep
  cases hadd : addLease now offerTime s (hardwareAddress request.chaddr) yiaddr with
  | none =>
    rw [hadd] at hstep
    cases hstep
    exact .inl rfl
  | some added =>
    rw [hadd] at hstep
    cases hstep
    refine .inr ⟨.add now offerTime request.chaddr yiaddr,⟨hnow,.inr rfl⟩,?_⟩
    rw [call,hadd,Option.getD_some]

theorem handleRequest_call (lease : Option Nat) :
    Calls s (handleRequest now s request lease).1 := by
  unfold handleRequest
  dsimp only
  split
  · exact .inl rfl
  cases lease with
  | none => exact .inl rfl
  | some r =>
    dsimp only
    split
    · exact .inr ⟨.add now 0 request.chaddr _,⟨hnow,.inl rfl⟩,rfl⟩
    · split <;> exact .inl rfl

theorem handleRelease_call (hlease : ∀ r ∈ lease, r ∈ s.leases.list) :
    Calls s (handleRelease now s request lease) := by
  unfold handleRelease
  cases lease with
  | none => exact .inl rfl
  | some r =>
    dsimp only
    split
    · exact .inr ⟨.setExpire r now,⟨hlease r rfl,hnow⟩,rfl⟩
    · exact .inl rfl

theorem listenerEvent_call (hstep : listenerEvent steps now s request = .ok (s',replies)) :
    Calls s s' := by
  have hlease : ∀ r ∈ senderLease s request, r ∈ s.leases.list :=
    fun r hr => (findLeaseByMac_some hr).1
  unfold listenerEvent at hstep
  split at hstep
  · exact sendOffer_call hnow hstep
  · have hcall := @handleRequest_call now s request hnow (senderLease s request)
    rw [Except.ok.injEq] at hstep
    rwa [senderLease,hstep] at hcall
  · cases hstep
    exact handleDecline_call hlease
  · cases hstep
    exact handleRelease_call hnow hlease
  · cases hstep
    exact .inl rfl
  · cases hstep
    exact .inl rfl

end

theorem run_timed {t t' : Nat} (h : Timed s) (hrun : Run steps guard t s events t' s')
    (hclock : ∀ e ∈ events, e.now + s.leaseSeconds < 2147483648) : Timed s' := by
  induction hrun with
  | done => exact h
  | step hfrom hguard hstep hrest ih =>
    rename_i s s1 s' e events
    have hnow := hclock e mem_cons_self
    obtain ⟨leases,heq,-,-⟩ := listenerEvent_outcome h.sound hstep
    have hafter : Timed s1 := by
      rcases listenerEvent_call hnow hstep with rfl | ⟨c,hmade,rfl⟩
      · exact h
      · exact call_timed h hmade
    refine ih hafter fun e he => ?_
    rw [heq]
    exact hclock e (.tail _ he)

theorem run_leases_consistent {t : Nat} (h0 : s.leases = noLeases)
    (hrun : Run steps guard 0 s events t s')
    (hclock : ∀ e ∈ events, e.now + s.leaseSeconds < 2147483648) : LeasesConsistent s' :=
  timed_consistent (run_timed (timed_noLeases h0) hrun hclock)

theorem record_origin {leases : Table Nat Lease} {l : Lease}
    (houtcome : Outcome steps now s request leases replies) (hl : leases.Has l) :
    (∃ x, s.leases.Has { l with expire := x }) ∨ ∃ r ∈ replies, Offers r l.nip l.mac := by
  cases houtcome with
  | quiet hleases _ => exact .inl ⟨l.expire,hleases ▸ hl⟩
  | offered _ _ hentered hreplies hoffer =>
    rcases (hentered l).mp hl with rfl | ⟨hold,-⟩
    · exact .inr ⟨_,hreplies ▸ mem_cons_self,hoffer⟩
    · exact .inl ⟨_,hold⟩
  | acked _ hx hmac hentered _ _ =>
    rcases (hentered l).mp hl with rfl | ⟨hold,-⟩
    · exact .inl ⟨_,by rw [← hmac]; exact hx⟩
    · exact .inl ⟨_,hold⟩
  | declined _ _ _ _ hhas _ => exact .inl ⟨_,((hhas l).mp hl).1⟩
  | released _ hx _ _ hhas _ =>
    rcases (hhas l).mp hl with rfl | ⟨hold,-⟩
    · exact .inl ⟨_,hx⟩
    · exact .inl ⟨_,hold⟩

def OfferedIn (events : List Event) (l : Lease) : Prop := ∃ e ∈ events, OfferedTo e l.nip l.mac

theorem run_offered {t t' : Nat} {l : Lease} (h : Sound s)
    (hrun : Run steps guard t s events t' s') (hl : s'.leases.Has l) :
    (∃ x, s.leases.Has { l with expire := x }) ∨ OfferedIn events l := by
  induction hrun with
  | done => exact .inl ⟨_,hl⟩
  | step hclock hguard hstep hrest ih =>
    obtain ⟨leases,rfl,hsound,houtcome⟩ := listenerEvent_outcome h hstep
    rcases ih hsound hl with ⟨x,hx⟩ | ⟨d,hd,hoffer⟩
    · rcases record_origin houtcome hx with hold | hoffer
      · exact .inl hold
      · exact .inr ⟨_,mem_cons_self,hoffer⟩
    · exact .inr ⟨d,.tail _ hd,hoffer⟩

def GivesUsable (s : Server) (events : List Event) : Prop :=
  ∀ e ∈ events, ∀ nip mac, OfferedTo e nip mac ∨ AckedTo e nip mac → Usable s nip mac

theorem given_addresses_usable {t t' : Nat} (h : Sound s)
    (hrun : Run steps guard t s events t' s') : GivesUsable s events := by
  induction hrun with
  | done => simp [GivesUsable]
  | step hclock hguard hstep hrest ih =>
    obtain ⟨leases,rfl,hsound,houtcome⟩ := listenerEvent_outcome h hstep
    intro e he nip mac hgiven
    rcases mem_cons.mp he with rfl | he
    · obtain ⟨x,hx⟩ : ∃ x, leases.Has ⟨x,nip,mac⟩ := by
        rcases hgiven with ⟨r,hr,hoffer⟩ | ⟨r,hr,hack⟩
        · exact ⟨_,(outcome_offers houtcome hr hoffer).2.2.2⟩
        · exact ⟨_,(outcome_acks houtcome hr hack).2.2⟩
      exact hsound.usable _ hx
    · exact ih hsound e he nip mac hgiven

end

def AcksFollowOffers (events : List Event) : Prop :=
  ∀ before ack after, events = before ++ ack :: after → ∀ nip mac, AckedTo ack nip mac →
    ack.sender = mac ∧ OfferedIn before ⟨0,nip,mac⟩

theorem acks_follow_offers (steps : Nat) (s0 : Server) (h0 : s0.leases = noLeases)
    (events : List Event) (t : Nat) (s : Server)
    (hrun : Run steps (fun _ _ => True) 0 s0 events t s) : AcksFollowOffers events := by
  rintro before ack after rfl nip mac ⟨r,hr,hack⟩
  obtain ⟨t1,s1,hbefore,hfrom⟩ := run_append hrun
  have hsound := noLeases_sound h0
  cases hfrom with
  | step _ _ hstep _ =>
    obtain ⟨leases,-,-,houtcome⟩ := listenerEvent_outcome (run_sound hsound hbefore).1 hstep
    obtain ⟨hsender,⟨l,hl,rfl,rfl⟩,-⟩ := outcome_acks houtcome hr hack
    refine ⟨hsender.symm,(run_offered hsound hbefore hl).resolve_left ?_⟩
    rintro ⟨x,hold⟩
    exact noLeases_has h0 _ hold

theorem leaseExchange_runs : ∃ s, Run 3 (fun _ _ => True) 0 pooledServer leaseExchange 1003 s :=
  ⟨_,.step (by decide) trivial rfl (.step (by decide) trivial rfl
    (.step (by decide) trivial rfl (.step (by decide) trivial rfl .done)))⟩

theorem leaseExchange_consistent :
    ∃ s, Run 3 (fun _ _ => True) 0 pooledServer leaseExchange 1003 s ∧ LeasesConsistent s := by
  obtain ⟨s,hrun⟩ := leaseExchange_runs
  exact ⟨s,hrun,run_leases_consistent rfl hrun (by decide)⟩

theorem leaseExchange_follows : AcksFollowOffers leaseExchange := by
  obtain ⟨s,hrun⟩ := leaseExchange_runs
  exact acks_follow_offers 3 pooledServer rfl leaseExchange _ s hrun

theorem leaseExchange_usable : GivesUsable pooledServer leaseExchange := by
  obtain ⟨s,hrun⟩ := leaseExchange_runs
  exact given_addresses_usable (noLeases_sound rfl) hrun

theorem lease_calls_consistent (s0 : Server) (h0 : s0.leases = noLeases) (calls : List LeaseCall)
    (hcalls : Permitted MadeByServer call s0 calls) :
    ∀ s ∈ states call s0 calls, LeasesConsistent s := by
  intro s hs
  exact timed_consistent
    (states_invariant (fun _ _ => call_timed) (timed_noLeases h0) hcalls s hs)

def leaseCalls : List LeaseCall :=
  [.add 1000 300 [2,0,0,0,0,1] 3232235777,.add 1001 0 [2,0,0,0,0,2] 3232235778,
    .add 1002 0 [2,0,0,0,0,1] 3232235777,.setExpire 1 1003,.remove 0]

theorem leaseCalls_consistent :
    Permitted MadeByServer call pooledServer leaseCalls ∧
      ∀ s ∈ states call pooledServer leaseCalls, LeasesConsistent s := by
  have hmade : Permitted MadeByServer call pooledServer leaseCalls :=
    ⟨by decide,by decide,by decide,by decide,by decide,trivial⟩
  exact ⟨hmade,lease_calls_consistent pooledServer rfl leaseCalls hmade⟩

end FuzzingTargets.DhcpServer
