import FuzzingTargets.Connman.Gdhcp.Server

namespace FuzzingTargets.DhcpServer
open TwoIndex Loads Checked List
open Gdhcp (Request bigEndian)

structure Event where
  now : Nat
  request : Request
  replies : List Reply
  deriving DecidableEq

variable (e : Event) (nip : Nat) (mac : List UInt8)

def Event.sender : List UInt8 := hardwareAddress e.request.chaddr

inductive Run (steps : Nat) (guard : Server → Event → Prop) :
    Nat → Server → List Event → Nat → Server → Prop
  | done {t : Nat} {s : Server} : Run steps guard t s [] t s
  | step {t t' : Nat} {s s1 s' : Server} {e : Event} {es : List Event} (hclock : t ≤ e.now)
      (hguard : guard s e) (hstep : listenerEvent steps e.now s e.request = .ok (s1,e.replies))
      (hrest : Run steps guard e.now s1 es t' s') : Run steps guard t s (e :: es) t' s'

def noLeases : Table Nat Lease := ⟨[],fun _ => none,fun _ => ⟨0,0,[]⟩,0⟩

def OfferedTo : Prop := ∃ r ∈ e.replies, Offers r nip mac

def AckedTo : Prop := ∃ r ∈ e.replies, Acks r nip mac

variable (steps now : Nat) (s : Server) (lease : Lease) (request : Request)

def TakesOver (l : Lease) : Prop :=
  (∀ x, s.leases.Has x → x.mac ≠ hardwareAddress request.chaddr) ∧ l.expire < now ∧
    (l.nip = request.requestedIp.getD 0 ∨ findFreeNip s steps s.startIp = .ok none ∧
      ∃ r, s.leases.list.getLast? = some r ∧ s.leases.heap r = l)

inductive Kept (now : Nat) (s : Server) (request : Request) (l : Lease) : Nat → Prop
  | same : Kept now s request l l.expire
  | offered (htype : request.type = 1) (hmac : hardwareAddress request.chaddr = l.mac) :
      Kept now s request l offerTime
  | acked (htype : request.type = 3) (hmac : hardwareAddress request.chaddr = l.mac) :
      Kept now s request l (now + s.leaseSeconds)
  | released (htype : request.type = 7) (hmac : hardwareAddress request.chaddr = l.mac)
      (hnip : hostWord s.order request.ciaddr = l.nip) :
      Kept now s request l (now % 4294967296)

def Declined (l : Lease) : Prop :=
  request.type = 4 ∧ hardwareAddress request.chaddr = l.mac ∧ request.requestedIp = some l.nip

section

variable {steps now : Nat} {s : Server} {request : Request} {l : Lease}
  {old new leases : Table Nat Lease} {replies : List Reply}

theorem origin_record (h : Sound s) (hl : s.leases.Has l)
    (horigin : Origin steps now s request l.nip) :
    hardwareAddress request.chaddr = l.mac ∨ TakesOver steps now s request l := by
  cases horigin with
  | own hx hmac hnip =>
    rw [h.consistent.eq_of_key hx hl hnip] at hmac
    exact .inl hmac.symm
  | requested hnew hnip hexpired => exact .inr ⟨hnew,hexpired l hl rfl,.inl hnip⟩
  | free hnew hfree => exact absurd rfl (hfree l hl)
  | recycled hnew hfull hlast hnip hexpired =>
    have heq := h.consistent.eq_of_key ⟨_,List.mem_of_getLast? hlast,rfl⟩ hl hnip
    exact .inr ⟨hnew,heq ▸ hexpired,.inr ⟨hfull,_,hlast,heq⟩⟩

theorem entered_self (h : Entered old new l) : new.Has l :=
  (h l).mpr (.inl rfl)

theorem record_step (h : Sound s) (hl : s.leases.Has l)
    (houtcome : Outcome steps now s request leases replies) :
    (∃ expire, Kept now s request l expire ∧ leases.Has { l with expire := expire }) ∨
      Declined request l ∨ request.type = 1 ∧ TakesOver steps now s request l := by
  have hsame : leases.Has l → ∃ expire, Kept now s request l expire ∧
      leases.Has { l with expire := expire } := fun hhas => ⟨l.expire,.same,hhas⟩
  cases houtcome with
  | quiet hleases hreplies => exact .inl (hsame (hleases ▸ hl))
  | offered htype horigin hentered hreplies hoffer =>
    rename_i nip reply
    by_cases hnip : l.nip = nip
    · subst hnip
      rcases origin_record h hl horigin with hmac | htakes
      · refine .inl ⟨offerTime,.offered htype hmac,?_⟩
        have hhas := entered_self hentered
        rw [hmac] at hhas
        exact hhas
      · exact .inr (.inr ⟨htype,htakes⟩)
    by_cases hmac : l.mac = hardwareAddress request.chaddr
    · cases horigin with
      | own hx hmac' hnip' =>
        rw [h.consistent.eq_of_owner hx hl (hmac'.trans hmac.symm)] at hnip'
        exact absurd hnip' hnip
      | requested hnew _ _ | free hnew _ | recycled hnew _ _ _ _ => exact absurd hmac (hnew l hl)
    · exact .inl (hsame ((hentered l).mpr (.inr ⟨hl,hnip,hmac⟩)))
  | acked htype hx hmac hentered hreplies hack =>
    by_cases hown : l.mac = hardwareAddress request.chaddr
    · obtain rfl := h.consistent.eq_of_owner hx hl (hmac.trans hown.symm)
      refine .inl ⟨now + s.leaseSeconds,.acked htype hown.symm,?_⟩
      have hhas := entered_self hentered
      rw [← hown] at hhas
      exact hhas
    · refine .inl (hsame ((hentered l).mpr (.inr ⟨hl,fun hnip => hown ?_,hown⟩)))
      rw [h.consistent.eq_of_key hl hx hnip,hmac]
  | declined htype hx hmac hnip hhas hreplies =>
    rename_i x
    by_cases heq : l = x
    · subst heq
      exact .inr (.inl ⟨htype,hmac.symm,hnip⟩)
    · exact .inl (hsame ((hhas l).mpr ⟨hl,heq⟩))
  | released htype hx hmac hnip hhas hreplies =>
    rename_i x
    by_cases heq : l = x
    · subst heq
      exact .inl ⟨_,.released htype hmac.symm hnip,(hhas _).mpr (.inl rfl)⟩
    · exact .inl (hsame ((hhas l).mpr (.inr ⟨hl,heq⟩)))

variable (houtcome : Outcome steps now s request leases replies) {r : Reply} (hr : r ∈ replies)
  {nip : Nat} {mac : List UInt8}
include houtcome hr

theorem outcome_acks (hacks : Acks r nip mac) :
    mac = hardwareAddress request.chaddr ∧ (∃ l, s.leases.Has l ∧ l.nip = nip ∧ l.mac = mac) ∧
      leases.Has ⟨now + s.leaseSeconds,nip,mac⟩ := by
  cases houtcome with
  | quiet hleases hreplies => exact absurd hacks (hreplies r hr nip mac).2
  | offered htype horigin hentered hreplies hoffer =>
    rw [hreplies,mem_singleton] at hr
    subst hr
    exact absurd (hoffer.1.symm.trans hacks.1) (by decide)
  | acked htype hx hmac hentered hreplies hack =>
    rw [hreplies,mem_singleton] at hr
    subst hr
    obtain ⟨-,rfl,-,rfl⟩ := hacks
    obtain ⟨-,hnip,-,hself⟩ := hack
    rw [hself,hnip]
    exact ⟨rfl,⟨_,hx,rfl,hmac⟩,entered_self hentered⟩
  | declined _ _ _ _ _ hreplies | released _ _ _ _ _ hreplies =>
    rw [hreplies] at hr
    cases hr

theorem outcome_offers (hoffers : Offers r nip mac) :
    mac = hardwareAddress request.chaddr ∧ request.type = 1 ∧ Origin steps now s request nip ∧
      leases.Has ⟨offerTime,nip,mac⟩ := by
  cases houtcome with
  | quiet hleases hreplies => exact absurd hoffers (hreplies r hr nip mac).1
  | offered htype horigin hentered hreplies hoffer =>
    rw [hreplies,mem_singleton] at hr
    subst hr
    obtain ⟨-,rfl,rfl⟩ := hoffers
    obtain ⟨-,hnip,hself⟩ := hoffer
    rw [hself,hnip]
    exact ⟨rfl,htype,horigin,entered_self hentered⟩
  | acked htype hx hmac hentered hreplies hack =>
    rw [hreplies,mem_singleton] at hr
    subst hr
    exact absurd (hack.1.symm.trans hoffers.1) (by decide)
  | declined _ _ _ _ _ hreplies | released _ _ _ _ _ hreplies =>
    rw [hreplies] at hr
    cases hr

end

section

variable {steps t t' : Nat} {guard : Server → Event → Prop} {s s' : Server} {es es' : List Event}

theorem run_append (h : Run steps guard t s (es ++ es') t' s') :
    ∃ t1 s1, Run steps guard t s es t1 s1 ∧ Run steps guard t1 s1 es' t' s' := by
  induction es generalizing t s with
  | nil => exact ⟨t,s,.done,h⟩
  | cons e es ih =>
    cases h with
    | step hclock hguard hstep hrest =>
      obtain ⟨t1,s1,hfirst,hsecond⟩ := ih hrest
      exact ⟨t1,s1,.step hclock hguard hstep hfirst,hsecond⟩

theorem run_clock (h : Run steps guard t s es t' s') : t ≤ t' := by
  induction h with
  | done => exact le_rfl
  | step hclock _ _ _ ih => exact hclock.trans ih

theorem run_sound (h : Sound s) (hrun : Run steps guard t s es t' s') :
    Sound s' ∧ s'.leaseSeconds = s.leaseSeconds := by
  induction hrun with
  | done => exact ⟨h,rfl⟩
  | step _ _ hstep _ ih =>
    obtain ⟨leases,rfl,hsound,-⟩ := listenerEvent_outcome h hstep
    exact ih hsound

theorem noLeases_has (h : s.leases = noLeases) (l : Lease) : ¬s.leases.Has l := by
  rintro ⟨r,hr,-⟩
  rw [h] at hr
  cases hr

theorem noLeases_sound (h : s.leases = noLeases) : Sound s := by
  refine ⟨?_,fun l hl => absurd hl (noLeases_has h l)⟩
  rw [h]
  exact ⟨nodup_nil,fun _ _ => ⟨nofun,fun hr => nomatch hr.1⟩,nofun,nofun⟩

def Stays (steps : Nat) (s : Server) (e : Event) (l : Lease) (P : Nat → Prop) : Prop :=
  (∀ expire, Kept e.now s e.request l expire → P expire) ∧ ¬Declined e.request l ∧
    (e.request.type = 1 → ¬TakesOver steps e.now s e.request l)

theorem run_holds {P : Nat → Prop} {nip : Nat} {mac : List UInt8} (h : Sound s)
    (hrun : Run steps guard t s es t' s')
    (hkeep : ∀ s1 e, e ∈ es → guard s1 e → t ≤ e.now → e.now ≤ t' →
      s1.leaseSeconds = s.leaseSeconds → ∀ x, s1.leases.Has ⟨x,nip,mac⟩ → P x →
        Stays steps s1 e ⟨x,nip,mac⟩ P) (hstart : ∃ x, P x ∧ s.leases.Has ⟨x,nip,mac⟩) :
    ∃ x, P x ∧ s'.leases.Has ⟨x,nip,mac⟩ := by
  induction hrun with
  | done => exact hstart
  | step hclock hguard hstep hrest ih =>
    rename_i s s1 s' e es
    obtain ⟨x,hgood,hhas⟩ := hstart
    obtain ⟨leases,rfl,hsound,houtcome⟩ := listenerEvent_outcome h hstep
    obtain ⟨hkept,hdeclined,htakes⟩ := hkeep s e mem_cons_self hguard hclock
      (run_clock hrest) rfl x hhas hgood
    refine ih hsound ?_ ?_
    · intro s1 d hd hguard' hd1 hd2 hseconds
      exact hkeep s1 d (.tail _ hd) hguard' (hclock.trans hd1) hd2 hseconds
    rcases record_step h hhas houtcome with ⟨expire,hexpire,hafter⟩ | hgone | ⟨htype,htaken⟩
    · exact ⟨expire,hkept expire hexpire,hafter⟩
    · exact absurd hgone hdeclined
    · exact absurd htaken (htakes htype)

end

def GivesUp : Prop :=
  e.sender = mac ∧ (e.request.type = 1 ∨ e.request.type = 4 ∨ e.request.type = 7) ∨
    ∃ other, other ≠ nip ∧ AckedTo e other mac

def AcksExclusive (leaseSeconds : Nat) (events : List Event) : Prop :=
  ∀ before ack between other after, events = before ++ ack :: (between ++ other :: after) →
    ∀ nip mac mac', AckedTo ack nip mac → AckedTo other nip mac' →
      other.now ≤ ack.now + leaseSeconds → (∀ e ∈ between, ¬GivesUp e nip mac) → mac' = mac

theorem leased_record_stays {steps deadline x nip : Nat} {mac : List UInt8} {s : Server} {e : Event}
    (hx : deadline ≤ x) (hrenewed : deadline ≤ e.now + s.leaseSeconds) (hnow : e.now ≤ deadline)
    (hkept : ¬GivesUp e nip mac) : Stays steps s e ⟨x,nip,mac⟩ (deadline ≤ ·) := by
  refine ⟨fun expire hexpire => ?_,fun hdeclined => ?_,fun _ htakes => ?_⟩
  · cases hexpire with
    | same => exact hx
    | offered htype hmac => exact absurd (.inl ⟨hmac,.inl htype⟩) hkept
    | acked htype hmac => exact hrenewed
    | released htype hmac hnip => exact absurd (.inl ⟨hmac,.inr (.inr htype)⟩) hkept
  · exact hkept (.inl ⟨hdeclined.2.1,.inr (.inl hdeclined.1)⟩)
  · have hexpired : x < e.now := htakes.2.1
    omega

theorem acked_address_exclusive (steps : Nat) (s0 : Server) (h0 : s0.leases = noLeases)
    (events : List Event) (t : Nat) (s : Server)
    (hrun : Run steps (fun _ _ => True) 0 s0 events t s) :
    AcksExclusive s0.leaseSeconds events := by
  rintro before ack between other after rfl nip mac mac' ⟨r,hr,hack⟩ ⟨r',hr',hack'⟩ htime hkept
  obtain ⟨t1,s1,hbefore,hfrom⟩ := run_append hrun
  obtain ⟨hsound1,hseconds⟩ := run_sound (noLeases_sound h0) hbefore
  cases hfrom with
  | step hclock _ hstep hrest =>
    obtain ⟨leases,rfl,hsound2,houtcome⟩ := listenerEvent_outcome hsound1 hstep
    obtain ⟨-,-,hheld⟩ := outcome_acks houtcome hr hack
    obtain ⟨t3,s3,hbetween,hfinal⟩ := run_append hrest
    obtain ⟨hsound3,-⟩ := run_sound hsound2 hbetween
    cases hfinal with
    | step hclock' _ hstep' hrest' =>
      obtain ⟨x,-,hx⟩ := run_holds (P := fun x => ack.now + s1.leaseSeconds ≤ x) hsound2 hbetween
        (fun s4 e he _ hfrom hto hseconds' x _ hx => leased_record_stays hx
          (hseconds' ▸ Nat.add_le_add_right hfrom _) (by omega) (hkept e he))
        ⟨_,le_rfl,hheld⟩
      obtain ⟨leases',-,-,houtcome'⟩ := listenerEvent_outcome hsound3 hstep'
      obtain ⟨-,⟨l,hl,hnip,rfl⟩,-⟩ := outcome_acks houtcome' hr' hack'
      rw [hsound3.consistent.eq_of_key hl hx hnip]

def pooledServer : Server :=
  { order := .little
    startIp := 3232235777
    endIp := 3232235778
    serverNip := 3232235786
    leaseSeconds := 3600
    optionHash := []
    leases := noLeases }

def message (type host : UInt8) (serverId : Bool) (requestedIp : Option Nat) : Request :=
  { type
    serverId
    requestedIp
    xid := [0,0,0,host]
    flags := [0,0]
    ciaddr := [0,0,0,0]
    gateway := [0,0,0,0]
    chaddr := [2,0,0,0,0,host,0,0,0,0,0,0,0,0,0,0] }

def answer (type host : UInt8) (yiaddr : Nat) : Reply :=
  { type
    xid := [0,0,0,host]
    flags := [0,0]
    ciaddr := [0,0,0,0]
    yiaddr
    gateway := [0,0,0,0]
    chaddr := [2,0,0,0,0,host,0,0,0,0,0,0,0,0,0,0]
    serverId := 3232235786
    leaseTime := some 3600
    options := []
    destination := .broadcast }

def leaseExchange : List Event :=
  [⟨1000,message 1 1 false none,[answer 2 1 3232235777]⟩,
    ⟨1001,message 3 1 true (some 3232235777),[answer 5 1 3232235777]⟩,
    ⟨1002,message 1 2 false (some 3232235777),[answer 2 2 3232235778]⟩,
    ⟨1003,message 3 2 true (some 3232235778),[answer 5 2 3232235778]⟩]

theorem leaseExchange_exclusive : AcksExclusive 3600 leaseExchange :=
  acked_address_exclusive 3 pooledServer rfl leaseExchange _ _
    (.step (by decide) trivial rfl (.step (by decide) trivial rfl
      (.step (by decide) trivial rfl (.step (by decide) trivial rfl .done))))

def Surrenders : Prop :=
  e.sender = mac ∧ (e.request.type = 4 ∧ e.request.requestedIp = some nip ∨
    e.request.type = 7 ∧ bigEndian e.request.ciaddr = nip)

def OffersHeld (events : List Event) : Prop :=
  ∀ before offer between other after, events = before ++ offer :: (between ++ other :: after) →
    ∀ nip mac mac', OfferedTo offer nip mac → OfferedTo other nip mac' →
      other.now < offer.now + offerTime → (∀ e ∈ between, ¬Surrenders e nip mac) → mac' = mac

def HasFreeNip : Prop :=
  ∃ ip, s.startIp ≤ ip ∧ ip ≤ s.endIp ∧ ip % 256 ≠ 0 ∧ ip % 256 ≠ 255 ∧ s.leases.hash ip = none

def SparesOffers : Prop :=
  (∀ l, s.leases.Has l → l.nip = request.requestedIp.getD 0 → l.expire ≠ offerTime) ∧
    (HasFreeNip s ∨
      ∀ r, s.leases.list.getLast? = some r → (s.leases.heap r).expire ≠ offerTime)

def Spares (e : Event) : Prop :=
  (e.request.type = 1 → (∀ l, s.leases.Has l → l.mac ≠ e.sender) → SparesOffers s e.request) ∧
    (e.request.type = 7 → ∀ l, s.leases.Has l → l.mac = e.sender →
      hostWord s.order e.request.ciaddr = l.nip → bigEndian e.request.ciaddr = l.nip)

section

variable {steps nip x t : Nat} {mac : List UInt8} {s : Server} {e : Event}

theorem spared_not_taken (hspares : Spares s e) (htype : e.request.type = 1)
    (hl : s.leases.Has ⟨x,nip,mac⟩) (hx : x = offerTime ∨ e.now ≤ x) :
    ¬TakesOver steps e.now s e.request ⟨x,nip,mac⟩ := by
  rintro ⟨hnew,hexpired,htaken⟩
  obtain ⟨hrequested,hfull⟩ := hspares.1 htype hnew
  have hoffer : x = offerTime := hx.resolve_right (Nat.not_le.mpr hexpired)
  rcases htaken with hnip | ⟨hnone,r,hlast,hrecord⟩
  · exact hrequested _ hl hnip hoffer
  · rcases hfull with ⟨ip,hstart,hend,hlow,hhigh,hfree⟩ | hlast'
    · exact findFreeNip_full hnone ip hstart hend hlow hhigh hfree
    · exact hlast' r hlast (by rwa [hrecord])

theorem offered_record_stays (hspares : Spares s e) (hseconds : offerTime ≤ s.leaseSeconds)
    (hfrom : t ≤ e.now) (hto : e.now < t + offerTime) (hkept : ¬Surrenders e nip mac)
    (hl : s.leases.Has ⟨x,nip,mac⟩) (hx : x = offerTime ∨ t + offerTime ≤ x) :
    Stays steps s e ⟨x,nip,mac⟩ fun expire => expire = offerTime ∨ t + offerTime ≤ expire := by
  refine ⟨fun expire hexpire => ?_,fun hdeclined => ?_,fun htype => ?_⟩
  · cases hexpire with
    | same => exact hx
    | offered _ _ => exact .inl rfl
    | acked _ _ => exact .inr (Nat.add_le_add hfrom hseconds)
    | released htype hmac hnip =>
      have hciaddr := hspares.2 htype _ hl hmac.symm hnip
      exact absurd ⟨hmac,.inr ⟨htype,hciaddr⟩⟩ hkept
  · exact hkept ⟨hdeclined.2.1,.inl ⟨hdeclined.1,hdeclined.2.2⟩⟩
  · exact spared_not_taken hspares htype hl (hx.imp_right fun h => (hto.le).trans h)

end

theorem offers_held_when_spared (steps : Nat) (s0 : Server) (h0 : s0.leases = noLeases)
    (hseconds : offerTime ≤ s0.leaseSeconds) (events : List Event) (t : Nat) (s : Server)
    (hrun : Run steps Spares 0 s0 events t s) : OffersHeld events := by
  rintro before offer between other after rfl nip mac mac' ⟨r,hr,hoffer⟩ ⟨r',hr',hoffer'⟩ htime
    hkept
  obtain ⟨t1,s1,hbefore,hfrom⟩ := run_append hrun
  obtain ⟨hsound1,hseconds1⟩ := run_sound (noLeases_sound h0) hbefore
  cases hfrom with
  | step hclock _ hstep hrest =>
    obtain ⟨leases,rfl,hsound2,houtcome⟩ := listenerEvent_outcome hsound1 hstep
    obtain ⟨-,-,-,hheld⟩ := outcome_offers houtcome hr hoffer
    obtain ⟨t3,s3,hbetween,hfinal⟩ := run_append hrest
    obtain ⟨hsound3,-⟩ := run_sound hsound2 hbetween
    cases hfinal with
    | step hclock' hspares' hstep' hrest' =>
      obtain ⟨x,hx,hhas⟩ := run_holds
        (P := fun x => x = offerTime ∨ offer.now + offerTime ≤ x) hsound2 hbetween
        (fun s4 e he hspares hfrom hto hseconds4 x hl hx =>
          offered_record_stays hspares (hseconds4.trans hseconds1 ▸ hseconds) hfrom
            (by omega) (hkept e he) hl hx)
        ⟨offerTime,.inl rfl,hheld⟩
      obtain ⟨leases',-,-,houtcome'⟩ := listenerEvent_outcome hsound3 hstep'
      obtain ⟨hsender,htype,horigin,-⟩ := outcome_offers houtcome' hr' hoffer'
      rcases origin_record hsound3 hhas horigin with hmac | htakes
      · exact hsender.trans hmac
      · refine absurd htakes (spared_not_taken hspares' htype hhas (hx.imp_right fun h => ?_))
        exact (htime.le).trans h

theorem pooledServer_spares (e : Event) : Spares pooledServer e := by
  have hempty := @noLeases_has pooledServer rfl
  refine ⟨fun _ _ => ⟨fun l hl => absurd hl (hempty l),.inl ⟨3232235777,?_⟩⟩,fun _ l hl => ?_⟩
  · exact ⟨by decide,by decide,by decide,by decide,rfl⟩
  · exact absurd hl (hempty l)

def offerExchange : List Event :=
  [⟨1000,message 1 1 false none,[answer 2 1 3232235777]⟩,
    ⟨1001,message 3 1 true (some 3232235777),[answer 5 1 3232235777]⟩]

theorem offerExchange_held : OffersHeld offerExchange :=
  offers_held_when_spared 3 pooledServer rfl (by decide) offerExchange _ _
    (.step (by decide) (pooledServer_spares _) rfl
      (.step (by decide) ⟨fun h => absurd h (by decide),fun h => absurd h (by decide)⟩ rfl .done))

def contestedOffer : List Event :=
  [⟨1000,message 1 1 false none,[answer 2 1 3232235777]⟩,
    ⟨1001,message 1 2 false (some 3232235777),[answer 2 2 3232235777]⟩]

theorem contestedOffer_offered_twice :
    (∃ t s, Run 3 (fun _ _ => True) 0 pooledServer contestedOffer t s) ∧
      ¬OffersHeld contestedOffer := by
  refine ⟨⟨_,_,.step (by decide) trivial rfl (.step (by decide) trivial rfl .done)⟩,fun h => ?_⟩
  have hsame := h [] _ [] _ [] rfl 3232235777 [2,0,0,0,0,1] [2,0,0,0,0,2]
    ⟨_,mem_singleton_self _,rfl,rfl,rfl⟩ ⟨_,mem_singleton_self _,rfl,rfl,rfl⟩
    (by decide) (by simp)
  exact absurd hsame (by decide)

def byteSwap (n : Nat) : Nat :=
  n % 256 * 16777216 + n / 256 % 256 * 65536 + n / 65536 % 256 * 256 + n / 16777216 % 256

def addressBytes : List UInt8 :=
  [UInt8.ofNat (nip / 16777216),UInt8.ofNat (nip / 65536),UInt8.ofNat (nip / 256),UInt8.ofNat nip]

def Renews : Prop :=
  ∃ s' reply, listenerEvent steps now s request = .ok (s',[reply]) ∧
    Acks reply lease.nip lease.mac ∧
      s'.leases.Has ⟨now + s.leaseSeconds,lease.nip,lease.mac⟩

def Obtains (nip : Nat) (request : Request) : Prop :=
  ∃ s' reply, listenerEvent steps now s request = .ok (s',[reply]) ∧
    Offers reply nip (hardwareAddress request.chaddr)

structure Asks (nip : Nat) (request : Request) : Prop where
  type : request.type = 1
  requestedIp : request.requestedIp = some nip
  sender : hardwareAddress request.chaddr ≠ macBcastAddr ∧
    hardwareAddress request.chaddr ≠ macAnyAddr
  new : ∀ l, s.leases.Has l → l.mac ≠ hardwareAddress request.chaddr

def Releases : Prop :=
  ∃ s', listenerEvent steps now s request = .ok (s',[]) ∧
    ∀ later, now < later → ∀ discover, Asks s' lease.nip discover →
      Obtains steps later s' lease.nip discover

def ServesCiaddr : Prop :=
  ∀ request : Request, hardwareAddress request.chaddr = lease.mac →
    request.ciaddr = addressBytes lease.nip →
      (request.type = 3 → request.requestedIp = none → Renews steps now s lease request) ∧
        (request.type = 7 → request.serverId = true → Releases steps now s lease request)

section

variable {steps now : Nat} {s : Server} {lease : Lease} {request : Request}

theorem bigEndian_addressBytes {nip : Nat} (h : nip < 4294967296) :
    bigEndian (addressBytes nip) = nip := by
  simp only [bigEndian,addressBytes,foldl_cons,foldl_nil,UInt8.toNat_ofNat']
  omega

theorem bigEndian_reverse_addressBytes (nip : Nat) :
    bigEndian (addressBytes nip).reverse = byteSwap nip := by
  simp only [bigEndian,addressBytes,byteSwap,reverse_cons,reverse_nil,
    nil_append,cons_append,foldl_cons,foldl_nil,UInt8.toNat_ofNat']
  omega

theorem hostWord_addressBytes {order : ByteOrder} {nip : Nat} (h : nip < 4294967296) :
    hostWord order (addressBytes nip) = nip ↔ order = .big ∨ byteSwap nip = nip := by
  cases order with
  | big => simp [hostWord,bigEndian_addressBytes h]
  | little => simp [hostWord,bigEndian_reverse_addressBytes]

theorem findLeaseByMac_has (h : Sound s) (hl : s.leases.Has lease) :
    ∃ r ∈ s.leases.list, findLeaseByMac s.leases lease.mac = some r ∧ s.leases.heap r = lease := by
  cases hfind : findLeaseByMac s.leases lease.mac with
  | none => exact absurd rfl (findLeaseByMac_none.mp hfind lease hl)
  | some r =>
    obtain ⟨hr,hmac⟩ := findLeaseByMac_some hfind
    exact ⟨r,hr,rfl,h.consistent.eq_of_owner ⟨r,hr,rfl⟩ hl hmac⟩

section

variable (h : Sound s) (hl : s.leases.Has lease) (hmac : hardwareAddress request.chaddr = lease.mac)
  (htype : request.type = 3) (hrequested : request.requestedIp = none)
include h hl hmac htype hrequested

theorem request_by_ciaddr
    (hciaddr : hostWord s.order request.ciaddr = lease.nip) : Renews steps now s lease request := by
  obtain ⟨r,hr,hfind,hrecord⟩ := findLeaseByMac_has h hl
  have hnip : renewedNip s request = lease.nip := by
    simp [renewedNip,hrequested,hciaddr]
  have husable := h.usable lease hl
  obtain ⟨leases,hadd,-,hentered⟩ := addLease_spec h husable now 0
  obtain ⟨hack,hyiaddr,hchaddr⟩ := sendPacketToClient_header (addServerOptions s
    { initPacket s request 5 with yiaddr := lease.nip, leaseTime := some s.leaseSeconds })
  refine ⟨{ s with leases := leases },_,?_,⟨hack,hyiaddr,husable.1,?_⟩,
    entered_self hentered⟩
  · unfold listenerEvent handleRequest sendAck
    simp only [htype,hmac,hfind,hnip,hrecord,husable.1,if_false,if_true,hadd,
      Option.getD_some]
  · rw [hchaddr]
    exact hmac

theorem request_refused (hciaddr : hostWord s.order request.ciaddr ≠ lease.nip) :
    ¬Renews steps now s lease request := by
  obtain ⟨r,hr,hfind,hrecord⟩ := findLeaseByMac_has h hl
  have hnip : renewedNip s request ≠ lease.nip := by
    simpa [renewedNip,hrequested] using hciaddr
  rintro ⟨s',reply,hstep,hack,-⟩
  unfold listenerEvent handleRequest at hstep
  simp only [htype,hmac,hfind,hrecord,hnip,if_false] at hstep
  split at hstep
  · cases hstep
  split at hstep
  · cases hstep
    exact (sendNak_silent _ _).2 hack
  · cases hstep

end

theorem discover_obtains (h : Sound s) {nip : Nat} (hasks : Asks s nip request)
    (hcheck : checkRequestedNip now s nip = true) : Obtains steps now s nip request := by
  have hrange := ((checkRequestedNip_iff h).mp hcheck).1
  have husable : Usable s nip (hardwareAddress request.chaddr) :=
    ⟨hrange.1,hrange.2.1,hrange.2.2,hasks.sender⟩
  obtain ⟨leases,hadd,-,-⟩ := addLease_spec h husable now offerTime
  obtain ⟨hoffer,hyiaddr,hchaddr⟩ := sendPacketToClient_header (addServerOptions
    { s with leases := leases } { initPacket { s with leases := leases } request 2 with
      yiaddr := nip, leaseTime := some s.leaseSeconds })
  refine ⟨{ s with leases := leases },_,?_,⟨hoffer,hyiaddr,congrArg _ hchaddr⟩⟩
  unfold listenerEvent sendOffer offeredNip
  simp only [hasks.type,findLeaseByMac_none.mpr hasks.new,hasks.requestedIp,Option.getD_some,
    hcheck,if_true,bind_ok,hrange.1,if_false,hadd]

theorem release_by_ciaddr (h : Sound s) (hl : s.leases.Has lease)
    (hmac : hardwareAddress request.chaddr = lease.mac) (htype : request.type = 7)
    (hserver : request.serverId = true) (hciaddr : hostWord s.order request.ciaddr = lease.nip) :
    Releases steps now s lease request := by
  obtain ⟨r,hr,hfind,hrecord⟩ := findLeaseByMac_has h hl
  obtain ⟨hsound,hhas⟩ := leaseSetExpire_sound h hr now
  refine ⟨{ s with leases := leaseSetExpire s.leases r now },?_,?_⟩
  · unfold listenerEvent handleRelease
    simp only [htype,hmac,hfind,hserver,hciaddr,hrecord,and_self,if_true]
  intro later hlater discover hasks
  refine discover_obtains hsound hasks ((checkRequestedNip_iff hsound).mpr ⟨?_,?_⟩)
  · have husable := h.usable lease hl
    exact ⟨husable.1,husable.2.1,husable.2.2.1⟩
  intro l hl' hnip
  rcases (hhas l).mp hl' with rfl | ⟨hold,hne⟩
  · exact (Nat.mod_le now _).trans_lt hlater
  · rw [hrecord] at hne
    exact absurd (h.consistent.eq_of_key hold hl hnip) hne

theorem ciaddr_served_iff (steps now : Nat) (s : Server) (h : Sound s)
    (hrange : s.endIp < 4294967296) (lease : Lease) (hl : s.leases.Has lease)
    (hlength : lease.mac.length = 6) :
    ServesCiaddr steps now s lease ↔ s.order = .big ∨ byteSwap lease.nip = lease.nip := by
  have husable := h.usable lease hl
  have hnip : lease.nip < 4294967296 := husable.2.2.1.trans_lt hrange
  rw [← hostWord_addressBytes hnip]
  constructor
  · intro hserves
    let request : Request :=
      { type := 3, serverId := false, requestedIp := none, xid := [0,0,0,0], flags := [0,0]
        ciaddr := addressBytes lease.nip, gateway := [0,0,0,0], chaddr := lease.mac }
    have hmac : hardwareAddress request.chaddr = lease.mac := take_of_length_le hlength.le
    by_contra hword
    exact request_refused h hl hmac rfl rfl hword ((hserves request hmac rfl).1 rfl rfl)
  intro hword request hmac hciaddr
  rw [← hciaddr] at hword
  exact ⟨fun htype hrequested => request_by_ciaddr h hl hmac htype hrequested hword,
    fun htype hserver => release_by_ciaddr h hl hmac htype hserver hword⟩

end

def heldLease : Lease := ⟨5000,3232235778,[2,0,0,0,0,1]⟩

def leasedServer (order : ByteOrder) : Server :=
  { pooledServer with
    order
    leases := ⟨[0],fun k => if k = 3232235778 then some 0 else none,fun _ => heldLease,1⟩ }

theorem leasedServer_sound (order : ByteOrder) : Sound (leasedServer order) := by
  have hone : ∀ r ∈ (leasedServer order).leases.list, r = 0 := fun r hr => List.mem_singleton.mp hr
  refine ⟨⟨nodup_singleton 0,fun k r => ?_,fun r hr r' hr' _ => ?_,fun r hr => ?_⟩,?_⟩
  · change (if k = 3232235778 then some 0 else none) = some r ↔ r ∈ [0] ∧ heldLease.nip = k
    by_cases hk : k = 3232235778 <;> simp [hk,heldLease,eq_comm]
  · rw [hone r hr,hone r' hr']
  · rw [hone r hr]
    exact Nat.zero_lt_one
  · rintro l ⟨r,-,rfl⟩
    have husable : Usable pooledServer heldLease.nip heldLease.mac := by decide
    exact husable

theorem leasedServer_served : ServesCiaddr 3 4000 (leasedServer .big) heldLease :=
  (ciaddr_served_iff 3 4000 (leasedServer .big) (leasedServer_sound .big) (by decide) heldLease
    ⟨0,mem_singleton_self 0,rfl⟩ rfl).mpr (.inl rfl)

def renewal : Request := { message 3 1 false none with ciaddr := addressBytes 3232235778 }

theorem renewal_unanswered :
    Sound (leasedServer .little) ∧ (leasedServer .little).leases.Has heldLease ∧
      4000 ≤ heldLease.expire ∧
        (listenerEvent 3 4000 (leasedServer .little) renewal).map Prod.snd = .ok [] :=
  ⟨leasedServer_sound .little,⟨0,mem_singleton_self 0,rfl⟩,by decide,rfl⟩

end FuzzingTargets.DhcpServer
