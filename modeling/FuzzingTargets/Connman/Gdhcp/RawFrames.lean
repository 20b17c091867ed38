import FuzzingTargets.Connman.Gdhcp.OptionBuilding

namespace FuzzingTargets.Gdhcp
open Bytes Checked LittleEndian TaggedOptions List

variable (received : List UInt8)

section

variable {packet : List UInt8} {received : List UInt8}

theorem copySize_accepted (h : Accepted received) :
    copySize received = .ok (some (sizeT ((totLen received : Int) - headersSize))) := by
  rw [copySize,checkFrame_kept h,bind_ok]
  rfl

theorem word_clearIpCheck {i : Nat} (h : 12 ≤ i) : word (clearIpCheck packet) i = word packet i := by
  unfold word clearIpCheck
  rw [drop_set_of_lt (by omega),drop_set_of_lt (by omega)]

end

def CopyValid : Prop :=
  ∃ size, copySize received = .ok size ∧
    ∀ n ∈ size, n ≤ packetSize ∧ n ≤ received.length

theorem l2_copy_valid_iff (received : List UInt8) :
    CopyValid received ↔ (Accepted received → headersSize ≤ totLen received) := by
  constructor
  · rintro ⟨size,hsize,hvalid⟩ haccepted
    rw [copySize_accepted haccepted] at hsize
    cases hsize
    have hfits := (hvalid _ rfl).1
    by_contra hshort
    have hwraps := sizeT_short (not_le.mp hshort)
    omega
  intro hlong
  by_cases haccepted : Accepted received
  · have hwhole := haccepted.whole
    refine ⟨_,copySize_accepted haccepted,fun n hn => ?_⟩
    cases hn
    rw [sizeT_long haccepted (hlong haccepted)]
    omega
  · refine ⟨none,?_,nofun⟩
    rw [copySize,checkFrame_dropped haccepted,bind_ok]
    rfl

def headerOnlyFrame : List UInt8 :=
  [69,0,0,20,0,0,0,0,64,17,122,218,0,0,0,0,0,0,0,0,0,0,0,68,0,0,0,0]

theorem headerOnlyFrame_copy_wraps : ¬CopyValid headerOnlyFrame := by
  rintro ⟨size,hsize,hvalid⟩
  have hcopy : copySize headerOnlyFrame = .ok (some 18446744073709551608) := by decide +kernel
  rw [hcopy] at hsize
  cases hsize
  exact absurd (hvalid _ rfl).1 (by decide)

def clientPort : Int := 68

def extendForBuggyServers : Nat := 80

def ipUdpDhcpSize : Nat := headersSize + packetSize - extendForBuggyServers

def udpDhcpSize : Nat := ipUdpDhcpSize - 20

structure Address where
  bytes : List UInt8
  bytes_length : bytes.length = 4

theorem Address.bytes_eq (x : Address) : ∃ a b c d, x.bytes = [a,b,c,d] := by
  obtain ⟨bytes,hlength⟩ := x
  match bytes, hlength with
  | [a,b,c,d], _ => exact ⟨a,b,c,d,rfl⟩

structure DhcpPacket where
  bytes : List UInt8
  bytes_length : bytes.length = packetSize

structure IpUdpDhcpPacket where
  version : Nat
  ihl : Nat
  tos : UInt8
  totLen : Nat
  id : Nat
  fragOff : Nat
  ttl : UInt8
  protocol : UInt8
  check : Nat
  saddr : Address
  daddr : Address
  source : Nat
  dest : Nat
  len : Nat
  udpCheck : Nat
  data : DhcpPacket

def IpUdpDhcpPacket.ip (p : IpUdpDhcpPacket) : List UInt8 :=
  [UInt8.ofNat (16 * p.version + p.ihl),p.tos] ++ putBe16 p.totLen ++ putBe16 p.id ++
    putBe16 p.fragOff ++ [p.ttl,p.protocol] ++ le 2 p.check ++ p.saddr.bytes ++ p.daddr.bytes

def IpUdpDhcpPacket.udp (p : IpUdpDhcpPacket) : List UInt8 :=
  putBe16 p.source ++ putBe16 p.dest ++ putBe16 p.len ++ le 2 p.udpCheck

def IpUdpDhcpPacket.bytes (p : IpUdpDhcpPacket) : List UInt8 := p.ip ++ (p.udp ++ p.data.bytes)

def noAddress : Address := ⟨[0,0,0,0],rfl⟩

def zeroedPacket (data : DhcpPacket) : IpUdpDhcpPacket :=
  { version := 0, ihl := 0, tos := 0, totLen := 0, id := 0, fragOff := 0, ttl := 0, protocol := 0,
    check := 0, saddr := noAddress, daddr := noAddress, source := 0, dest := 0, len := 0,
    udpCheck := 0, data }

def DhcpPacket.setBroadcast (p : DhcpPacket) : DhcpPacket where
  bytes := p.bytes.set 10 (p.bytes.getD 10 0 ||| 0x80)
  bytes_length := by rw [length_set,p.bytes_length]

def htons (port : Int) : Nat := (port % 65536).toNat

structure Sent where
  dhcpPkt : DhcpPacket
  frame : List UInt8

variable (dhcpPkt : DhcpPacket) (sourceIp : Address) (sourcePort : Int) (destIp : Address)

def rawPacket (destPort : Int) : IpUdpDhcpPacket :=
  let packet := zeroedPacket dhcpPkt
  let packet := { packet with
    protocol := 17, saddr := sourceIp, daddr := destIp,
    source := htons sourcePort, dest := htons destPort, len := udpDhcpSize }
  let packet := { packet with totLen := packet.len }
  let packet := { packet with udpCheck := dhcpChecksum (packet.bytes.take ipUdpDhcpSize) }
  let packet := { packet with totLen := ipUdpDhcpSize, ihl := 5, version := 4, ttl := 64 }
  { packet with check := dhcpChecksum packet.ip }

def dhcpSendRawPacket (destPort : Int) (bcast : Bool) : Sent :=
  let dhcpPkt := if bcast then dhcpPkt.setBroadcast else dhcpPkt
  let packet := rawPacket dhcpPkt sourceIp sourcePort destIp destPort
  ⟨dhcpPkt,packet.bytes.take ipUdpDhcpSize⟩

structure DhcpPacket.HasCookie (p : DhcpPacket) : Prop where
  cookie : (p.bytes.drop 236).take 4 = dhcpMagic

def setWord (bs : List UInt8) (i : Nat) (w : UInt16) : List UInt8 :=
  (bs.set i (UInt8.ofNat w.toNat)).set (i + 1) (UInt8.ofNat (w.toNat / 256))

def SwapsZero (old new : Nat) : Prop := old = 0 ∧ new = 65535 ∨ old = 65535 ∧ new = 0

section

variable {bs : List UInt8} {w : UInt16}

theorem foldSum_mod (fuel s : Nat) : foldSum fuel s % 65535 = s % 65535 := by
  induction fuel generalizing s with
  | zero => rfl
  | succ fuel ih =>
    rw [foldSum]
    split
    · rfl
    · rw [ih]
      omega

theorem foldSum_le {s : Nat} (h : s < 2147483648) : foldSum 4 s ≤ 65535 := by
  simp only [foldSum]
  split
  · omega
  split
  · omega
  split
  · omega
  split <;> omega

theorem sumWords_le (bs : List UInt8) : sumWords bs ≤ 65535 * bs.length := by
  induction bs using sumWords.induct with
  | case1 a b rest ih =>
    have ha := a.toNat_lt
    have hb := b.toNat_lt
    simp only [sumWords,length_cons]
    omega
  | case2 a =>
    have ha := a.toNat_lt
    simp only [sumWords,length_cons,length_nil]
    omega
  | case3 => exact Nat.le_refl 0

theorem dhcpChecksum_le (bs : List UInt8) : dhcpChecksum bs < 65536 := by
  unfold dhcpChecksum
  omega

theorem sumWords_mod_of_checksum {bs bs' : List UInt8} (hlen : bs.length ≤ 1024)
    (hlen' : bs'.length ≤ 1024) (h : dhcpChecksum bs = dhcpChecksum bs') :
    sumWords bs % 65535 = sumWords bs' % 65535 := by
  have hsum := sumWords_le bs
  have hsum' := sumWords_le bs'
  have hle := @foldSum_le (sumWords bs) (by omega)
  have hle' := @foldSum_le (sumWords bs') (by omega)
  unfold dhcpChecksum at h
  have hfold : foldSum 4 (sumWords bs) = foldSum 4 (sumWords bs') := by omega
  rw [← foldSum_mod 4 (sumWords bs),hfold,foldSum_mod]

theorem word_lt (bs : List UInt8) (i : Nat) : word bs i < 65536 := by
  have hlt := ofLe_lt ((bs.drop i).take 2)
  have hlen : ((bs.drop i).take 2).length ≤ 2 := length_take_le 2 _
  have hpow : 256 ^ ((bs.drop i).take 2).length ≤ 256 ^ 2 := Nat.pow_le_pow_right (by decide) hlen
  unfold word
  omega

theorem word_eq {i : Nat} (h : i + 1 < bs.length) :
    word bs i = (bs.get ⟨i,by omega⟩).toNat + 256 * (bs.get ⟨i + 1,h⟩).toNat := by
  have hlt : i < bs.length := by omega
  rw [word,drop_eq_getElem_cons hlt,drop_eq_getElem_cons h]
  rfl

theorem setWord_length (bs : List UInt8) (i : Nat) (w : UInt16) :
    (setWord bs i w).length = bs.length := by
  simp [setWord]

theorem word_setWord_self {i : Nat} (h : i + 1 < bs.length) : word (setWord bs i w) i = w.toNat := by
  have hw := w.toNat_lt
  rw [word_eq (by rwa [setWord_length])]
  simp only [setWord,get_eq_getElem,getElem_set,if_true]
  rw [if_neg (by omega),UInt8.toNat_ofNat',UInt8.toNat_ofNat']
  omega

theorem word_setWord_of_ne {i j : Nat} (h : j + 1 < bs.length) (hne : i + 1 < j ∨ j + 1 < i) :
    word (setWord bs i w) j = word bs j := by
  rw [word_eq (by rwa [setWord_length]),word_eq h]
  simp only [setWord,get_eq_getElem,getElem_set]
  rw [if_neg (by omega),if_neg (by omega),if_neg (by omega),if_neg (by omega)]

theorem exists_first_word (h : 1 < bs.length) : ∃ a b rest, bs = a :: b :: rest := by
  rcases bs with _ | ⟨a,_ | ⟨b,rest⟩⟩
  · simp at h
  · simp at h
  · exact ⟨a,b,rest,rfl⟩

theorem sumWords_setWord (k : Nat) (h : 2 * k + 1 < bs.length) :
    sumWords (setWord bs (2 * k) w) + word bs (2 * k) = sumWords bs + w.toNat := by
  induction k generalizing bs with
  | zero =>
    obtain ⟨a,b,rest,rfl⟩ := exists_first_word (by omega : 1 < bs.length)
    have hw := w.toNat_lt
    simp only [setWord,set_cons_zero,set_cons_succ,sumWords,word,Nat.mul_zero,
      drop_zero,take_succ_cons,take_zero,ofLe,UInt8.toNat_ofNat']
    omega
  | succ k ih =>
    obtain ⟨a,b,rest,rfl⟩ := exists_first_word (by omega : 1 < bs.length)
    have hrest : 2 * k + 1 < rest.length := by
      simp only [length_cons] at h
      omega
    have hword : word (a :: b :: rest) (2 * k + 2) = word rest (2 * k) := rfl
    have hsum := ih hrest
    change sumWords (a :: b :: setWord rest (2 * k) w) + word (a :: b :: rest) (2 * k + 2) = _
    rw [hword,sumWords,sumWords]
    omega

theorem checksum_setWord {k : Nat} (hlen : bs.length ≤ 1024) (h : 2 * k + 1 < bs.length)
    (hne : word bs (2 * k) ≠ w.toNat) (hswap : ¬SwapsZero (word bs (2 * k)) w.toNat) :
    dhcpChecksum (setWord bs (2 * k) w) ≠ dhcpChecksum bs := by
  intro hsame
  have hmod := sumWords_mod_of_checksum (by rwa [setWord_length]) hlen hsame
  have hsum := @sumWords_setWord bs w k h
  have hold := word_lt bs (2 * k)
  have hnew := w.toNat_lt
  unfold SwapsZero at hswap
  omega

end

def IpUdpDhcpPacket.pseudo (p : IpUdpDhcpPacket) : IpUdpDhcpPacket :=
  { p with version := 0, ihl := 0, tos := 0, totLen := p.len, id := 0, fragOff := 0, ttl := 0,
           check := 0, udpCheck := 0 }

structure IpUdpDhcpPacket.WellSent (p : IpUdpDhcpPacket) : Prop where
  version : p.version = 4
  ihl : p.ihl = 5
  totLen : p.totLen = ipUdpDhcpSize
  protocol : p.protocol = 17
  dest : p.dest = 68
  len : p.len = udpDhcpSize
  check : p.check = dhcpChecksum { p with check := 0 }.ip
  udpCheck : p.udpCheck = dhcpChecksum (p.pseudo.bytes.take ipUdpDhcpSize)

namespace IpUdpDhcpPacket

variable (p : IpUdpDhcpPacket) (rest : List UInt8)

theorem be16_ofNat (n : Nat) : be16 (UInt8.ofNat (n / 256)) (UInt8.ofNat n) = n % 65536 := by
  simp only [be16,UInt8.toNat_ofNat']
  omega

theorem ip_length : p.ip.length = 20 := by
  simp [ip,putBe16,p.saddr.bytes_length,p.daddr.bytes_length]

theorem udp_length : p.udp.length = 8 := by
  simp [udp,putBe16]

theorem take_frame : (p.ip ++ (p.udp ++ rest)).take ipUdpDhcpSize =
    p.ip ++ (p.udp ++ rest.take (packetSize - extendForBuggyServers)) := by
  rw [take_append,take_append,p.ip_length,p.udp_length,
    take_of_length_le (by rw [p.ip_length]; decide),
    take_of_length_le (by rw [p.udp_length]; decide)]
  rfl

theorem frame_length : (p.bytes.take ipUdpDhcpSize).length = ipUdpDhcpSize := by
  rw [length_take,bytes,length_append,length_append,p.ip_length,p.udp_length,
    p.data.bytes_length]
  rfl

theorem localPacket_frame : localPacket (p.bytes.take ipUdpDhcpSize) =
    p.ip ++ (p.udp ++ (p.data.bytes.take (packetSize - extendForBuggyServers) ++
      replicate extendForBuggyServers 0)) := by
  rw [localPacket,zeroPad,p.frame_length,take_of_length_le (by rw [p.frame_length]; decide),
    bytes,p.take_frame,append_assoc,append_assoc]
  rfl

theorem clearIpCheck_frame :
    clearIpCheck (p.ip ++ rest) = { p with check := 0 }.ip ++ rest := by
  simp [clearIpCheck,ip,putBe16,le]

theorem pseudoHeader_frame :
    pseudoHeader ({ p with check := 0 }.ip ++ (p.udp ++ rest)) =
      p.pseudo.ip ++ (p.pseudo.udp ++ rest) := by
  obtain ⟨s0,s1,s2,s3,hsaddr⟩ := p.saddr.bytes_eq
  obtain ⟨d0,d1,d2,d3,hdaddr⟩ := p.daddr.bytes_eq
  simp [pseudoHeader,pseudo,ip,udp,putBe16,le,hsaddr,hdaddr]

theorem netWord_totLen : netWord (p.ip ++ rest) 2 = p.totLen % 65536 := be16_ofNat p.totLen

theorem word_udpCheck : word (p.ip ++ (p.udp ++ rest)) 26 = p.udpCheck % 65536 := by
  have hdrop : (p.ip ++ (p.udp ++ rest)).drop 26 = (p.udp ++ rest).drop 6 := by
    rw [drop_append,p.ip_length,drop_of_length_le (by rw [p.ip_length]; decide)]
    rfl
  rw [word,hdrop]
  exact ofLe_le 2 p.udpCheck

theorem netWord_udp : netWord (p.ip ++ (p.udp ++ rest)) 22 = p.dest % 65536 ∧
    netWord (p.ip ++ (p.udp ++ rest)) 24 = p.len % 65536 := by
  obtain ⟨s0,s1,s2,s3,hsaddr⟩ := p.saddr.bytes_eq
  obtain ⟨d0,d1,d2,d3,hdaddr⟩ := p.daddr.bytes_eq
  rw [ip,hsaddr,hdaddr]
  exact ⟨be16_ofNat p.dest,be16_ofNat p.len⟩

theorem sanityCheck_frame (h : p.WellSent) :
    sanityCheck (p.ip ++ (p.udp ++ rest)) ipUdpDhcpSize = true := by
  have hprotocol : (p.ip ++ (p.udp ++ rest)).getD 9 0 = p.protocol := rfl
  have hversion : (p.ip ++ (p.udp ++ rest)).getD 0 0 = UInt8.ofNat (16 * p.version + p.ihl) := rfl
  simp only [sanityCheck,hprotocol,hversion,p.netWord_udp,h.version,h.ihl,
    h.protocol,h.dest,h.len]
  decide

theorem totLen_frame (h : p.WellSent) :
    Gdhcp.totLen (p.bytes.take ipUdpDhcpSize) = ipUdpDhcpSize := by
  rw [Gdhcp.totLen,p.localPacket_frame,p.netWord_totLen,h.totLen]
  rfl

theorem accepted_frame (h : p.WellSent) : Accepted (p.bytes.take ipUdpDhcpSize) := by
  have htotal := p.totLen_frame h
  constructor
  · rw [p.frame_length]
    decide
  · rw [htotal,p.frame_length]
    decide
  · rw [htotal,p.localPacket_frame]
    exact p.sanityCheck_frame _ h
  · rw [p.localPacket_frame,show word (p.ip ++ _) 10 = p.check % 65536 from ofLe_le 2 p.check,p.clearIpCheck_frame,take_left' (ip_length _),h.check]
    exact Nat.mod_eq_of_lt (dhcpChecksum_le _)
  refine .inr ?_
  rw [htotal,word_clearIpCheck (by decide),p.localPacket_frame,p.word_udpCheck,
    p.clearIpCheck_frame,p.pseudoHeader_frame,h.udpCheck,
    Nat.mod_eq_of_lt (dhcpChecksum_le _),bytes,p.pseudo.take_frame,p.pseudo.take_frame,
    take_left' (by rw [length_take,p.data.bytes_length]; decide)]
  rfl

end IpUdpDhcpPacket

section

variable {bs received : List UInt8} {i j : Nat} {w : UInt16}

theorem setWord_comm (h : i + 1 < j ∨ j + 1 < i) (v : UInt16) :
    setWord (setWord bs i w) j v = setWord (setWord bs j v) i w := by
  unfold setWord
  rw [set_comm _ _ (show i + 1 ≠ j by omega),set_comm _ _ (show i ≠ j by omega),
    set_comm _ _ (by omega),set_comm _ _ (show i ≠ j + 1 by omega)]

theorem setWord_setWord (v : UInt16) : setWord (setWord bs i w) i v = setWord bs i v := by
  unfold setWord
  rw [set_comm _ _ (show i + 1 ≠ i by omega),set_set,set_set]

theorem clearIpCheck_eq_setWord (bs : List UInt8) : clearIpCheck bs = setWord bs 10 0 := rfl

theorem word_take {n : Nat} (h : i + 2 ≤ n) : word (bs.take n) i = word bs i := by
  rw [word,drop_take,take_take,Nat.min_eq_left (by omega),word]

theorem word_append {rest : List UInt8} (h : i + 2 ≤ bs.length) :
    word (bs ++ rest) i = word bs i := by
  rw [word,drop_append_of_le_length (by omega),
    take_append_of_le_length (by rw [length_drop]; omega),word]

theorem localPacket_of_le (h : received.length ≤ headersSize + packetSize) : localPacket received =
      received ++ replicate (headersSize + packetSize - received.length) 0 := by
  rw [localPacket,zeroPad,take_of_length_le h]

theorem localPacket_setWord (h : received.length ≤ headersSize + packetSize)
    (hi : i + 1 < received.length) :
    localPacket (setWord received i w) = setWord (localPacket received) i w := by
  rw [localPacket_of_le (by rwa [setWord_length]),localPacket_of_le h,setWord_length]
  unfold setWord
  rw [set_append_left _ _ (by omega),set_append_left _ _ (by simpa using hi)]

theorem checksum_altered {bs : List UInt8} (hlen : 20 ≤ bs.length) (hi : i < 10)
    (hcheck : word bs 10 = dhcpChecksum ((clearIpCheck bs).take 20))
    (hne : word bs (2 * i) ≠ w.toNat) (hswap : ¬SwapsZero (word bs (2 * i)) w.toNat) :
    word (setWord bs (2 * i) w) 10 ≠
      dhcpChecksum ((clearIpCheck (setWord bs (2 * i) w)).take 20) := by
  by_cases hfive : i = 5
  · subst hfive
    rw [clearIpCheck_eq_setWord,setWord_setWord,← clearIpCheck_eq_setWord,← hcheck,
      word_setWord_self (by omega)]
    exact Ne.symm hne
  have hapart : 2 * i + 1 < 10 ∨ 10 + 1 < 2 * i := by omega
  have hword : word ((clearIpCheck bs).take 20) (2 * i) = word bs (2 * i) := by
    rw [word_take (by omega),clearIpCheck_eq_setWord,word_setWord_of_ne (by omega) (by omega)]
  have hlength : ((clearIpCheck bs).take 20).length = 20 := by
    rw [length_take,clearIpCheck_length]
    omega
  rw [word_setWord_of_ne (by omega) hapart,hcheck,clearIpCheck_eq_setWord (setWord _ _ _),
    setWord_comm hapart,← clearIpCheck_eq_setWord,setWord,take_set,take_set]
  exact Ne.symm (checksum_setWord (by omega) (by omega) (by rwa [hword]) (by rwa [hword]))

theorem not_accepted_altered (h : Accepted received)
    (hlength : received.length ≤ headersSize + packetSize) (hi : i < 10)
    (hne : word received (2 * i) ≠ w.toNat) (hswap : ¬SwapsZero (word received (2 * i)) w.toNat) :
    ¬Accepted (setWord received (2 * i) w) := by
  have hlong : 28 ≤ received.length := h.long
  have hlocal : word (localPacket received) (2 * i) = word received (2 * i) := by
    rw [localPacket_of_le hlength,word_append (by omega)]
  intro haltered
  have hcheck := haltered.ipCheck
  rw [localPacket_setWord hlength (by omega)] at hcheck
  refine checksum_altered ?_ hi h.ipCheck (by rwa [hlocal]) (by rwa [hlocal]) hcheck
  rw [localPacket_length]
  decide

end

def dhcpBytesSent : Nat := packetSize - extendForBuggyServers

namespace IpUdpDhcpPacket

variable (p : IpUdpDhcpPacket)

theorem daddr_frame (rest : List UInt8) : ((p.ip ++ rest).drop 16).take 4 = p.daddr.bytes := by
  obtain ⟨s0,s1,s2,s3,hsaddr⟩ := p.saddr.bytes_eq
  obtain ⟨d0,d1,d2,d3,hdaddr⟩ := p.daddr.bytes_eq
  rw [ip,hsaddr,hdaddr]
  rfl

theorem copyL2_frame (stale : List UInt8) :
    copyL2 stale (localPacket (p.bytes.take ipUdpDhcpSize)) dhcpBytesSent =
      .ok (p.data.bytes.take dhcpBytesSent ++ stale.drop dhcpBytesSent) := by
  have hlength : (p.data.bytes.take dhcpBytesSent).length = dhcpBytesSent := by
    rw [length_take,p.data.bytes_length]
    rfl
  rw [copyL2,if_neg (by decide),p.localPacket_frame,← append_assoc,
    drop_left' (by rw [length_append,ip_length,udp_length]; rfl)]
  exact congrArg (fun copied => Except.ok (copied ++ stale.drop dhcpBytesSent))
    (take_left' hlength)

theorem recvL2_frame (h : p.WellSent) (hcookie : p.data.HasCookie) (stale : List UInt8) :
    recvL2 stale (p.bytes.take ipUdpDhcpSize) = .ok (some ⟨dhcpBytesSent,
      p.data.bytes.take dhcpBytesSent ++ stale.drop dhcpBytesSent,p.daddr.bytes⟩) := by
  have hmagic : ((p.data.bytes.take dhcpBytesSent ++ stale.drop dhcpBytesSent).drop 236).take 4 =
      dhcpMagic := by
    have hlength : (p.data.bytes.take dhcpBytesSent).length = 548 := by
      rw [length_take,p.data.bytes_length]
      rfl
    rw [drop_append_of_le_length (by omega),take_append_of_le_length (by rw [length_drop]; omega),
      drop_take,take_take,← hcookie.cookie]
    rfl
  have hsize : sizeT ((ipUdpDhcpSize : Int) - headersSize) = dhcpBytesSent := by decide
  rw [recvL2,checkFrame_kept (p.accepted_frame h),bind_ok,p.totLen_frame h]
  dsimp only
  rw [hsize,p.copyL2_frame,bind_ok,if_neg (not_not.mpr hmagic),p.localPacket_frame,
    p.daddr_frame]
  rfl

end IpUdpDhcpPacket

theorem setBroadcast_hasCookie {p : DhcpPacket} (h : p.HasCookie) : p.setBroadcast.HasCookie := by
  constructor
  rw [DhcpPacket.setBroadcast,drop_set_of_lt (by decide)]
  exact h.cookie

theorem raw_frame_received (dhcpPkt stale : DhcpPacket) (hcookie : dhcpPkt.HasCookie)
    (sourceIp destIp : Address) (sourcePort : Int) (bcast : Bool) :
    let sent := dhcpSendRawPacket dhcpPkt sourceIp sourcePort destIp clientPort bcast
    recvL2 stale.bytes sent.frame = .ok (some ⟨packetSize - extendForBuggyServers,
      sent.dhcpPkt.bytes.take (packetSize - extendForBuggyServers) ++
        stale.bytes.drop (packetSize - extendForBuggyServers),destIp.bytes⟩) ∧
    ∀ i < 10, ∀ w : UInt16, word sent.frame (2 * i) ≠ w.toNat →
      ¬SwapsZero (word sent.frame (2 * i)) w.toNat →
      recvL2 stale.bytes (setWord sent.frame (2 * i) w) = .ok none := by
  have hkept : (if bcast then dhcpPkt.setBroadcast else dhcpPkt).HasCookie := by
    split
    · exact setBroadcast_hasCookie hcookie
    · exact hcookie
  generalize hdata : (if bcast then dhcpPkt.setBroadcast else dhcpPkt) = data at hkept
  have hsent : (rawPacket data sourceIp sourcePort destIp clientPort).WellSent :=
    ⟨rfl,rfl,rfl,rfl,rfl,rfl,rfl,rfl⟩
  rw [dhcpSendRawPacket,hdata]
  constructor
  · exact IpUdpDhcpPacket.recvL2_frame _ hsent hkept _
  intro i hi w hne hswap
  rw [recvL2,checkFrame_dropped (not_accepted_altered (IpUdpDhcpPacket.accepted_frame _ hsent) ?_ hi hne
    hswap),bind_ok]
  rw [IpUdpDhcpPacket.frame_length]
  decide

def blankDiscover : DhcpPacket where
  bytes := replicate 236 0 ++ dhcpMagic ++ replicate 388 255
  bytes_length := by
    rw [length_append,length_append,length_replicate,length_replicate]
    rfl

theorem blankDiscover_received :
    blankDiscover.HasCookie ∧
      (recvL2 blankDiscover.bytes (dhcpSendRawPacket blankDiscover noAddress 67 noAddress clientPort
        true).frame).toOption.map (·.map L2Packet.bytes) = some (some 548) := by
  have hcookie : blankDiscover.HasCookie := ⟨by decide +kernel⟩
  refine ⟨hcookie,?_⟩
  rw [(raw_frame_received blankDiscover blankDiscover hcookie noAddress noAddress 67 true).1]
  rfl

theorem keptOptions_fit (type : UInt8) (opts : List (Tagged 0 255)) :
    (encode ((keptOptions type opts).map Item.option)).length < 307 := by
  have hkeep : ∀ kept : List (Tagged 0 255), (encode (kept.map Item.option)).length < 307 →
      (encode ((opts.foldl keep kept).map Item.option)).length < 307 := by
    induction opts with
    | nil => exact fun _ => id
    | cons o opts ih =>
      refine fun kept h => ih _ ?_
      by_cases hroom : Room kept o
      · have hsnoc := congrArg length (encode_snoc kept o [])
        rw [keep,if_pos hroom]
        unfold Room dhcpOptionsBufsize at hroom
        simp only [length_append,o.bytes_length,length_nil] at hsnoc
        omega
      · rwa [keep,if_neg hroom]
  exact hkeep _ (by change 3 < 307; decide)

theorem Holds.cut {options tail : List UInt8} {kept : List (Tagged 0 255)} (h : Holds options kept)
    (hfit : (encode (kept.map Item.option)).length < 307) (htail : tail.length = 80) :
    Holds (options.take 308 ++ tail) kept := by
  obtain ⟨rest,hrest⟩ := h.ended
  refine ⟨?_,⟨rest.take (307 - (encode (kept.map Item.option)).length) ++ tail,?_⟩,h.noOverload⟩
  · rw [length_append,length_take,h.size,htail]
    rfl
  · have hn : 308 - (encode (kept.map Item.option)).length =
        307 - (encode (kept.map Item.option)).length + 1 := by omega
    rw [hrest,take_append,take_of_length_le (by omega),hn,take_succ_cons,append_assoc,
      cons_append]

theorem built_options_received (type : UInt8) (opts : List (Tagged 0 255))
    (hopts : ∀ o ∈ opts, o.code ≠ 0x34) (stale : DhcpPacket) (sourceIp destIp : Address)
    (sourcePort : Int) :
    ∃ options p received, build type (opts.map fun o => .binary (binary o)) = .ok options ∧
      p.bytes = initHeader type ++ options ∧
      recvL2 stale.bytes (dhcpSendRawPacket p sourceIp sourcePort destIp clientPort false).frame =
        .ok (some received) ∧
      ∀ code, ReadsBack (valueBytes received.packet) (keptOptions type opts) code := by
  obtain ⟨start,hinit,hstart⟩ := initOptions_holds type
  obtain ⟨options,hbuild,hholds⟩ := buildFrom_keeps hstart hopts
  have hheader : (initHeader type).length = 240 := rfl
  let p : DhcpPacket := ⟨initHeader type ++ options,by rw [length_append,hheader,hholds.size]; rfl⟩
  have hcookie : p.HasCookie := ⟨rfl⟩
  refine ⟨options,p,_,by rw [build,hinit,bind_ok,hbuild],rfl,
    IpUdpDhcpPacket.recvL2_frame _ ⟨rfl,rfl,rfl,rfl,rfl,rfl,rfl,rfl⟩ hcookie stale.bytes,?_⟩
  have hcut := @Holds.cut _ (stale.bytes.drop 548) _ hholds (keptOptions_fit type opts)
    (by rw [length_drop,stale.bytes_length]; rfl)
  have hpacket : (initHeader type ++ options).take 548 ++ stale.bytes.drop 548 =
      initHeader type ++ (options.take 308 ++ stale.bytes.drop 548) := by
    rw [take_append,hheader,take_of_length_le (by rw [hheader]; decide),append_assoc]
  intro code
  change ReadsBack (valueBytes ((initHeader type ++ options).take 548 ++ stale.bytes.drop 548)) _ _
  rw [hpacket]
  exact readsBack_of_holds hcut type code

theorem hostname_received : ∃ options received, build 1 [.binary (binary hostname)] = .ok options ∧
    ReadsBack (valueBytes received) [messageType 1,hostname] 12 := by
  obtain ⟨options,-,received,hbuild,-,-,hread⟩ := built_options_received 1 [hostname]
    (by decide) blankDiscover noAddress noAddress 68
  exact ⟨options,received.packet,hbuild,hread 12⟩

end FuzzingTargets.Gdhcp
