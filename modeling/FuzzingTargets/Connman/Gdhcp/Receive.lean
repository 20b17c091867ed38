import FuzzingTargets.Connman.Gdhcp.Datagram
import FuzzingTargets.Foundation.LittleEndian
import FuzzingTargets.Foundation.Checked

namespace FuzzingTargets.Gdhcp
open Loads Loads.Prog Bytes LittleEndian Checked

def headersSize : Nat := 28

def dhcpv6BufferSize : Nat := 1500

def dhcpMagic : List UInt8 := [0x63,0x82,0x53,0x63]

def word (bs : List UInt8) (i : Nat) : Nat := ofLe ((bs.drop i).take 2)

def netWord (bs : List UInt8) (i : Nat) : Nat := be16 (bs.getD i 0) (bs.getD (i + 1) 0)

def sumWords : List UInt8 → Nat
  | a :: b :: rest => a.toNat + 256 * b.toNat + sumWords rest
  | [a] => a.toNat
  | [] => 0

def foldSum : Nat → Nat → Nat
  | 0, sum => sum
  | fuel + 1, sum => if sum / 65536 = 0 then sum else foldSum fuel (sum % 65536 + sum / 65536)

def dhcpChecksum (bs : List UInt8) : Nat := 65535 - foldSum 4 (sumWords bs)

variable (frame : List UInt8) (bytes : Nat)

def sanityCheck : Bool :=
  frame.getD 9 0 = 17 ∧ (frame.getD 0 0).toNat / 16 = 4 ∧ (frame.getD 0 0).toNat % 16 = 5 ∧
    netWord frame 22 = 68 ∧ (netWord frame 24 : Int) = ((bytes : Int) - 20) % 65536

def clearIpCheck : List UInt8 := (frame.set 10 0).set 11 0

def pseudoHeader : List UInt8 :=
  [0,0,frame.getD 24 0,frame.getD 25 0,0,0,0,0,0] ++ (frame.drop 9).take 17 ++ [0,0] ++
    frame.drop 28

def zeroPad (size : Nat) (bs : List UInt8) : List UInt8 :=
  bs.take size ++ List.replicate (size - bs.length) 0

inductive FrameFault where
  | checksum (i : Nat)
  | copy (size : Nat)
  deriving DecidableEq

def sumFrom (packet : List UInt8) : Nat → Nat → Except FrameFault Nat
  | count + 2, source => do
    let lo ← load FrameFault.checksum packet source
    let hi ← load FrameFault.checksum packet (source + 1)
    let sum ← sumFrom packet count (source + 2)
    .ok (lo.toNat + 256 * hi.toNat + sum)
  | 1, source => do
    let last ← load FrameFault.checksum packet source
    .ok last.toNat
  | 0, _ => .ok 0

def checksumOf (packet : List UInt8) (count : Nat) : Except FrameFault Nat := do
  let sum ← sumFrom packet count 0
  .ok (65535 - foldSum 4 sum)

variable (received : List UInt8)

def localPacket : List UInt8 := zeroPad (headersSize + packetSize) received

def totLen : Nat := netWord (localPacket received) 2

def checkUdp (packet : List UInt8) (bytes : Nat) : Except FrameFault (Option Nat) :=
  if word packet 26 = 0 then .ok (some bytes)
  else do
    let check ← checksumOf (pseudoHeader packet) bytes
    if word packet 26 ≠ check then .ok none else .ok (some bytes)

def checkFrame : Except FrameFault (Option Nat) :=
  let packet := localPacket received
  let bytes := min received.length (headersSize + packetSize)
  if bytes < headersSize then .ok none
  else if bytes < totLen received then .ok none
  else if ¬sanityCheck packet (totLen received) then .ok none
  else do
    let check ← checksumOf (clearIpCheck packet) 20
    if word packet 10 ≠ check then .ok none else checkUdp (clearIpCheck packet) (totLen received)

def sizeT (n : Int) : Nat := (n % 18446744073709551616).toNat

def copySize : Except FrameFault (Option Nat) := do
  let bytes ← checkFrame received
  .ok (bytes.map fun bytes => sizeT ((bytes : Int) - headersSize))

structure L2Packet where
  bytes : Nat
  packet : List UInt8
  daddr : List UInt8
  deriving DecidableEq

def copyL2 (dhcpPkt packet : List UInt8) (size : Nat) : Except FrameFault (List UInt8) :=
  if packetSize < size then .error (.copy size)
  else .ok ((packet.drop headersSize).take size ++ dhcpPkt.drop size)

def recvL2 (dhcpPkt received : List UInt8) : Except FrameFault (Option L2Packet) := do
  let bytes ← checkFrame received
  match bytes with
  | none => .ok none
  | some bytes => do
    let dhcpPkt ← copyL2 dhcpPkt (localPacket received) (sizeT ((bytes : Int) - headersSize))
    if (dhcpPkt.drop 236).take 4 ≠ dhcpMagic then .ok none
    else .ok (some ⟨bytes - headersSize,dhcpPkt,((localPacket received).drop 16).take 4⟩)

structure Accepted : Prop where
  long : headersSize ≤ received.length
  whole : totLen received ≤ min received.length (headersSize + packetSize)
  sane : sanityCheck (localPacket received) (totLen received) = true
  ipCheck : word (localPacket received) 10 =
    dhcpChecksum ((clearIpCheck (localPacket received)).take 20)
  udpCheck : word (clearIpCheck (localPacket received)) 26 = 0 ∨
    word (clearIpCheck (localPacket received)) 26 =
      dhcpChecksum ((pseudoHeader (clearIpCheck (localPacket received))).take (totLen received))

section

open List

variable {packet : List UInt8} {received : List UInt8}

theorem sumFrom_ok {count source : Nat} (h : source + count ≤ packet.length) :
    sumFrom packet count source = .ok (sumWords ((packet.drop source).take count)) := by
  induction count using Nat.twoStepInduction generalizing source with
  | zero => rfl
  | one =>
    have hlt : source < packet.length := by omega
    rw [sumFrom,load_ok hlt,bind_ok,drop_eq_getElem_cons hlt]
    rfl
  | more count ih _ =>
    have hlt : source < packet.length := by omega
    have hnext : source + 1 < packet.length := by omega
    rw [sumFrom,load_ok hlt,bind_ok,load_ok hnext,bind_ok,ih (by omega),bind_ok,
      drop_eq_getElem_cons hlt,drop_eq_getElem_cons hnext]
    rfl

theorem checksumOf_ok {count : Nat} (h : count ≤ packet.length) :
    checksumOf packet count = .ok (dhcpChecksum (packet.take count)) := by
  rw [checksumOf,sumFrom_ok (by omega),bind_ok]
  rfl

theorem localPacket_length (received : List UInt8) :
    (localPacket received).length = headersSize + packetSize := by
  simp only [localPacket,zeroPad,length_append,length_take,length_replicate]
  omega

theorem clearIpCheck_length : (clearIpCheck packet).length = packet.length := by
  simp [clearIpCheck]

theorem pseudoHeader_length (h : headersSize ≤ packet.length) :
    (pseudoHeader packet).length = packet.length := by
  unfold headersSize at h
  simp only [pseudoHeader,length_append,length_cons,length_nil,length_take,length_drop]
  omega

theorem checkUdp_ok {bytes : Nat} (hlong : headersSize ≤ packet.length)
    (hbytes : bytes ≤ packet.length) :
    checkUdp packet bytes = .ok (if word packet 26 = 0 ∨
      word packet 26 = dhcpChecksum ((pseudoHeader packet).take bytes) then some bytes
        else none) := by
  unfold checkUdp
  by_cases hzero : word packet 26 = 0
  · rw [if_pos hzero,if_pos (.inl hzero)]
  · rw [if_neg hzero,checksumOf_ok (by rwa [pseudoHeader_length hlong]),bind_ok]
    simp only [hzero,false_or,ne_eq,ite_not]
    split <;> rfl

theorem checkFrame_accepted (received : List UInt8) : ∃ total, checkFrame received = .ok total ∧
      (Accepted received → total = some (totLen received)) ∧
      (¬Accepted received → total = none) := by
  have hlength := localPacket_length received
  have hdropped : ¬Accepted received → ∃ total, (.ok none : Except FrameFault (Option Nat)) =
      .ok total ∧ (Accepted received → total = some (totLen received)) ∧
        (¬Accepted received → total = none) := fun hnot =>
    ⟨none,rfl,fun h => absurd h hnot,fun _ => rfl⟩
  unfold checkFrame
  dsimp only
  split
  · exact hdropped fun h => by have := h.long; omega
  split
  · exact hdropped fun h => by have := h.whole; omega
  split
  · rename_i hsane
    exact hdropped fun h => hsane h.sane
  rename_i hlong hwhole hsane
  have hclear : (clearIpCheck (localPacket received)).length = headersSize + packetSize := by
    rw [clearIpCheck_length,hlength]
  rw [checksumOf_ok (by rw [hclear]; decide),bind_ok]
  split
  · rename_i hcheck
    exact hdropped fun h => hcheck h.ipCheck
  rename_i hcheck
  rw [checkUdp_ok (by rw [hclear]; decide) (by rw [hclear]; omega)]
  refine ⟨_,rfl,fun h => if_pos h.udpCheck,fun hnot => if_neg fun hudp => hnot ?_⟩
  exact ⟨by omega,by omega,not_not.mp hsane,not_not.mp hcheck,hudp⟩

theorem checkFrame_dropped (h : ¬Accepted received) : checkFrame received = .ok none := by
  obtain ⟨total,hcheck,-,hdropped⟩ := checkFrame_accepted received
  rw [hcheck,hdropped h]

theorem checkFrame_kept (h : Accepted received) :
    checkFrame received = .ok (some (totLen received)) := by
  obtain ⟨total,hcheck,hkept,-⟩ := checkFrame_accepted received
  rw [hcheck,hkept h]

theorem sizeT_long (h : Accepted received) (hlong : headersSize ≤ totLen received) :
    sizeT ((totLen received : Int) - headersSize) = totLen received - headersSize := by
  have hwhole := h.whole
  have hsizes : packetSize = 628 ∧ headersSize = 28 := ⟨rfl,rfl⟩
  unfold sizeT
  omega

theorem sizeT_short (hshort : totLen received < headersSize) :
    packetSize < sizeT ((totLen received : Int) - headersSize) := by
  have hsizes : packetSize = 628 ∧ headersSize = 28 := ⟨rfl,rfl⟩
  unfold sizeT
  omega

end

structure Stale where
  packet : Fin packetSize → UInt8
  buf : Fin dhcpv6BufferSize → UInt8

def overlay {size : Nat} (bytes : List UInt8) (stale : Fin size → UInt8) (beyond : Nat → UInt8)
    (i : Nat) : UInt8 :=
  if h : i < size then bytes.getD i (stale ⟨i,h⟩) else beyond i

def cleared (size : Nat) : Fin size → UInt8 := fun _ => 0

def hasMagic (m : Nat → UInt8) : Bool := fieldAt m 236 4 = dhcpMagic

variable (laps : Nat) (env : Env) (beyond : Nat → UInt8) (stale : Stale) (client : Client)

def dhcpRecvL3Packet : Option (Nat → UInt8) :=
  let m := overlay (received.take packetSize) (cleared packetSize) beyond
  if hasMagic m then some m else none

def dhcpv6RecvL3Packet : (Nat → UInt8) × Nat :=
  (overlay (received.take dhcpv6BufferSize) stale.buf beyond,min received.length dhcpv6BufferSize)

def isBroadcast (daddr : List UInt8) : Bool := daddr = [255,255,255,255]

def handleL2 (broadcast : Bool) (client : Client) : Handler (Client × List Effect) :=
  match client.type with
  | .ipv6 => do
    let _owner ← checkPackageOwner6 client
    pure (client,[])
  | _ => listenerEvent4 laps env broadcast client

def listenL2 : Except Stop (Client × List Effect) :=
  match recvL2 (List.ofFn stale.packet) received with
  | .error _ => .error .crash
  | .ok none => .ok (client,[])
  | .ok (some p) => (handleL2 laps env (isBroadcast p.daddr) client).run
      (memory fun i => p.packet.getD i (beyond i))

def listenL3 : Except Stop (Client × List Effect) :=
  match client.type with
  | .ipv6 =>
    let (m,pktLen) := dhcpv6RecvL3Packet received beyond stale
    (listenerEvent6 env pktLen client).run (memory m)
  | _ =>
    match dhcpRecvL3Packet received beyond with
    | none => .ok (client,[])
    | some m => (listenerEvent4 laps env false client).run (memory m)

def listenerEvent (ipv4llRecvArpPacket : List UInt8 → Client → Except Stop (Client × List Effect))
    (beyond : Nat → UInt8) (stale : Stale) (received : List UInt8) (client : Client) :
    Except Stop (Client × List Effect) :=
  match client.listenMode with
  | .none => .ok (client,[])
  | .l2 => listenL2 received laps env beyond stale { client with statusCode := 0 }
  | .l3 => listenL3 received laps env beyond stale { client with statusCode := 0 }
  | .arp => ipv4llRecvArpPacket received { client with statusCode := 0 }

section

variable (size n : Nat)

def Supplied (i : Nat) : Prop := n < size → i < n

def FromSupply : Access → Prop
  | .byte offset => Supplied size n offset
  | .value none _ => True
  | .value (some f) i => Supplied size n (f.offset + i)
  | .inner _ suboption i => Supplied size n (suboption.offset + i)
  | .name _ => True

instance (i : Nat) : Decidable (Supplied size n i) :=
  inferInstanceAs (Decidable (n < size → i < n))

instance : (a : Access) → Decidable (FromSupply size n a)
  | .byte offset => inferInstanceAs (Decidable (Supplied size n offset))
  | .value none _ => .isTrue trivial
  | .value (some f) i => inferInstanceAs (Decidable (Supplied size n (f.offset + i)))
  | .inner _ suboption i => inferInstanceAs (Decidable (Supplied size n (suboption.offset + i)))
  | .name _ => .isTrue trivial

def Scope.supplied : Scope :=
  ⟨fun stop => n < size → stop ≤ n,fun f k => n < size → f.offset + k ≤ n,
    fun _ suboption k => n < size → suboption.offset + k ≤ n,fun _ => True,True⟩

theorem forall_supplied (start : Nat) {count : Nat} (h : 0 < count ∨ start ≤ n) :
    (∀ i < count, Supplied size n (start + i)) ↔ (n < size → start + count ≤ n) := by
  refine ⟨fun hall hn => ?_,fun hend i hi hn => ?_⟩
  · by_contra hlong
    have hlast := hall (count - 1) (by omega) hn
    omega
  · have := hend hn
    omega

theorem forall_value_supplied (f : Found) (start : Nat) {count : Nat}
    (h : 0 < count ∨ f.offset + start ≤ n) :
    (∀ i < count, FromSupply size n (.value (some f) (start + i))) ↔
      (Scope.supplied size n).value f (start + count) := by
  have hsupply := forall_supplied size n (f.offset + start) h
  simp only [Nat.add_assoc] at hsupply
  exact hsupply

instance : Governs (.supplied size n) n (FromSupply size n) where
  bytes offset _ hcount := forall_supplied size n offset (.inl hcount)
  value {f} start _ hf h := by
    unfold Found.Within at hf
    exact forall_value_supplied size n f start (by omega)
  inner suboption start _ _ hcount :=
    forall_value_supplied size n suboption start (.inl hcount)
  whole hf hsize _ := (Nat.add_le_add_left hsize _).trans hf
  valueMono hab hb hn := (Nat.add_le_add_left hab _).trans (hb hn)
  innerMono hab hb hn := (Nat.add_le_add_left hab _).trans (hb hn)
  name _ := Iff.rfl
  last := trivial
  null := Iff.rfl

theorem bounded_supplied (h : (Scope.supplied size n).bytes 240) :
    Bounded (.supplied size n) (FromSupply size n) where
  byte _ := Iff.rfl
  header := h
  mono hab hb hn := hab.trans (hb hn)
  value f start _ hcount := forall_value_supplied size n f start (.inl hcount)
  valueMono hab hb hn := (Nat.add_le_add_left hab _).trans (hb hn)
  null := Iff.rfl

end

def destination : List UInt8 := ((localPacket received).drop 16).take 4

def payload : List UInt8 :=
  ((localPacket received).drop headersSize).take (totLen received - headersSize)

def clearedPacket : Nat → UInt8 := overlay (payload received) (cleared packetSize) beyond

def clearedBuf : Nat → UInt8 :=
  overlay (received.take dhcpv6BufferSize) (cleared dhcpv6BufferSize) beyond

def checkCookie (handler : Handler (Client × List Effect)) : Handler (Client × List Effect) := do
  let cookie ← loadField 236 4
  if cookie = dhcpMagic then handler else pure (client,[])

def L2Complete : Prop :=
  client.type ≠ .ipv6 → Accepted received → headersSize ≤ totLen received →
    (Scope.supplied packetSize (payload received).length).bytes 240 ∧
      (hasMagic (clearedPacket received beyond) →
        ClientReads (.supplied packetSize (payload received).length)
          (clearedPacket received beyond) laps client)

def L3Complete : Prop :=
  client.type = .ipv6 →
    ReadsFit (.supplied dhcpv6BufferSize (min received.length dhcpv6BufferSize))
      (clearedBuf received beyond) (min received.length dhcpv6BufferSize) env client

def Complete (beyond : Nat → UInt8) (received : List UInt8) (client : Client) : Prop :=
  match client.listenMode with
  | .l2 => L2Complete received laps beyond { client with statusCode := 0 }
  | .l3 => L3Complete received env beyond { client with statusCode := 0 }
  | _ => True

def L2Supplied : Prop :=
  client.type ≠ .ipv6 → Accepted received → headersSize ≤ totLen received →
    Safe (memory (clearedPacket received beyond)) (FromSupply packetSize (payload received).length)
      (checkCookie client (handleL2 laps env (isBroadcast (destination received)) client))

def L3Supplied : Prop :=
  client.type = .ipv6 → Safe (memory (clearedBuf received beyond))
    (FromSupply dhcpv6BufferSize (min received.length dhcpv6BufferSize))
    (listenerEvent6 env (min received.length dhcpv6BufferSize) client)

def ReadsSupplied (beyond : Nat → UInt8) (received : List UInt8) (client : Client) : Prop :=
  match client.listenMode with
  | .l2 => L2Supplied received laps env beyond { client with statusCode := 0 }
  | .l3 => L3Supplied received env beyond { client with statusCode := 0 }
  | _ => True

section

variable {laps : Nat} {env : Env} {beyond : Nat → UInt8} {received : List UInt8} {client : Client}
  {size : Nat} {bytes : List UInt8}

theorem overlay_supplied {i : Nat} (stale stale' : Fin size → UInt8)
    (hi : Supplied size bytes.length i) :
    overlay bytes stale beyond i = overlay bytes stale' beyond i := by
  unfold overlay
  by_cases hsize : i < size
  · have hlen : i < bytes.length := by
      by_contra hlong
      exact hlong (hi (by omega))
    simp [hsize,hlen]
  · simp [hsize]

theorem memory_supplied {stale stale' : Fin size → UInt8} {a : Access}
    (ha : FromSupply size bytes.length a) :
    memory (overlay bytes stale beyond) a = memory (overlay bytes stale' beyond) a := by
  match a with
  | .byte _ => exact congrArg some (overlay_supplied stale stale' ha)
  | .value none _ => rfl
  | .value (some _) _ => exact congrArg some (overlay_supplied stale stale' ha)
  | .inner _ _ _ => exact congrArg some (overlay_supplied stale stale' ha)
  | .name _ => rfl

theorem overlay_append (hlen : bytes.length ≤ size) (stale : Fin size → UInt8) (i : Nat) :
    (bytes ++ (List.ofFn stale).drop bytes.length).getD i (beyond i) =
      overlay bytes stale beyond i := by
  unfold overlay
  by_cases hbytes : i < bytes.length
  · simp [List.getElem?_append_left hbytes,hbytes,show i < size by omega]
  rw [List.getD_eq_getElem?_getD,List.getElem?_append_right (not_lt.mp hbytes),
    List.getElem?_drop,show bytes.length + (i - bytes.length) = i by omega]
  by_cases hsize : i < size
  · simp [hsize,hbytes]
  · simp [hsize]

theorem fieldAt_getD {offset count : Nat} (h : offset + count ≤ bytes.length) :
    fieldAt (fun i => bytes.getD i (beyond i)) offset count = (bytes.drop offset).take count := by
  refine List.ext_getElem (by simp [fieldAt]; omega) fun i hi _ => ?_
  have hlt : i < count := by simpa [fieldAt] using hi
  simp [fieldAt,show offset + i < bytes.length by omega]

theorem payload_length (h : Accepted received) :
    (payload received).length = totLen received - headersSize := by
  have hwhole := h.whole
  have hlength := localPacket_length received
  simp only [payload,List.length_take,List.length_drop]
  omega

theorem recvL2_dropped (dhcpPkt : List UInt8) (h : ¬Accepted received) :
    recvL2 dhcpPkt received = .ok none := by
  rw [recvL2,checkFrame_dropped h,bind_ok]

theorem recvL2_wraps (dhcpPkt : List UInt8) (h : Accepted received)
    (hshort : totLen received < headersSize) :
    recvL2 dhcpPkt received =
      .error (.copy (sizeT ((totLen received : Int) - headersSize))) := by
  rw [recvL2,checkFrame_kept h,bind_ok]
  dsimp only
  rw [copyL2,if_pos (sizeT_short hshort)]
  rfl

theorem recvL2_kept (dhcpPkt : List UInt8) (h : Accepted received)
    (hlong : headersSize ≤ totLen received) :
    let delivered := payload received ++ dhcpPkt.drop (payload received).length
    recvL2 dhcpPkt received = if (delivered.drop 236).take 4 ≠ dhcpMagic then .ok none
      else .ok (some ⟨(payload received).length,delivered,destination received⟩) := by
  have hwhole := h.whole
  have hlength := payload_length h
  rw [recvL2,checkFrame_kept h,bind_ok]
  dsimp only
  rw [sizeT_long h hlong,copyL2,if_neg (by omega),bind_ok,hlength]
  rfl

theorem listenL2_kept (h : Accepted received) (hlong : headersSize ≤ totLen received)
    (stale : Stale) : listenL2 received laps env beyond stale client =
      (checkCookie client (handleL2 laps env (isBroadcast (destination received)) client)).run
        (memory (overlay (payload received) stale.packet beyond)) := by
  have hlength : (payload received).length ≤ packetSize := by
    have hwhole := h.whole
    rw [payload_length h]
    omega
  have hmemory := funext (@overlay_append beyond _ _ hlength stale.packet)
  have hcookie := @fieldAt_getD beyond (payload received ++
    (List.ofFn stale.packet).drop (payload received).length) 236 4 (by
      simp only [List.length_append,List.length_drop,List.length_ofFn]
      have hsize : packetSize = 628 := rfl
      omega)
  rw [listenL2,recvL2_kept _ h hlong,checkCookie,run_bind_of (run_loadField 236 4),← hmemory,
    hcookie]
  by_cases hmagic : ((payload received ++ (List.ofFn stale.packet).drop
      (payload received).length).drop 236).take 4 = dhcpMagic
  · rw [if_neg (not_not.mpr hmagic),if_pos hmagic]
  · rw [if_pos hmagic,if_neg hmagic]
    rfl

theorem run_handleL2_ipv6 (htype : client.type = .ipv6) (broadcast : Bool) (m : Nat → UInt8) :
    (checkCookie client (handleL2 laps env broadcast client)).run (memory m) =
      .ok (client,[]) := by
  rw [checkCookie,run_bind_of (run_loadField 236 4)]
  split
  · unfold handleL2
    rw [htype]
    rw [run_bind_of (run_checkPackageOwner6 client),run_pure]
  · rfl

theorem handleL2_ipv4 (htype : client.type ≠ .ipv6) (broadcast : Bool) :
    handleL2 laps env broadcast client = listenerEvent4 laps env broadcast client := by
  unfold handleL2
  split
  · rename_i hipv6
    exact absurd hipv6 htype
  · rfl

theorem safe_checkCookie {n : Nat} {m : Nat → UInt8} (broadcast : Bool) :
    Safe (memory m) (FromSupply size n)
        (checkCookie client (listenerEvent4 laps env broadcast client)) ↔
      (Scope.supplied size n).bytes 240 ∧
        (hasMagic m → ClientReads (.supplied size n) m laps client) := by
  rw [checkCookie,safe_bind_of (run_loadField 236 4),(spec_loadField 236 (by decide)).1]
  refine and_congr_right fun hheader => ?_
  have := bounded_supplied size n hheader
  unfold hasMagic
  split
  · rename_i hmagic
    simp [hmagic,safe_listenerEvent4]
  · rename_i hmagic
    simp [hmagic]

theorem l2Complete_iff :
    L2Complete received laps beyond client ↔ L2Supplied received laps env beyond client := by
  refine forall₃_congr fun htype _ _ => ?_
  simp only [handleL2_ipv4 htype,safe_checkCookie]

theorem l3Complete_iff :
    L3Complete received env beyond client ↔ L3Supplied received env beyond client :=
  imp_congr_right fun _ => (safe_listenerEvent6 env client).symm

theorem listenL2_cleared (h : L2Complete received laps beyond client) (stale : Stale) :
    listenL2 received laps env beyond stale client =
      listenL2 received laps env beyond ⟨cleared _,cleared _⟩ client := by
  by_cases haccepted : Accepted received
  · by_cases hlong : headersSize ≤ totLen received
    · rw [listenL2_kept haccepted hlong,listenL2_kept haccepted hlong]
      by_cases htype : client.type = .ipv6
      · rw [run_handleL2_ipv6 htype,run_handleL2_ipv6 htype]
      · symm
        exact run_eq_of_safe (l2Complete_iff.mp h htype haccepted hlong) fun _ => memory_supplied
    · unfold listenL2
      rw [recvL2_wraps _ haccepted (not_le.mp hlong),recvL2_wraps _ haccepted (not_le.mp hlong)]
  · unfold listenL2
    rw [recvL2_dropped _ haccepted,recvL2_dropped _ haccepted]

theorem listenL3_cleared (h : L3Complete received env beyond client) (stale : Stale) :
    listenL3 received laps env beyond stale client =
      listenL3 received laps env beyond ⟨cleared _,cleared _⟩ client := by
  unfold listenL3 dhcpv6RecvL3Packet
  cases htype : client.type with
  | ipv4 | ipv4ll => rfl
  | ipv6 =>
    have hlen : (received.take dhcpv6BufferSize).length = min received.length dhcpv6BufferSize := by
      rw [List.length_take,Nat.min_comm]
    have hsafe := l3Complete_iff.mp h htype
    rw [← hlen] at hsafe ⊢
    symm
    exact run_eq_of_safe hsafe fun _ => memory_supplied

end

theorem listenerEvent_independent (laps : Nat) (env : Env)
    (arp : List UInt8 → Client → Except Stop (Client × List Effect)) (beyond : Nat → UInt8)
    (received : List UInt8) (client : Client) :
    (Complete laps env beyond received client ↔ ReadsSupplied laps env beyond received client) ∧
    (Complete laps env beyond received client → ∀ stale stale' : Stale,
      listenerEvent laps env arp beyond stale received client =
        listenerEvent laps env arp beyond stale' received client) := by
  unfold Complete ReadsSupplied listenerEvent
  cases client.listenMode with
  | none | arp => exact ⟨Iff.rfl,fun _ _ _ => rfl⟩
  | l2 =>
    exact ⟨l2Complete_iff,fun h stale stale' =>
      (listenL2_cleared h stale).trans (listenL2_cleared h stale').symm⟩
  | l3 =>
    exact ⟨l3Complete_iff,fun h stale stale' =>
      (listenL3_cleared h stale).trans (listenL3_cleared h stale').symm⟩

def advertisement : List UInt8 := [2,0,0,7,0,1,0,1,5,0,2,0,1,9]

def identifiedClient : Client := { solicitingClient with duid := [5], callbacks := [.advertise] }

theorem advertisement_independent :
    listenerEvent 1 idleEnv (fun _ c => .ok (c,[])) (fun _ => 0)
        ⟨fun _ => 0,fun _ => 0⟩ advertisement identifiedClient =
      listenerEvent 1 idleEnv (fun _ c => .ok (c,[])) (fun _ => 0)
        ⟨fun _ => 255,fun _ => 255⟩ advertisement identifiedClient := by
  obtain ⟨hreads,hsame⟩ := listenerEvent_independent 1 idleEnv (fun _ c => .ok (c,[]))
    (fun _ => 0) advertisement identifiedClient
  exact hsame (hreads.mpr fun _ => by decide) _ _

def emptyFrame : List UInt8 :=
  [0x45,0,0,28,0,0,0,0,0,17,0xba,0xd2,0,0,0,0,0,0,0,0,0,67,0,68,0,8,0,0]

def leftoverOffer : Nat → UInt8
  | 2 => 6
  | 7 => 7
  | 28 => 2
  | 33 => 1
  | 236 => 0x63
  | 237 => 0x82
  | 238 => 0x53
  | 239 => 0x63
  | 240 => 53
  | 241 => 1
  | 242 => 2
  | 243 => 54
  | 244 => 4
  | 245 => 10
  | 248 => 1
  | 249 => 255
  | _ => 0

theorem emptyFrame_handles_leftover :
    listenerEvent 1 idleEnv (fun _ c => .ok (c,[])) (fun _ => 0)
        ⟨fun i => leftoverOffer i,fun _ => 0⟩ emptyFrame selectingClient ≠
      listenerEvent 1 idleEnv (fun _ c => .ok (c,[])) (fun _ => 0)
        ⟨fun _ => 0,fun _ => 0⟩ emptyFrame selectingClient := by
  decide +kernel

end FuzzingTargets.Gdhcp
