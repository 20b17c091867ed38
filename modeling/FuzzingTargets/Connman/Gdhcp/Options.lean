import FuzzingTargets.Foundation.Loads
import FuzzingTargets.Foundation.Bytes

namespace FuzzingTargets.Gdhcp
open Loads Loads.Prog List

structure Found where
  offset : Nat
  length : Nat
  deriving DecidableEq

inductive Access where
  | byte (offset : Nat)
  | value (option : Option Found) (i : Nat)
  | inner (outer suboption : Found) (i : Nat)
  | name (i : Nat)
  deriving DecidableEq

abbrev Handler (α : Type) := Prog Access α

variable (m : Nat → UInt8) (offset : Nat) (bs : List UInt8)

def memory : Access → Option UInt8
  | .byte offset => some (m offset)
  | .value (some f) i => some (m (f.offset + i))
  | .value none _ => none
  | .inner _ suboption i => some (m (suboption.offset + i))
  | .name _ => none

def bigEndian : Nat := bs.foldl (fun n b => n * 256 + b.toNat) 0

def fieldAt (offset size : Nat) : List UInt8 :=
  (List.range size).map fun i => m (offset + i)

def Stored : Prop :=
  fieldAt m offset bs.length = bs

def valueBytes (i : Nat) : UInt8 := bs.getD i 0

def putBe16 (n : Nat) : List UInt8 := [UInt8.ofNat (n / 256),UInt8.ofNat n]

def putBe32 (n : Nat) : List UInt8 :=
  [UInt8.ofNat (n / 16777216),UInt8.ofNat (n / 65536),UInt8.ofNat (n / 256),UInt8.ofNat n]

def loadField (offset size : Nat) : Handler (List UInt8) :=
  loadBytes size fun i => .byte (offset + i)

def loadValue (option : Option Found) (start size : Nat) : Handler (List UInt8) :=
  loadBytes size fun i => .value option (start + i)

def getBe32 (option : Option Found) : Handler Nat := do
  let bs ← loadValue option 0 4
  pure (bigEndian bs)

inductive Field where
  | sname
  | file
  | options
  deriving DecidableEq

def Field.start : Field → Nat
  | .sname => 44
  | .file => 108
  | .options => 240

def Field.size : Field → Nat
  | .sname => 64
  | .file => 128
  | .options => 388

def packetSize : Nat := 628

inductive Scan where
  | missing
  | ended (overload : UInt8)
  | found (option : Found)
  deriving DecidableEq

def scanField (code : UInt8) : Nat → Nat → Nat → UInt8 → Handler Scan
  | 0, _, _, _ => pure .missing
  | fuel + 1, rem, offset, overload =>
    if rem = 0 then pure .missing
    else do
      let c ← fetch (.byte offset)
      if c = 0 then scanField code fuel (rem - 1) (offset + 1) overload
      else if c = 255 then pure (.ended overload)
      else do
        let l ← fetch (.byte (offset + 1))
        if rem < 2 + l.toNat then pure .missing
        else if c = code then pure (.found ⟨offset + 2,l.toNat⟩)
        else if c = 0x34 then do
          let v ← fetch (.byte (offset + 2))
          scanField code fuel (rem - (2 + l.toNat)) (offset + (2 + l.toNat)) (overload ||| v)
        else scanField code fuel (rem - (2 + l.toNat)) (offset + (2 + l.toNat)) overload

def nextField (overload : UInt8) : Option (Field × UInt8) :=
  if overload &&& 1 ≠ 0 then some (.file,overload &&& 0xfe)
  else if overload &&& 2 ≠ 0 then some (.sname,overload &&& 0xfd)
  else none

def scanFields (code : UInt8) : Nat → Field → UInt8 → Handler (Option Found)
  | 0, _, _ => .stop .hang
  | laps + 1, field, overload => do
    let scan ← scanField code field.size field.size field.start overload
    match scan with
    | .missing => pure none
    | .found option => pure (some option)
    | .ended overload =>
      match nextField overload with
      | none => pure none
      | some (field,overload) => scanFields code laps field overload

def dhcpGetOption (laps : Nat) (code : UInt8) : Handler (Option Found) :=
  scanFields code laps .options 0

inductive OptionType where
  | unknown
  | ip
  | string
  | u8
  | u16
  | u32
  deriving DecidableEq

def clientOptions : List (UInt8 × OptionType × Bool) :=
  [(0x01,.ip,false),(0x03,.ip,true),(0x06,.ip,true),(0x0c,.string,false),
    (0x0f,.string,false),(0x1a,.u16,false),(0x2a,.ip,true),(0x33,.u32,false),
    (0x32,.ip,false),(0x35,.u8,false),(0x36,.u32,false),(0x39,.u16,false),
    (0x3c,.string,false),(0x3d,.string,false),(0xfc,.string,false)]

def dhcpGetCodeType (code : UInt8) : OptionType × Bool :=
  (clientOptions.lookup code).getD (.unknown,false)

def OptionType.length : OptionType → Nat
  | .unknown => 0
  | .ip => 4
  | .string => 1
  | .u8 => 1
  | .u16 => 2
  | .u32 => 4

theorem bigEndian_putBe16 {n : Nat} (h : n < 65536) : bigEndian (putBe16 n) = n := by
  simp only [bigEndian,putBe16,foldl_cons,foldl_nil,UInt8.toNat_ofNat']
  omega

theorem bigEndian_putBe32 {n : Nat} (h : n < 4294967296) : bigEndian (putBe32 n) = n := by
  simp only [bigEndian,putBe32,foldl_cons,foldl_nil,UInt8.toNat_ofNat']
  omega

section

variable {m : Nat → UInt8} {P : Access → Prop}

theorem fieldAt_add (offset a b : Nat) :
    fieldAt m offset (a + b) = fieldAt m offset a ++ fieldAt m (offset + a) b := by
  unfold fieldAt
  rw [range_add,map_append,map_map]
  congr 1
  refine map_congr_left fun i _ => ?_
  rw [Function.comp_apply,Nat.add_assoc]

theorem stored_valueBytes : Stored (valueBytes bs) 0 bs := by
  unfold Stored fieldAt valueBytes
  refine ext_getElem (by simp) fun i hi hi' => ?_
  simp [getElem?_eq_getElem hi']

theorem stored_append {offset : Nat} {xs ys : List UInt8} :
    Stored m offset (xs ++ ys) ↔ Stored m offset xs ∧ Stored m (offset + xs.length) ys := by
  unfold Stored
  rw [length_append,fieldAt_add]
  constructor
  · intro h
    exact append_inj h (by rw [fieldAt,length_map,length_range])
  · rintro ⟨hxs,hys⟩
    rw [hxs,hys]

theorem stored_take {offset : Nat} {xs ys : List UInt8} {size : Nat}
    (h : Stored m offset (xs ++ ys)) (hsize : xs.length = size) : fieldAt m offset size = xs :=
  hsize ▸ (stored_append.mp h).1

theorem stored_drop {offset next : Nat} {xs ys : List UInt8} (h : Stored m offset (xs ++ ys))
    (hnext : offset + xs.length = next) : Stored m next ys := hnext ▸ (stored_append.mp h).2

@[simp] theorem memory_byte (offset : Nat) : memory m (.byte offset) = some (m offset) := rfl

@[simp] theorem memory_value (f : Found) (i : Nat) :
    memory m (.value (some f) i) = some (m (f.offset + i)) := rfl

@[simp] theorem memory_inner (outer suboption : Found) (i : Nat) :
    memory m (.inner outer suboption i) = some (m (suboption.offset + i)) := rfl

theorem run_loadField (offset size : Nat) :
    (loadField offset size).run (memory m) = .ok (fieldAt m offset size) :=
  run_loadBytes fun _ _ => rfl

theorem safe_loadField (hP : ∀ offset, P (.byte offset)) (offset size : Nat) :
    Safe (memory m) P (loadField offset size) :=
  (safe_loadBytes fun _ _ => rfl).mpr fun _ _ => hP _

theorem run_loadValue (f : Found) (start size : Nat) :
    (loadValue (some f) start size).run (memory m) = .ok (fieldAt m (f.offset + start) size) :=
  run_loadBytes fun _ _ => by rw [Nat.add_assoc]; rfl

theorem safe_loadValue (f : Found) (start size : Nat) :
    Safe (memory m) P (loadValue (some f) start size) ↔
      ∀ i < size, P (.value (some f) (start + i)) :=
  safe_loadBytes fun _ _ => rfl

theorem safe_loadNull {size : Nat} (start : Nat) (hsize : 0 < size) :
    Safe (memory m) P (loadValue none start size) ↔ P (.value none start) := by
  obtain ⟨n,rfl⟩ : ∃ n, size = n + 1 := ⟨size - 1,by omega⟩
  exact safe_fetch_null rfl

end

section

variable {m : Nat → UInt8} {P : Access → Prop} {code : UInt8}

theorem scanField_found {fuel rem offset : Nat} {overload : UInt8} {f : Found}
    (hsafe : Safe (memory m) P (scanField code fuel rem offset overload))
    (hrun : (scanField code fuel rem offset overload).run (memory m) = .ok (.found f)) :
    2 ≤ f.offset ∧ (m (f.offset - 1)).toNat = f.length ∧ P (.byte (f.offset - 1)) := by
  induction fuel generalizing rem offset overload with
  | zero => cases hrun
  | succ fuel ih =>
    unfold scanField at hsafe hrun
    by_cases hrem : rem = 0
    · rw [if_pos hrem] at hrun
      cases hrun
    rw [if_neg hrem,safe_fetch_bind (memory_byte _)] at hsafe
    rw [if_neg hrem,run_fetch_bind (memory_byte _)] at hrun
    obtain ⟨-,hsafe⟩ := hsafe
    by_cases hpad : m offset = 0
    · rw [if_pos hpad] at hsafe hrun
      exact ih hsafe hrun
    rw [if_neg hpad] at hsafe hrun
    by_cases hend : m offset = 255
    · rw [if_pos hend] at hrun
      cases hrun
    rw [if_neg hend,safe_fetch_bind (memory_byte _)] at hsafe
    rw [if_neg hend,run_fetch_bind (memory_byte _)] at hrun
    obtain ⟨hlength,hsafe⟩ := hsafe
    split_ifs at hsafe hrun
    · cases hrun
    · cases hrun
      exact ⟨by simp,rfl,hlength⟩
    · rw [safe_fetch_bind (memory_byte _)] at hsafe
      rw [run_fetch_bind (memory_byte _)] at hrun
      exact ih hsafe.2 hrun
    · exact ih hsafe hrun

theorem scanFields_found {laps : Nat} {field : Field} {overload : UInt8} {f : Found}
    (hsafe : Safe (memory m) P (scanFields code laps field overload))
    (hrun : (scanFields code laps field overload).run (memory m) = .ok (some f)) :
    2 ≤ f.offset ∧ (m (f.offset - 1)).toNat = f.length ∧ P (.byte (f.offset - 1)) := by
  induction laps generalizing field overload with
  | zero => cases hrun
  | succ laps ih =>
    obtain ⟨hscan,hnext⟩ := safe_bind.mp hsafe
    obtain ⟨scan,hscanned,hrun⟩ := run_bind_ok.mp hrun
    have hnext := hnext scan hscanned
    cases scan with
    | missing => cases hrun
    | found option =>
      cases hrun
      exact scanField_found hscan hscanned
    | ended overload =>
      dsimp only at hnext hrun
      cases hfield : nextField overload with
      | none =>
        rw [hfield] at hrun
        cases hrun
      | some next =>
        rw [hfield] at hnext hrun
        exact ih hnext hrun

end

structure Request where
  type : UInt8
  serverId : Bool
  requestedIp : Option Nat
  xid : List UInt8
  flags : List UInt8
  ciaddr : List UInt8
  gateway : List UInt8
  chaddr : List UInt8
  deriving DecidableEq

def checkPacketType (laps : Nat) : Handler UInt8 := do
  let hlen ← fetch (.byte 2)
  if hlen ≠ 6 then pure 0
  else do
    let op ← fetch (.byte 0)
    if op ≠ 1 then pure 0
    else do
      let option ← dhcpGetOption laps 0x35
      match option with
      | none => pure 0
      | some option => do
        let type ← fetch (.value (some option) 0)
        if type < 1 then pure 0
        else do
          let type ← fetch (.value (some option) 0)
          if 8 < type then pure 0
          else fetch (.value (some option) 0)

def checkServerId (serverNip : Nat) (option : Option Found) : Handler Bool :=
  match option with
  | none => pure true
  | some option => do
    let serverNid ← getBe32 (some option)
    pure (serverNid = serverNip)

def requestedAddress (option : Option Found) : Handler (Option Nat) :=
  match option with
  | none => pure none
  | some option => do
    let requestedNip ← getBe32 (some option)
    pure (some requestedNip)

def copyRequest (type : UInt8) (serverId : Bool) (requestedIp : Option Nat) : Handler Request := do
  let xid ← loadField 4 4
  let flags ← loadField 10 2
  let ciaddr ← loadField 12 4
  let gateway ← loadField 24 4
  let chaddr ← loadField 28 16
  pure ⟨type,serverId,requestedIp,xid,flags,ciaddr,gateway,chaddr⟩

def readOptions (laps serverNip : Nat) (type : UInt8) : Handler (Option Request) := do
  let serverIdOption ← dhcpGetOption laps 0x36
  let ours ← checkServerId serverNip serverIdOption
  if ours then do
    let requestIpOption ← dhcpGetOption laps 0x32
    let requestedIp ← requestedAddress requestIpOption
    let request ← copyRequest type serverIdOption.isSome requestedIp
    pure (some request)
  else pure none

def receiveRequest (laps serverNip : Nat) : Handler (Option Request) := do
  let type ← checkPacketType laps
  if type = 0 then pure none else readOptions laps serverNip type

end FuzzingTargets.Gdhcp
