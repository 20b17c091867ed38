import FuzzingTargets.Foundation.Bytes

namespace FuzzingTargets.DnsProxy
open Bytes List

abbrev Label := List UInt8

def nsMaxLabel : Nat := 63

def nsMaxCdname : Nat := 255

def nsMaxDname : Nat := 1025

def lengthBytes (n : Nat) : List UInt8 := [UInt8.ofNat (n / 256),UInt8.ofNat n]

def frame (message : List UInt8) : List UInt8 := lengthBytes message.length ++ message

def wire : List Label → List UInt8
  | [] => [0]
  | l :: ls => UInt8.ofNat l.length :: l ++ wire ls

def unpackFrom (msg : List UInt8) : Nat → Nat → Nat → Nat → Option (List Label × Nat)
  | 0, _, _, _ => none
  | fuel + 1, checked, room, src =>
    match msg[src]? with
    | none => none
    | some n =>
      if n.toNat = 0 then some ([],1)
      else if n.toNat < 64 then
        if room ≤ n.toNat + 1 ∨ msg.length ≤ src + 1 + n.toNat then none
        else
          match unpackFrom msg fuel (checked + n.toNat + 1) (room - (n.toNat + 1))
              (src + 1 + n.toNat) with
          | none => none
          | some (ls,used) => some ((msg.drop (src + 1)).take n.toNat :: ls,1 + n.toNat + used)
      else if 192 ≤ n.toNat then
        match msg[src + 1]? with
        | none => none
        | some lo =>
          let target := (n.toNat - 192) * 256 + lo.toNat
          if msg.length ≤ target ∨ msg.length ≤ checked + 2 then none
          else (unpackFrom msg fuel (checked + 2) room target).map (fun r => (r.1,2))
      else none

def decodeName (msg : List UInt8) (src : Nat) : Option (List Label × Nat) :=
  unpackFrom msg (msg.length + nsMaxCdname) 0 nsMaxCdname src

structure NameCodec where
  dnExpand : List UInt8 → Nat → Nat → Option (List Label × Nat)
  dnComp : List Label → Nat → Option (List UInt8)
  dnExpand_decodes : ∀ {msg src siz r}, dnExpand msg src siz = some r → decodeName msg src = some r
  dnExpand_length : ∀ {msg src siz r}, dnExpand msg src siz = some r → (wire r.1).length ≤ siz + 1
  dnComp_wire : ∀ {ls siz w}, dnComp ls siz = some w → w = wire ls ∧ w.length ≤ siz

def textChar (c : UInt8) : Nat :=
  if c ∈ [0x22,0x24,0x28,0x29,0x2e,0x3b,0x40,0x5c] then 2
  else if 0x20 < c ∧ c < 0x7f then 1 else 4

def textLen : List Label → Nat
  | [] => 1
  | [l] => (l.map textChar).sum
  | l :: ls => (l.map textChar).sum + 1 + textLen ls

theorem one_le_textChar (c : UInt8) : 1 ≤ textChar c := by
  unfold textChar
  split_ifs <;> omega

theorem length_le_sum_textChar (l : Label) : l.length ≤ (l.map textChar).sum := by
  induction l with
  | nil => simp
  | cons c cs ih =>
    have := one_le_textChar c
    simp only [length_cons,map_cons,sum_cons]
    omega

theorem wire_length_cons (l : Label) (ls : List Label) :
    (wire (l :: ls)).length = l.length + 1 + (wire ls).length := by
  simp only [wire,cons_append,length_cons,length_append]
  omega

theorem wire_length_le_textLen (ls : List Label) : (wire ls).length ≤ textLen ls + 2 := by
  induction ls with
  | nil => simp [wire]
  | cons l ls ih =>
    have hl := length_le_sum_textChar l
    rw [wire_length_cons]
    cases ls with
    | nil =>
      simp only [wire,textLen,length_cons,length_nil]
      omega
    | cons k ks =>
      simp only [textLen]
      omega

def libresolv : NameCodec where
  dnExpand msg src siz := (decodeName msg src).filter (fun r => textLen r.1 < siz)
  dnComp ls siz := if (wire ls).length ≤ siz then some (wire ls) else none
  dnExpand_decodes := by
    intro msg src siz r h
    exact (Option.filter_eq_some_iff.mp h).1
  dnExpand_length := by
    intro msg src siz r h
    have ht := of_decide_eq_true (Option.filter_eq_some_iff.mp h).2
    have := wire_length_le_textLen r.1
    omega
  dnComp_wire := by
    intro ls siz w h
    split at h
    · cases h
      exact ⟨rfl,by assumption⟩
    · cases h

def convertLabel (L : NameCodec) (msg : List UInt8) (ptr room : Nat) : Option (List UInt8 × Nat) :=
  match L.dnExpand msg ptr nsMaxLabel with
  | none => none
  | some (name,pos) => (L.dnComp name room).map (fun w => (w,pos))

variable {L : NameCodec} {msg : List UInt8} {ptr room : Nat} {w : List UInt8} {pos : Nat}
  (h : convertLabel L msg ptr room = some (w,pos))
include h

theorem convertLabel_eq_some : ∃ ls, decodeName msg ptr = some (ls,pos) ∧ w = wire ls ∧
    w.length ≤ room ∧ w.length ≤ nsMaxLabel + 1 := by
  unfold convertLabel at h
  split at h
  · cases h
  rename_i name pos' he
  obtain ⟨w',hw,heq⟩ := Option.map_eq_some_iff.mp h
  cases heq
  obtain ⟨rfl,hroom⟩ := L.dnComp_wire hw
  exact ⟨name,L.dnExpand_decodes he,rfl,hroom,L.dnExpand_length he⟩

theorem convertLabel_length : w.length ≤ room := by
  obtain ⟨ls,-,-,hlen,-⟩ := convertLabel_eq_some h
  exact hlen

end FuzzingTargets.DnsProxy
