import FuzzingTargets.Connman.Gdhcp.OptionUse

namespace FuzzingTargets.Gdhcp
open Loads Loads.Prog Bytes

def InDatagram (n : Nat) : Access → Prop
  | .byte offset => offset < n
  | .value none _ => False
  | .value (some f) i => i < f.length ∧ f.offset + i < n
  | .inner outer suboption i =>
    i < suboption.length ∧ suboption.offset + i < outer.offset + outer.length ∧
      suboption.offset + i < n
  | .name i => i ≤ nsMaxdname

instance (n : Nat) : DecidablePred (InDatagram n) := by
  intro a
  unfold InDatagram
  split <;> infer_instance

def Found.Within (f : Found) (n : Nat) : Prop := f.offset + f.length ≤ n

theorem bigEndian_lt (bs : List UInt8) : bigEndian bs < 256 ^ bs.length := by
  have hfold : ∀ (bs : List UInt8) (k : Nat),
      bs.foldl (fun n b => n * 256 + b.toNat) k < (k + 1) * 256 ^ bs.length := by
    intro bs
    induction bs with
    | nil => intro k; simp
    | cons b bs ih =>
      intro k
      have hb := b.toNat_lt
      calc (b :: bs).foldl (fun n b => n * 256 + b.toNat) k
          < (k * 256 + b.toNat + 1) * 256 ^ bs.length := ih _
        _ ≤ ((k + 1) * 256) * 256 ^ bs.length := Nat.mul_le_mul_right _ (by omega)
        _ = (k + 1) * 256 ^ (b :: bs).length := by rw [List.length_cons,pow_succ]; ring
  simpa [bigEndian] using hfold bs 0

theorem optionLength_lt (m : Nat → UInt8) (offset : Nat) :
    optionLength (fieldAt m offset 4) < 65536 := by
  have h := bigEndian_lt ((fieldAt m offset 4).drop 2)
  rwa [fieldAt,List.length_drop,List.length_map,List.length_range] at h

def Scope.options (n : Nat) : Scope :=
  ⟨(· ≤ n),fun f size => size ≤ f.length,
    fun outer suboption size => size ≤ suboption.length ∧
      suboption.offset + size ≤ outer.offset + outer.length,(· ≤ nsMaxdname),False⟩

class Governs (S : outParam Scope) (n : outParam Nat) (P : Access → Prop) : Prop where
  bytes (offset : Nat) {size : Nat} : 0 < size →
    ((∀ i < size, P (.byte (offset + i))) ↔ S.bytes (offset + size))
  value {f : Found} (start : Nat) {size : Nat} : f.Within n → 0 < size ∨ start ≤ f.length →
    ((∀ i < size, P (.value (some f) (start + i))) ↔ S.value f (start + size))
  inner {outer : Found} (suboption : Found) (start : Nat) {size : Nat} : outer.Within n → 0 < size →
    ((∀ i < size, P (.inner outer suboption (start + i))) ↔ S.inner outer suboption (start + size))
  whole {f : Found} {size : Nat} : f.Within n → size ≤ f.length → S.value f size
  valueMono {f : Found} {a b : Nat} : a ≤ b → S.value f b → S.value f a
  innerMono {outer suboption : Found} {a b : Nat} : a ≤ b → S.inner outer suboption b →
    S.inner outer suboption a
  name (i : Nat) : P (.name i) ↔ S.name i
  last : S.name (nsMaxdname - 1)
  null : P (.value none 0) ↔ S.null

instance (n : Nat) : Governs (.options n) n (InDatagram n) where
  bytes offset size hsize := by
    change (∀ i < size, offset + i < n) ↔ offset + size ≤ n
    refine ⟨fun h => ?_,fun h i hi => by omega⟩
    have := h (size - 1) (by omega)
    omega
  value {f} start size hf hsize := by
    change (∀ i < size, start + i < f.length ∧ f.offset + (start + i) < n) ↔ start + size ≤ f.length
    unfold Found.Within at hf
    refine ⟨fun h => ?_,fun h i hi => ⟨by omega,by omega⟩⟩
    by_contra hlong
    have := (h (size - 1) (by omega)).1
    omega
  inner {outer} suboption start size houter hsize := by
    change (∀ i < size, start + i < suboption.length ∧
      suboption.offset + (start + i) < outer.offset + outer.length ∧
        suboption.offset + (start + i) < n) ↔ start + size ≤ suboption.length ∧
          suboption.offset + (start + size) ≤ outer.offset + outer.length
    unfold Found.Within at houter
    refine ⟨fun h => ?_,fun h i hi => ⟨by omega,by omega,by omega⟩⟩
    obtain ⟨hin,hout,-⟩ := h (size - 1) (by omega)
    exact ⟨by omega,by omega⟩
  whole _ hsize := hsize
  valueMono hab hb := hab.trans hb
  innerMono hab hb := ⟨hab.trans hb.1,(Nat.add_le_add_left hab _).trans hb.2⟩
  name _ := Iff.rfl
  last := Nat.sub_le _ _
  null := Iff.rfl

abbrev Meets (m : Nat → UInt8) (P : Access → Prop) {α : Type} (p : Handler α) (fits : Prop)
    (post : α → Prop) : Prop :=
  Spec (memory m) P p fits post

section

variable {S : Scope} {m : Nat → UInt8} {n size : Nat} {P : Access → Prop} [hP : Governs S n P]
include hP

theorem spec_loadField (offset : Nat) (hsize : 0 < size) :
    Meets m P (loadField offset size) (S.bytes (offset + size)) (· = fieldAt m offset size) :=
  ⟨(safe_loadBytes fun _ _ => rfl).trans (hP.bytes offset hsize),_,run_loadField offset size,rfl⟩

theorem spec_loadValue {f : Found} (hf : f.Within n) (start : Nat)
    (hsize : 0 < size ∨ start ≤ f.length) :
    Meets m P (loadValue (some f) start size) (S.value f (start + size))
      (· = fieldAt m (f.offset + start) size) :=
  ⟨(safe_loadValue f start size).trans (hP.value start hf hsize),_,run_loadValue f start size,rfl⟩

omit hP in
theorem run_loadInner (outer suboption : Found) (start size : Nat) :
    (loadInner outer suboption start size).run (memory m) =
      .ok (fieldAt m (suboption.offset + start) size) :=
  run_loadBytes fun _ _ => by rw [Nat.add_assoc]; rfl

theorem spec_loadInner {outer : Found} (houter : outer.Within n) (suboption : Found) (start : Nat)
    (hsize : 0 < size) :
    Meets m P (loadInner outer suboption start size) (S.inner outer suboption (start + size))
      fun _ => True :=
  ⟨(safe_loadBytes fun _ _ => rfl).trans (hP.inner suboption start houter hsize),_,
    run_loadInner outer suboption start size,trivial⟩

end

section

variable (S : Scope) (m : Nat → UInt8)

def stepLength (offset : Nat) : Nat := (optionLength (fieldAt m offset 4) + 4) % 65536

def HeadersFit : Nat → Nat → Nat → Prop
  | 0, _, _ => True
  | fuel + 1, offset, rem =>
    S.bytes (offset + 4) ∧ (4 ≤ stepLength m offset → stepLength m offset < rem →
      HeadersFit fuel (offset + stepLength m offset) (rem - stepLength m offset))

def WellFramed (n : Nat) : Prop := 4 < n → HeadersFit S m n 4 (n - 4)

def lookup (n code : Nat) : Except Stop Lookup := (dhcpv6GetOption n code).run (memory m)

end

variable {l : Lookup}

section

variable {S : Scope} {m : Nat → UInt8} {n code : Nat} {P : Access → Prop} [hP : Governs S n P]

theorem spec_scanOptions {fuel offset rem : Nat} (hrem : offset + rem = n)
    (hl : ∀ f ∈ l.option, f.Within n) :
    Meets m P (scanOptions code fuel offset rem l) (HeadersFit S m fuel offset rem)
      fun l' => ∀ f ∈ l'.option, f.Within n := by
  induction fuel generalizing offset rem l with
  | zero => exact .pure hl
  | succ fuel ih =>
    have hlen := optionLength_lt m offset
    have hmeet : ¬stepLength m offset < 4 → ¬rem < stepLength m offset →
        ∀ f ∈ (l.meet code offset (fieldAt m offset 4)).option, f.Within n := by
      intro hshort hlong f hf
      unfold Lookup.meet at hf
      split at hf
      · obtain rfl : (⟨offset + 4,optionLength (fieldAt m offset 4)⟩ : Found) = f := by
          simpa using hf
        unfold stepLength at hshort hlong
        unfold Found.Within
        dsimp only
        omega
      · exact hl f hf
    unfold scanOptions HeadersFit
    refine (spec_loadField offset (by decide)).bind ?_
    rintro _ - rfl
    dsimp only
    rw [show (optionLength (fieldAt m offset 4) + 4) % 65536 = stepLength m offset from rfl]
    split_ifs with hshort hlong hexact
    · exact (Spec.pure (by simp)).congr (by simp [show ¬4 ≤ stepLength m offset by omega])
    · exact (Spec.pure hl).congr (by simp [show ¬stepLength m offset < rem by omega])
    · exact (Spec.pure (hmeet hshort hlong)).congr (by simp [hexact])
    · refine (ih (by omega) (hmeet hshort hlong)).congr ?_
      exact ⟨fun h _ _ => h,fun h => h (by omega) (by omega)⟩

theorem spec_dhcpv6GetOption : Meets m P (dhcpv6GetOption n code) (WellFramed S m n)
    fun l => ∀ f ∈ l.option, f.Within n := by
  unfold dhcpv6GetOption WellFramed
  split
  · exact (Spec.pure (by simp)).congr (by simp [show ¬4 < n by omega])
  · exact (spec_scanOptions (by omega) (by simp)).congr (by simp [show 4 < n by omega])

theorem exists_lookup (m : Nat → UInt8) (n code : Nat) : ∃ l, lookup m n code = .ok l := by
  obtain ⟨-,l,hl,-⟩ := @spec_dhcpv6GetOption _ m n code (InDatagram n) _
  exact ⟨l,hl⟩

theorem spec_lookup (h : lookup m n code = .ok l) :
    Meets m P (dhcpv6GetOption n code) (WellFramed S m n) (· = l) :=
  ⟨spec_dhcpv6GetOption.1,l,h,rfl⟩

theorem lookup_within (h : lookup m n code = .ok l) : ∀ f ∈ l.option, f.Within n := by
  obtain ⟨-,l',hl',hin⟩ := @spec_dhcpv6GetOption _ m n code (InDatagram n) _
  obtain rfl : l' = l := Except.ok.inj (hl'.symm.trans h)
  exact hin

end

section

variable (S : Scope) (m : Nat → UInt8)

def TextFits (outer suboption : Found) : Prop :=
  ∀ i < suboption.length - 2, (∀ j < i, m (suboption.offset + (2 + j)) ≠ 0) →
    S.inner outer suboption (2 + i + 1)

def SubOptionFits (code : Nat) (outer suboption : Found) : Prop :=
  (code = 5 → S.inner outer suboption 24) ∧
  (code = 13 → S.inner outer suboption 2 ∧ TextFits S m outer suboption) ∧
  (code = 26 → S.inner outer suboption 25)

def subOptionAt (f : Found) (pos : Nat) : Found :=
  ⟨f.offset + pos + 4,optionLength (fieldAt m (f.offset + pos) 4)⟩

def subOptionCode (f : Found) (pos : Nat) : Nat := optionCode (fieldAt m (f.offset + pos) 4)

def SubOptionsFit (f : Found) (maxLen : Nat) : Nat → Nat → Prop
  | 0, _ => True
  | fuel + 1, pos => 4 < maxLen → S.value f (pos + 4) ∧
    ((subOptionAt m f pos).length ≤ maxLen - 4 →
      SubOptionFits S m (subOptionCode m f pos) f (subOptionAt m f pos) ∧
        (pos + 4 + (subOptionAt m f pos).length < f.length →
          SubOptionsFit f maxLen fuel (pos + 4 + (subOptionAt m f pos).length)))

def AddressesFit (f : Found) (iaid code : Nat) : Prop :=
  4 ≤ f.length → bigEndian (fieldAt m f.offset 4) = iaid →
    if code = 3 ∨ code = 25 then
      S.value f 12 ∧ (bigEndian (fieldAt m (f.offset + 4) 4) ≤
        bigEndian (fieldAt m (f.offset + 8) 4) → 12 < f.length →
          SubOptionsFit S m f (f.length - 12) f.length 12)
    else 4 < f.length → SubOptionsFit S m f (f.length - 4) f.length 4

end

section

variable {S : Scope} {m : Nat → UInt8} {n : Nat} {P : Access → Prop} [hP : Governs S n P]
  {outer : Found} {addr : Nat → Access}

theorem run_loadText {g : Nat → UInt8} (h : ∀ i, memory m (addr i) = some (g i)) (size : Nat) :
    (loadText addr size).run (memory m) =
      .ok (((List.range size).map g).takeWhile fun b => !(b == 0)) :=
  run_loadUntil fun i _ => h i

theorem spec_loadText {g : Nat → UInt8} (h : ∀ i, memory m (addr i) = some (g i)) (size : Nat) :
    Meets m P (loadText addr size) (∀ i < size, (∀ j < i, g j ≠ 0) → P (addr i))
      fun _ => True := by
  refine ⟨?_,_,run_loadText h size,trivial⟩
  unfold loadText
  rw [safe_loadUntil fun i _ => h i]
  simp

section

variable (houter : outer.Within n) (suboption : Found) (a : Addresses)
include houter

theorem spec_readIaAddr : Meets m P (readIaAddr outer suboption a) (S.inner outer suboption 24)
    fun _ => True := by
  refine ((spec_loadInner houter suboption 0 (by decide)).bind fun _ _ _ =>
    (spec_loadInner houter _ _ (by decide)).bind fun _ _ _ =>
      (spec_loadInner houter _ _ (by decide)).bind fun _ _ _ => .pure trivial).congr ?_
  constructor
  · rintro ⟨-,-,h,-⟩
    exact h
  · intro h
    exact ⟨hP.innerMono (by decide) h,hP.innerMono (by decide) h,h,trivial⟩

theorem spec_readStatusCode : Meets m P (readStatusCode outer suboption a)
    (S.inner outer suboption 2 ∧ TextFits S m outer suboption) fun _ => True := by
  refine ((spec_loadInner houter suboption 0 (by decide)).bind fun _ _ _ =>
    (spec_loadText (fun _ => rfl) _).bind fun _ _ _ => .pure trivial).congr ?_
  refine and_congr_right fun _ => (and_iff_left trivial).trans ?_
  refine forall₃_congr fun i _ _ => ?_
  simpa using hP.inner suboption (2 + i) houter (show 0 < 1 by decide)

theorem spec_readIaPrefix (now : Nat) : Meets m P (readIaPrefix now outer suboption a)
    (S.inner outer suboption 25) fun _ => True := by
  refine ((spec_loadInner houter suboption 0 (by decide)).bind fun _ _ _ =>
    (spec_loadInner houter _ _ (by decide)).bind fun _ _ _ =>
      (Spec.fetch (memory_inner _ _ _)).bind fun _ _ _ =>
        (spec_loadInner houter _ _ (by decide)).bind fun _ _ _ => Spec.pure trivial).congr ?_
  constructor
  · rintro ⟨-,-,-,h,-⟩
    exact h
  intro h
  refine ⟨hP.innerMono (by decide) h,hP.innerMono (by decide) h,?_,h,trivial⟩
  simpa using (hP.inner suboption 0 houter (show 0 < 25 by decide)).mpr h 8 (by decide)

theorem spec_readSubOption (now code : Nat) : Meets m P (readSubOption now code outer suboption a)
    (SubOptionFits S m code outer suboption) fun _ => True := by
  unfold readSubOption SubOptionFits
  split_ifs with haddr hstatus hpre
  · exact (spec_readIaAddr houter suboption a).congr (by simp [haddr])
  · exact (spec_readStatusCode houter suboption a).congr (by simp [hstatus])
  · exact (spec_readIaPrefix houter suboption a now).congr (by simp [hpre])
  · exact (Spec.pure trivial).congr (by simp [haddr,hstatus,hpre])

end

theorem run_dhcpv6GetSubOption (pos maxLen : Nat) :
    (dhcpv6GetSubOption outer pos maxLen).run (memory m) =
      .ok (if 4 < maxLen ∧ (subOptionAt m outer pos).length ≤ maxLen - 4 then
        some (subOptionCode m outer pos,subOptionAt m outer pos) else none) := by
  unfold dhcpv6GetSubOption
  split
  · rw [if_neg (by omega)]
    rfl
  rw [run_bind_of (run_loadValue outer pos 4)]
  split
  · rename_i hlong
    rw [if_neg (by unfold subOptionAt; dsimp only; omega)]
    rfl
  · rename_i hlong
    rw [if_pos ⟨by omega,by unfold subOptionAt; dsimp only; omega⟩]
    rfl

theorem spec_dhcpv6GetSubOption (houter : outer.Within n) (pos maxLen : Nat) :
    Meets m P (dhcpv6GetSubOption outer pos maxLen) (4 < maxLen → S.value outer (pos + 4))
      (· = if 4 < maxLen ∧ (subOptionAt m outer pos).length ≤ maxLen - 4 then
        some (subOptionCode m outer pos,subOptionAt m outer pos) else none) := by
  refine ⟨?_,_,run_dhcpv6GetSubOption pos maxLen,rfl⟩
  unfold dhcpv6GetSubOption
  split
  · simp [show ¬4 < maxLen by omega]
  rw [safe_bind,(spec_loadValue houter pos (.inl (by decide))).1]
  simp only [show 4 < maxLen by omega,true_imp_iff]
  refine and_iff_left fun head _ => ?_
  split <;> exact safe_pure _

theorem spec_readSubOptions (now maxLen : Nat) (houter : outer.Within n) (fuel pos : Nat)
    (a : Addresses) : Meets m P (readSubOptions now outer outer.length maxLen fuel pos a)
      (SubOptionsFit S m outer maxLen fuel pos) fun _ => True := by
  induction fuel generalizing pos a with
  | zero => exact .pure trivial
  | succ fuel ih =>
    unfold readSubOptions SubOptionsFit
    have hsub := spec_dhcpv6GetSubOption (m := m) (P := P) houter pos maxLen
    by_cases hmax : 4 < maxLen
    · simp only [hmax,true_imp_iff,true_and] at hsub ⊢
      refine hsub.bind ?_
      rintro _ - rfl
      by_cases hlen : (subOptionAt m outer pos).length ≤ maxLen - 4
      · simp only [hlen,if_true,true_imp_iff]
        refine (spec_readSubOption houter _ a now _).bind fun a' _ _ => ?_
        split
        · rename_i hnext
          exact (ih _ _).congr (by simp [hnext])
        · rename_i hnext
          exact (Spec.pure trivial).congr (by simp [hnext])
      · simp only [hlen,if_false]
        exact (Spec.pure trivial).congr (by simp)
    · simp only [hmax,false_imp_iff,false_and,if_false] at hsub ⊢
      refine (hsub.bind (G := True) ?_).congr (by simp)
      rintro _ - rfl
      exact .pure trivial

theorem useAddresses_iaid (client : Client) (env : Env) (code t1 t2 : Nat) (a : Addresses) :
    (client.useAddresses env code t1 t2 a).1.iaid = client.iaid := by
  unfold Client.useAddresses Client.addAddress Client.addPrefixes
  dsimp only
  split_ifs <;> rfl

variable (env : Env) (client : Client)
include env client

theorem spec_readAddresses (houter : outer.Within n) (code pos t1 t2 : Nat) :
    Meets m P (readAddresses env client code outer pos t1 t2)
      (pos < outer.length → SubOptionsFit S m outer (outer.length - pos) outer.length pos)
      fun r => r.1.iaid = client.iaid := by
  unfold readAddresses
  split
  · exact .congr (.pure rfl) (by simp [show ¬pos < outer.length by omega])
  · refine .congr ((spec_readSubOptions env.now _ houter _ _ _).bind fun _ _ _ =>
      .pure (useAddresses_iaid _ _ _ _ _ _)) ?_
    simp [show pos < outer.length by omega]

theorem spec_getAddresses (houter : outer.Within n) (code : Nat) :
    Meets m P (getAddresses env client code outer) (AddressesFit S m outer client.iaid code)
      fun r => r.1.iaid = client.iaid := by
  have hload := fun start => @spec_loadValue _ m _ 4 P _ outer houter start (.inl (by decide))
  unfold getAddresses AddressesFit
  split
  · exact .congr (.pure rfl) (by simp [show ¬4 ≤ outer.length by omega])
  rename_i hlen
  simp only [show 4 ≤ outer.length by omega,true_imp_iff]
  refine ((hload 0).bind ?_).congr (and_iff_right (hP.whole houter (by omega)))
  rintro _ - rfl
  rw [Nat.add_zero]
  by_cases hiaid : bigEndian (fieldAt m outer.offset 4) = client.iaid
  · simp only [hiaid,true_imp_iff,ne_eq,not_true_eq_false,if_false]
    split
    · refine ((hload 4).bind (G := S.value outer 12 ∧ _) ?_).congr
        (and_iff_right_of_imp fun h => hP.valueMono (by decide) h.1)
      rintro _ - rfl
      refine (hload 8).bind ?_
      rintro _ - rfl
      split
      · rename_i hless
        exact .congr (.pure rfl) (by simp [Nat.not_le.mpr hless])
      · rename_i hless
        exact (spec_readAddresses env client houter _ _ _ _).congr (by simp [Nat.not_lt.mp hless])
    · exact spec_readAddresses env client houter _ _ _ _
  · rw [if_pos hiaid]
    exact .congr (.pure rfl) (by simp [hiaid])

end

def LabelsFit (S : Scope) : Nat → List UInt8 → Nat → Prop
  | 0, _, _ => True
  | fuel + 1, frame, c =>
    frame.getD c 0 ≠ 0 → S.name c ∧
      LabelsFit S fuel (frame.set c 46) (c + ((frame.getD c 0).toNat + 1))

section

variable (S : Scope) (m : Nat → UInt8)

def nameText (f : Found) (pos : Nat) : List UInt8 :=
  ((List.range nsMaxdname).map fun i => m (f.offset + (pos + i))).takeWhile fun b => !(b == 0)

def NameInside (f : Found) (pos : Nat) : Prop :=
  ∀ i < nsMaxdname, (∀ j < i, m (f.offset + (pos + j)) ≠ 0) → S.value f (pos + i + 1)

def DomainsFit (f : Found) : Nat → Nat → List UInt8 → Prop
  | 0, _, _ => True
  | fuel + 1, pos, frame => pos < f.length → NameInside S m f pos ∧
    LabelsFit S (strncpy (nameText m f pos) frame).length (strncpy (nameText m f pos) frame) 0 ∧
    ∀ next c, (walkLabels (strncpy (nameText m f pos) frame).length
        (strncpy (nameText m f pos) frame) 0).run (memory m) = .ok (next,c) →
      DomainsFit f fuel (pos + (c + 1)) next

def ValueFits (env : Env) (iaid code : Nat) (f : Found) : Prop :=
  (code = 3 ∨ code = 4 ∨ code = 25 → AddressesFit S m f iaid code) ∧
  (code = 24 → 3 ≤ f.length → DomainsFit S m f f.length 0 env.stack)

def RequestFits (n : Nat) (env : Env) (iaid : Nat) (list : List Nat) : Prop :=
  ∀ entry ∈ list, ∀ l f, lookup m n (entry % 65536) = .ok l → l.option = some f →
    ValueFits S m env iaid (entry % 65536) f

end

section

variable {S : Scope} {m : Nat → UInt8} {n : Nat} {P : Access → Prop} [hP : Governs S n P]
  {f : Found}
include hP

theorem spec_walkLabels (fuel : Nat) (frame : List UInt8) (c : Nat) :
    Meets m P (walkLabels fuel frame c) (LabelsFit S fuel frame c) fun _ => True := by
  induction fuel generalizing frame c with
  | zero => exact .pure trivial
  | succ fuel ih =>
    unfold walkLabels LabelsFit
    dsimp only
    split
    · rename_i hzero
      exact (Spec.pure trivial).congr ⟨fun _ h => absurd hzero h,fun _ => trivial⟩
    · rename_i hne
      refine ((ih _ _).store _).congr ?_
      simp only [ne_eq,hne,not_false_eq_true,true_imp_iff,hP.name]

omit hP in
theorem run_loadName (pos : Nat) : (loadName f pos).run (memory m) = .ok (nameText m f pos) := by
  exact run_loadText (fun _ => rfl) _

theorem spec_loadName (hf : f.Within n) (pos : Nat) :
    Meets m P (loadName f pos) (NameInside S m f pos) (· = nameText m f pos) := by
  refine ⟨(spec_loadText (fun _ => rfl) _).1.trans ?_,_,run_loadName pos,rfl⟩
  refine forall₃_congr fun i _ _ => ?_
  simpa using hP.value (pos + i) hf (.inl (show 0 < 1 by decide))

theorem spec_readDomains (hf : f.Within n) (fuel pos : Nat) (frame : List UInt8) (list : List Value) :
    Meets m P (readDomains f fuel pos frame list) (DomainsFit S m f fuel pos frame)
      fun _ => True := by
  induction fuel generalizing pos frame list with
  | zero => exact .pure trivial
  | succ fuel ih =>
    unfold readDomains DomainsFit
    split
    · exact (Spec.pure trivial).congr (by simp [show ¬pos < f.length by omega])
    have hlast : P (.name (nsMaxdname - 1)) := (hP.name _).mpr hP.last
    simp only [show pos < f.length by omega,true_imp_iff]
    refine (spec_loadName hf pos).bind fun text _ htext => ?_
    rw [htext]
    refine (((spec_walkLabels _ _ _).store _).bind ?_).congr (and_congr_left' (and_iff_right hlast))
    rintro ⟨next,c⟩ hrun -
    rw [run_store] at hrun
    refine (ih _ _ _).congr ⟨?_,fun h => h next c hrun⟩
    intro h next' c' hwalk
    cases hrun.symm.trans hwalk
    exact h

variable (env : Env)
include env

theorem spec_readServers (hf : f.Within n) {count i : Nat} (hfit : i + count * 16 ≤ f.length) :
    Meets m P (readServers env f count i) True fun _ => True := by
  induction count generalizing i with
  | zero => exact .pure trivial
  | succ count ih =>
    refine ((spec_loadValue hf i (.inl (by decide))).bind fun _ _ _ =>
      (ih (by omega)).bind fun _ _ _ => .pure trivial).congr ?_
    simp only [and_true,iff_true]
    exact hP.whole hf (by omega)

theorem spec_getServers (hf : f.Within n) : Meets m P (getServers env f) True fun _ => True := by
  unfold getServers
  split
  · exact .pure trivial
  · exact spec_readServers env hf (by omega)

theorem spec_getDomains (hf : f.Within n) : Meets m P (getDomains env f)
    (3 ≤ f.length → DomainsFit S m f f.length 0 env.stack) fun _ => True := by
  unfold getDomains
  split
  · exact (Spec.pure trivial).congr (by simp [show ¬3 ≤ f.length by omega])
  · exact (spec_readDomains hf _ _ _ _).congr (by simp [show 3 ≤ f.length by omega])

theorem spec_getDhcpv6OptionValueList (client : Client) (hf : f.Within n) (code : Nat) :
    Meets m P (getDhcpv6OptionValueList env client code f) (ValueFits S m env client.iaid code f)
      fun r => r.1.iaid = client.iaid := by
  unfold getDhcpv6OptionValueList ValueFits
  split_ifs with hserver haddr hdomain
  · have hneither : ¬(code = 3 ∨ code = 4 ∨ code = 25) ∧ code ≠ 24 := by omega
    exact .congr ((spec_getServers env hf).bind fun _ _ _ => .pure rfl) (by simp [hneither])
  · have hnot : code ≠ 24 := by omega
    exact (spec_getAddresses env client hf code).congr (by simp [haddr,hnot])
  · exact .congr ((spec_getDomains env hf).bind fun _ _ _ => .pure rfl) (by simp [hdomain])
  · exact .congr (.pure rfl) (by simp [haddr,hdomain])

theorem spec_getDhcpv6Request (hframed : WellFramed S m n) (list : List Nat) (client : Client) :
    Meets m P (getDhcpv6Request env n list client) (RequestFits S m n env client.iaid list)
      fun _ => True := by
  induction list generalizing client with
  | nil => exact (Spec.pure trivial).congr (by simp [RequestFits])
  | cons entry entries ih =>
    obtain ⟨l,hl⟩ := exists_lookup m n (entry % 65536)
    have hhead : RequestFits S m n env client.iaid (entry :: entries) ↔
        (∀ f, l.option = some f → ValueFits S m env client.iaid (entry % 65536) f) ∧
          RequestFits S m n env client.iaid entries := by
      unfold RequestFits
      rw [List.forall_mem_cons]
      refine and_congr_left fun _ => ?_
      constructor
      · intro h f hf
        exact h l f hl hf
      · intro h l' f hl' hf
        obtain rfl : l = l' := Except.ok.inj (hl.symm.trans hl')
        exact h f hf
    unfold getDhcpv6Request
    refine ((spec_lookup hl).bind ?_).congr ((and_iff_right hframed).trans hhead.symm)
    rintro l - rfl
    cases hoption : l.option with
    | none => exact (ih _).congr (by simp)
    | some f =>
      refine ((spec_getDhcpv6OptionValueList env client (lookup_within hl f hoption) _).bind ?_).congr
        (and_congr_left' (by simp))
      rintro ⟨client',values⟩ - hiaid
      rw [← hiaid]
      exact ih _

end

section

variable (S : Scope) (m : Nat → UInt8) (n : Nat)

def StatusFits : Prop :=
  ∀ l, lookup m n 13 = .ok l → ∀ f, l.option = some f → f.length ≠ 0 → S.value f 2

def statusOf (f : Found) (client : Client) : Nat :=
  if f.length = 0 then client.statusCode else bigEndian (fieldAt m f.offset 2)

def statusAfter (client : Client) : Nat :=
  match lookup m n 13 with
  | .ok ⟨some f,_⟩ => statusOf m f client
  | _ => client.statusCode

def RapidCommit : Prop :=
  ∃ l, lookup m n 14 = .ok l ∧ l.count = 1 ∧ l.option.any fun f => f.length = 0

def SolicitationFits (env : Env) (client : Client) : Prop :=
  m 0 = 7 ∨ m 0 = 2 → ∀ l, lookup m n 2 = .ok l → ∀ serverId, l.single = some serverId →
    (m 0 = 7 → RapidCommit m n) → client.statusCode = 0 →
      RequestFits S m n env client.iaid client.requestList

def DuidFits (client : Client) (serverId : Found) : Prop :=
  ∀ duid, client.serverDuid = some duid → S.value serverId duid.length

def DuidMatches (client : Client) (serverId : Found) : Prop :=
  ∀ duid, client.serverDuid = some duid → fieldAt m serverId.offset duid.length = duid

def ReplyFits (env : Env) (client : Client) : Prop :=
  m 0 = 7 → ∀ l, lookup m n 2 = .ok l → ∀ serverId, l.single = some serverId →
    DuidFits S client serverId ∧
      (DuidMatches m client serverId → RequestFits S m n env client.iaid client.requestList)

def adopted (client : Client) : Option Client :=
  match lookup m n 2 with
  | .ok ⟨some serverId,count⟩ =>
    if client.serverDuid = none ∧ count = 1 then
      if serverId.length = 0 then none
      else some { client with serverDuid := some (fieldAt m serverId.offset serverId.length) }
    else some client
  | _ => some client

def HandlerFits (env : Env) (client : Client) : Prop :=
  match client.state with
  | .initSelecting | .rebooting | .requesting | .renewing | .rebinding => S.null
  | .solicitation => SolicitationFits S m n env client
  | .rebind => ∀ c, adopted m n client = some c → ReplyFits S m n env c
  | .informationReq | .request | .renew | .release | .confirm | .decline =>
    ReplyFits S m n env client
  | _ => True

def ReadsFit (env : Env) (client : Client) : Prop :=
  S.bytes 4 ∧ (bigEndian (fieldAt m 1 3) = client.xid → WellFramed S m n ∧
    ∀ l, lookup m n 1 = .ok l → ∀ clientId, l.option = some clientId → clientId.length ≠ 0 →
      S.value clientId client.duid.length ∧
        (fieldAt m clientId.offset client.duid.length = client.duid → StatusFits S m n ∧
          HandlerFits S m n env { client with statusCode := statusAfter m n client }))

abbrev Dhcpv6Fits (env : Env) (client : Client) : Prop := ReadsFit (.options n) m n env client

end

section

variable {S : Scope} {m : Nat → UInt8} {n : Nat} {P : Access → Prop} [hP : Governs S n P]
  {f : Found}
include hP

theorem spec_sameBytes (hf : f.Within n) (bytes : List UInt8) :
    Meets m P (sameBytes bytes f) (S.value f bytes.length)
      (· = decide (fieldAt m f.offset bytes.length = bytes)) := by
  refine .congr ((spec_loadValue hf 0 (.inr (Nat.zero_le _))).bind ?_)
    (and_iff_left trivial |>.trans (by rw [Nat.zero_add]))
  rintro _ - rfl
  exact .pure rfl

theorem spec_copyValue (hf : f.Within n) :
    Meets m P (copyValue f) True (· = fieldAt m f.offset f.length) :=
  (spec_loadValue hf 0 (.inr (Nat.zero_le _))).congr
    (iff_true_intro (hP.whole hf (Nat.zero_add _).le))

omit hP in
theorem single_within {code : Nat} (hl : lookup m n code = .ok l)
    (hs : l.single = some f) : f.Within n := by
  unfold Lookup.single at hs
  split at hs
  · exact lookup_within hl f (Option.eq_some_of_filter_eq_some hs)
  · cases hs

theorem spec_readStatusText (hf : f.Within n) (status : Nat) :
    Meets m P (readStatusText f status) True fun _ => True := by
  unfold readStatusText
  split
  · exact .pure trivial
  · refine (spec_loadText (fun _ => rfl) _).congr (iff_true_intro fun i hi _ => ?_)
    have hvalue := hP.value (2 + i) hf (.inl (show 0 < 1 by decide))
    simpa using hvalue.mpr (hP.whole hf (by omega))

theorem spec_readStatusOption (hf : f.Within n) (client : Client) :
    Meets m P (readStatusOption f client) (f.length ≠ 0 → S.value f 2)
      (· = { client with statusCode := statusOf m f client }) := by
  unfold readStatusOption statusOf
  split
  · rename_i hzero
    exact .congr (.pure rfl) (by simp [hzero])
  · rename_i hne
    refine .congr ((spec_loadValue hf 0 (.inl (by decide))).bind (G := True) ?_)
      (by simp [hne])
    rintro _ - rfl
    exact (spec_readStatusText hf _).seq fun _ _ _ => .pure rfl

theorem spec_readStatus (hframed : WellFramed S m n) (client : Client) :
    Meets m P (readStatus n client) (StatusFits S m n)
      (· = { client with statusCode := statusAfter m n client }) := by
  obtain ⟨l,hl⟩ := exists_lookup m n 13
  unfold StatusFits statusAfter
  simp only [hl,Except.ok.injEq,forall_eq']
  refine ((spec_lookup hl).bind ?_).congr (and_iff_right hframed)
  rintro ⟨option,count⟩ - rfl
  cases option with
  | none => exact .congr (.pure rfl) (by simp)
  | some f => exact (spec_readStatusOption (lookup_within hl f rfl) client).congr (by simp)

theorem spec_rapidCommit (hframed : WellFramed S m n) (message : UInt8) :
    Meets m P (rapidCommit n message) True
      fun accepted => accepted = true ↔ (message = 7 → RapidCommit m n) := by
  unfold rapidCommit RapidCommit
  split
  · rename_i hne
    exact .pure (by simp [hne])
  · rename_i heq
    refine .congr ((spec_dhcpv6GetOption (P := P)).bind fun l hl _ => .pure ?_) (by simp [hframed])
    have hl : lookup m n 14 = .ok l := hl
    simp [not_not.mp heq,hl]

end

section

variable {S : Scope} {m : Nat → UInt8} {n : Nat} {P : Access → Prop} [hP : Governs S n P]
  (hframed : WellFramed S m n) (env : Env)
  (client : Client)
include hframed

theorem spec_finishSolicitation (message : UInt8) :
    Meets m P (finishSolicitation env n message client)
      (client.statusCode = 0 → RequestFits S m n env client.iaid client.requestList)
      fun _ => True := by
  unfold finishSolicitation requestUnlessFailed
  refine (Spec.bind ?_ fun _ _ (_ : True) => .pure trivial).congr
    (and_iff_left trivial)
  split
  · rename_i hstatus
    exact (spec_getDhcpv6Request env hframed _ _).congr
      (by simp [show client.statusCode = 0 from hstatus])
  · rename_i hstatus
    exact (Spec.pure trivial).congr (by simp [show client.statusCode ≠ 0 from hstatus])

theorem spec_handleSolicitation (hn : S.bytes 4) :
    Meets m P (handleSolicitation env n client) (SolicitationFits S m n env client)
      fun _ => True := by
  obtain ⟨l,hl⟩ := exists_lookup m n 2
  have hfirst : P (.byte 0) := (hP.bytes 0 (show 0 < 4 by decide)).mpr hn 0 (by decide)
  unfold SolicitationFits
  refine ((Spec.fetch (memory_byte 0)).bind ?_).congr (and_iff_right hfirst)
  rintro _ - rfl
  by_cases hmessage : m 0 = 7 ∨ m 0 = 2
  · rw [if_neg (by tauto)]
    simp only [hmessage,true_imp_iff,hl,Except.ok.injEq,forall_eq']
    refine ((spec_lookup hl).bind ?_).congr (and_iff_right hframed)
    rintro l - rfl
    cases hsingle : l.single with
    | none => exact (Spec.pure trivial).congr (by simp)
    | some serverId =>
      simp only [Option.some.injEq,forall_eq']
      refine (spec_copyValue (single_within hl hsingle)).seq ?_
      rintro _ - rfl
      refine (spec_rapidCommit hframed (m 0)).seq fun accepted _ haccepted => ?_
      rw [← haccepted]
      split
      · rename_i htrue
        exact (spec_finishSolicitation hframed env _ _).congr (by simp [htrue])
      · rename_i hfalse
        exact (Spec.pure trivial).congr (by simp [hfalse])
  · rw [if_pos (by tauto)]
    exact (Spec.pure trivial).congr (by simp [hmessage])

theorem spec_finishReply : Meets m P (finishReply n client) True fun _ => True := by
  unfold finishReply
  split
  · exact .pure trivial
  split
  · refine ((spec_dhcpv6GetOption (P := P)).bind (G := True) fun l hl _ => ?_).congr (by simp [hframed])
    cases hsingle : l.single with
    | none => exact .pure trivial
    | some serverId =>
      exact (spec_copyValue (single_within hl hsingle)).seq fun _ _ _ => .pure trivial
  · exact .pure trivial

omit hframed in
theorem spec_matchesServer {serverId : Found} (hf : serverId.Within n) :
    Meets m P (matchesServer client serverId) (DuidFits S client serverId)
      fun same => same = true ↔ DuidMatches m client serverId := by
  unfold matchesServer DuidFits DuidMatches
  cases client.serverDuid with
  | none => exact .congr (.pure (by simp)) (by simp)
  | some duid =>
    obtain ⟨hsafe,same,hrun,rfl⟩ := spec_sameBytes (m := m) (P := P) hf duid
    exact ⟨hsafe.trans (by simp),_,hrun,by simp⟩

theorem spec_handleReply6 (hn : S.bytes 4) :
    Meets m P (handleReply6 env n client) (ReplyFits S m n env client) fun _ => True := by
  obtain ⟨l,hl⟩ := exists_lookup m n 2
  have hfirst : P (.byte 0) := (hP.bytes 0 (show 0 < 4 by decide)).mpr hn 0 (by decide)
  unfold ReplyFits
  refine ((Spec.fetch (memory_byte 0)).bind ?_).congr (and_iff_right hfirst)
  rintro _ - rfl
  by_cases hmessage : m 0 = 7
  · rw [if_neg (by tauto)]
    simp only [hmessage,true_imp_iff,hl,Except.ok.injEq,forall_eq']
    refine ((spec_lookup hl).bind ?_).congr (and_iff_right hframed)
    rintro l - rfl
    cases hsingle : l.single with
    | none => exact (Spec.pure trivial).congr (by simp)
    | some serverId =>
      simp only [Option.some.injEq,forall_eq']
      refine (spec_matchesServer client (single_within hl hsingle)).bind fun same _ hsame => ?_
      rw [← hsame]
      split
      · rename_i htrue
        exact ((spec_getDhcpv6Request env hframed _ _).bind fun client' _ _ =>
          spec_finishReply hframed client').congr (by simp [htrue])
      · rename_i hfalse
        exact (Spec.pure trivial).congr (by simp [hfalse])
  · rw [if_pos hmessage]
    exact (Spec.pure trivial).congr (by simp [hmessage])

theorem spec_adoptServer : Meets m P (adoptServer n client) True (· = adopted m n client) := by
  obtain ⟨l,hl⟩ := exists_lookup m n 2
  unfold adopted
  rw [hl]
  refine ((spec_lookup hl).bind ?_).congr (and_iff_left trivial |>.trans (iff_true_intro hframed))
  rintro ⟨option,count⟩ - rfl
  cases option with
  | none => exact .pure rfl
  | some serverId =>
    dsimp only
    split
    · unfold takeServerDuid
      split
      · exact .pure rfl
      · refine (spec_copyValue (lookup_within hl serverId rfl)).seq ?_
        rintro _ - rfl
        exact .pure rfl
    · exact .pure rfl

theorem spec_handleRebind (hn : S.bytes 4) : Meets m P (handleRebind env n client)
      (∀ c, adopted m n client = some c → ReplyFits S m n env c) fun _ => True := by
  refine (spec_adoptServer hframed client).seq ?_
  rintro _ - rfl
  cases adopted m n client with
  | none => exact (Spec.pure trivial).congr (by simp)
  | some c => exact (spec_handleReply6 hframed env c hn).congr (by simp)

theorem safe_handlePacket6 (hn : S.bytes 4) :
    Safe (memory m) P (handlePacket6 env n client) ↔ HandlerFits S m n env client := by
  have hnull : Safe (memory m) P (readNullMessageType client) ↔ S.null :=
    (safe_fetch_null rfl).trans hP.null
  unfold handlePacket6 HandlerFits
  cases client.state with
  | initSelecting | rebooting | requesting | renewing | rebinding => exact hnull
  | solicitation => exact (spec_handleSolicitation hframed env client hn).1
  | rebind => exact (spec_handleRebind hframed env client hn).1
  | informationReq | request | renew | release | confirm | decline =>
    exact (spec_handleReply6 hframed env client hn).1
  | bound | released | ipv4llProbe | ipv4llAnnounce | ipv4llMonitor | ipv4llDefend => simp

theorem spec_checkClientId (hl : lookup m n 1 = .ok l) :
    Meets m P (checkClientId n client) (∀ clientId, l.option = some clientId →
        clientId.length ≠ 0 → S.value clientId client.duid.length)
      fun ours => ours = true ↔ ∃ clientId, l.option = some clientId ∧ clientId.length ≠ 0 ∧
        fieldAt m clientId.offset client.duid.length = client.duid := by
  refine ((spec_lookup hl).bind ?_).congr (and_iff_right hframed)
  rintro l - rfl
  cases hoption : l.option with
  | none => exact .congr (.pure (by simp)) (by simp)
  | some clientId =>
    dsimp only
    split
    · rename_i hzero
      exact .congr (.pure (by simp [hzero])) (by simp [hzero])
    · rename_i hzero
      obtain ⟨hsafe,same,hrun,rfl⟩ :=
        spec_sameBytes (m := m) (P := P) (lookup_within hl clientId hoption) client.duid
      exact ⟨hsafe.trans (by simp [hzero]),_,hrun,by simp [hzero]⟩

theorem safe_checkClientId_bind (hl : lookup m n 1 = .ok l) {α : Type}
    (k : Bool → Handler α) (hk : Safe (memory m) P (k false)) :
    Safe (memory m) P (checkClientId n client >>= k) ↔
      ∀ clientId, l.option = some clientId → clientId.length ≠ 0 →
        S.value clientId client.duid.length ∧
          (fieldAt m clientId.offset client.duid.length = client.duid →
            Safe (memory m) P (k true)) := by
  obtain ⟨hsafe,ours,hrun,hours⟩ := spec_checkClientId (P := P) hframed client hl
  rw [safe_bind_of hrun,hsafe]
  cases ours with
  | false =>
    constructor
    · rintro ⟨hlen,-⟩ clientId hoption hzero
      refine ⟨hlen clientId hoption hzero,fun hsame => ?_⟩
      exact absurd (hours.mpr ⟨clientId,hoption,hzero,hsame⟩) Bool.false_ne_true
    · intro h
      exact ⟨fun clientId hoption hzero => (h clientId hoption hzero).1,hk⟩
  | true =>
    obtain ⟨clientId,hoption,hzero,hsame⟩ := hours.mp rfl
    constructor
    · rintro ⟨hlen,htrue⟩ other hother hne
      exact ⟨hlen other hother hne,fun _ => htrue⟩
    · intro h
      exact ⟨fun other hother hne => (h other hother hne).1,(h clientId hoption hzero).2 hsame⟩

end

theorem run_checkPackageOwner6 {m : Nat → UInt8} (client : Client) :
    (checkPackageOwner6 client).run (memory m) =
      .ok (decide (bigEndian (fieldAt m 1 3) = client.xid)) := by
  unfold checkPackageOwner6
  rfl

theorem safe_listenerEvent6 {S : Scope} {m : Nat → UInt8} {n : Nat} {P : Access → Prop}
    [Governs S n P] (env : Env) (client : Client) :
    Safe (memory m) P (listenerEvent6 env n client) ↔ ReadsFit S m n env client := by
  obtain ⟨l,hl⟩ := exists_lookup m n 1
  have howner : Safe (memory m) P (checkPackageOwner6 client) ↔ S.bytes 4 := by
    unfold checkPackageOwner6
    rw [safe_bind,(spec_loadField 1 (by decide)).1]
    simp
  unfold listenerEvent6 ReadsFit
  rw [safe_bind_of (run_loadField 1 3),(spec_loadField 1 (by decide)).1,
    safe_bind_of (run_checkPackageOwner6 client),howner,← and_assoc,and_self]
  refine and_congr_right fun hn => ?_
  by_cases hxid : bigEndian (fieldAt m 1 3) = client.xid
  · simp only [hxid,decide_true,if_true,true_imp_iff,hl,Except.ok.injEq,forall_eq']
    by_cases hframed : WellFramed S m n
    · rw [safe_checkClientId_bind hframed client hl _ (by simp)]
      simp only [hframed,true_and,if_true]
      refine forall₃_congr fun clientId _ _ => and_congr_right fun _ => imp_congr_right fun _ => ?_
      obtain ⟨hstatus,_,hrun,rfl⟩ := spec_readStatus (P := P) hframed client
      rw [safe_bind_of hrun,hstatus,safe_handlePacket6 hframed env _ hn]
    have hunsafe : ¬Safe (memory m) P (checkClientId n client) := by
      unfold checkClientId
      rw [safe_bind,(spec_dhcpv6GetOption (P := P)).1]
      exact fun h => hframed h.1
    rw [safe_bind]
    simp [hframed, hunsafe]
  · simp [hxid]

theorem listenerEvent6_in_datagram_iff (m : Nat → UInt8) (n : Nat) (env : Env) (client : Client) :
    Safe (memory m) (InDatagram n) (listenerEvent6 env n client) ↔ Dhcpv6Fits m n env client :=
  safe_listenerEvent6 env client

def solicitingClient : Client :=
  { selectingClient with type := .ipv6, state := .solicitation, listenMode := .l3 }

def truncatedHeader : Nat → UInt8
  | 0 => 2
  | 3 => 7
  | _ => 0

theorem truncatedHeader_read_outside :
    ¬Safe (memory truncatedHeader) (InDatagram 5) (listenerEvent6 idleEnv 5 solicitingClient) := by
  decide

end FuzzingTargets.Gdhcp
