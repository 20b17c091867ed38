import FuzzingTargets.Connman.Gdhcp.Client

namespace FuzzingTargets.Gdhcp
open Loads Loads.Prog Bytes

def Inside : Access → Prop
  | .byte _ => True
  | .value none _ => False
  | .value (some f) i => i < f.length
  | .inner _ suboption i => i < suboption.length
  | .name _ => True

instance : (a : Access) → Decidable (Inside a)
  | .byte _ => .isTrue trivial
  | .value none _ => .isFalse id
  | .value (some f) i => Nat.decLt i f.length
  | .inner _ suboption i => Nat.decLt i suboption.length
  | .name _ => .isTrue trivial

section

variable (m : Nat → UInt8) (laps : Nat)

def found (code : UInt8) : Except Stop (Option Found) := (dhcpGetOption laps code).run (memory m)

def Ends (code : UInt8) : Prop := ∃ option, found m laps code = .ok option

def Holds4 (code : UInt8) : Prop := ∀ f, found m laps code = .ok (some f) → 4 ≤ f.length

def Present4 (code : UInt8) : Prop :=
  ∀ option, found m laps code = .ok option → ∃ f, option = some f ∧ 4 ≤ f.length

end

structure Scope where
  bytes : Nat → Prop
  value : Found → Nat → Prop
  inner : Found → Found → Nat → Prop
  name : Nat → Prop
  null : Prop

def Scope.inside : Scope :=
  ⟨fun _ => True,fun f size => size ≤ f.length,fun _ suboption size => size ≤ suboption.length,
    fun _ => True,False⟩

class Bounded (S : outParam Scope) (P : Access → Prop) : Prop where
  byte (offset : Nat) : P (.byte offset) ↔ S.bytes (offset + 1)
  header : S.bytes 240
  mono {a b : Nat} : a ≤ b → S.bytes b → S.bytes a
  value (f : Found) (start : Nat) {size : Nat} : 0 < size →
    ((∀ i < size, P (.value (some f) (start + i))) ↔ S.value f (start + size))
  valueMono {f : Found} {a b : Nat} : a ≤ b → S.value f b → S.value f a
  null : P (.value none 0) ↔ S.null

instance : Bounded .inside Inside where
  byte _ := Iff.rfl
  header := trivial
  mono _ _ := trivial
  value f start size hsize := by
    change (∀ i < size, start + i < f.length) ↔ start + size ≤ f.length
    refine ⟨fun h => ?_,fun h i hi => by omega⟩
    have := h (size - 1) (by omega)
    omega
  valueMono hab hb := hab.trans hb
  null := Iff.rfl

section

variable (S : Scope) (m : Nat → UInt8) (laps : Nat)

def FieldFits (code : UInt8) : Nat → Nat → Nat → Prop
  | 0, _, _ => True
  | fuel + 1, rem, offset =>
    rem = 0 ∨ S.bytes (offset + 1) ∧
      (m offset = 0 → FieldFits code fuel (rem - 1) (offset + 1)) ∧
      (m offset ≠ 0 → m offset ≠ 255 → S.bytes (offset + 2) ∧
        (2 + (m (offset + 1)).toNat ≤ rem → m offset ≠ code →
          (m offset = 0x34 → S.bytes (offset + 3)) ∧
          FieldFits code fuel (rem - (2 + (m (offset + 1)).toNat))
            (offset + (2 + (m (offset + 1)).toNat))))

def SearchFits (code : UInt8) : Prop :=
  laps ≠ 0 → FieldFits S m code Field.options.size Field.options.size Field.options.start

def RenderFits (type : OptionType) (f : Found) : Prop :=
  match type with
  | .unknown | .u8 => True
  | .string => 0 < f.length → S.value f f.length
  | type => type.length ≤ f.length → S.value f (f.length / type.length * type.length)

def RequestReads : List Nat → Prop
  | [] => True
  | entry :: list => SearchFits S m laps (UInt8.ofNat entry) ∧
    (∀ f, found m laps (UInt8.ofNat entry) = .ok (some f) →
      RenderFits S (dhcpGetCodeType (UInt8.ofNat entry)).1 f) ∧
    (Ends m laps (UInt8.ofNat entry) → RequestReads list)

def LeaseRead : Prop :=
  SearchFits S m laps 0x33 ∧ ∀ f, found m laps 0x33 = .ok (some f) → S.value f 4

def ServerRead : Prop :=
  SearchFits S m laps 0x36 ∧
    ∀ option, found m laps 0x36 = .ok option → option.elim S.null (S.value · 4)

end

section

variable {S : Scope} {m : Nat → UInt8} {laps : Nat} {P : Access → Prop} {code : UInt8} {f : Found}
  {option : Option Found}

theorem safe_scanField (hP : ∀ offset, P (.byte offset) ↔ S.bytes (offset + 1)) {fuel : Nat} :
    ∀ {rem offset : Nat} {overload : UInt8},
    Safe (memory m) P (scanField code fuel rem offset overload) ↔
      FieldFits S m code fuel rem offset := by
  induction fuel with
  | zero => exact iff_of_true (safe_pure _) trivial
  | succ fuel ih =>
    intro rem offset overload
    unfold scanField FieldFits
    by_cases hrem : rem = 0
    · simp [hrem]
    rw [if_neg hrem,or_iff_right hrem,safe_fetch_bind (memory_byte _),hP]
    refine and_congr_right fun _ => ?_
    by_cases hpad : m offset = 0
    · simp [hpad,ih]
    rw [if_neg hpad]
    by_cases hend : m offset = 255
    · simp [hend]
    rw [if_neg hend,safe_fetch_bind (memory_byte _),hP]
    simp only [hpad,hend,false_imp_iff,ne_eq,not_false_eq_true,true_imp_iff,true_and]
    refine and_congr_right fun _ => ?_
    by_cases hlong : 2 + (m (offset + 1)).toNat ≤ rem
    · rw [if_neg (by omega)]
      by_cases hcode : m offset = code
      · simp [hcode]
      rw [if_neg hcode]
      simp only [hlong,hcode,not_false_eq_true,true_imp_iff]
      by_cases hover : m offset = 0x34
      · rw [if_pos hover,safe_fetch_bind (memory_byte _),hP,ih]
        simp only [hover,true_imp_iff]
      · rw [if_neg hover,ih]
        simp only [hover,false_imp_iff,true_and]
    · rw [if_pos (by omega)]
      simp [hlong]

theorem fieldFits_of_le {stop : Nat} (h : ∀ a ≤ stop, S.bytes a) {fuel : Nat} :
    ∀ {rem offset : Nat}, offset + rem + 2 ≤ stop → FieldFits S m code fuel rem offset := by
  induction fuel with
  | zero => exact fun _ => trivial
  | succ fuel ih =>
    intro rem offset hstop
    refine or_iff_not_imp_left.mpr fun hrem => ?_
    refine ⟨h _ (by omega),fun _ => ih (by omega),fun _ _ => ⟨h _ (by omega),fun hlen _ => ?_⟩⟩
    exact ⟨fun _ => h _ (by omega),ih (by omega)⟩

theorem searchFits_inside (m : Nat → UInt8) (laps : Nat) (code : UInt8) :
    SearchFits .inside m laps code := fun _ =>
  fieldFits_of_le (fun _ _ => trivial) (Nat.le_refl _)

theorem forall_found {Q : Found → Prop} :
    (∀ option, found m laps code = .ok option → ∀ f, option = some f → Q f) ↔
      ∀ f, found m laps code = .ok (some f) → Q f :=
  ⟨fun h f hf => h _ hf f rfl,fun h _ hoption f heq => h f (heq ▸ hoption)⟩

theorem nextField_overloaded {overload : UInt8} {next : Field × UInt8}
    (h : nextField overload = some next) : next.1 ≠ .options := by
  unfold nextField at h
  split_ifs at h <;> cases h <;> exact Field.noConfusion

theorem spec_header (hheader : ∀ offset < 240, P (.byte offset)) {offset size : Nat}
    (h : offset + size ≤ 240) :
    Spec (memory m) P (loadField offset size) True (· = fieldAt m offset size) := by
  refine ⟨iff_true_intro ((safe_loadBytes fun _ _ => rfl).mpr fun i hi => ?_),_,
    run_loadField offset size,rfl⟩
  exact hheader (offset + i) (by omega)

theorem run_getBe32 (f : Found) :
    (getBe32 (some f)).run (memory m) = .ok (bigEndian (fieldAt m f.offset 4)) := by
  rfl

theorem run_getLease : (∃ n, (getLease laps).run (memory m) = .ok n) ↔ Ends m laps 0x33 := by
  unfold getLease
  constructor
  · rintro ⟨n,hn⟩
    obtain ⟨option,hoption,-⟩ := run_bind_ok.mp hn
    exact ⟨option,hoption⟩
  rintro ⟨option,hoption⟩
  rw [run_bind_of hoption]
  cases option with
  | none => exact ⟨_,rfl⟩
  | some f =>
    rw [run_bind_of (run_getBe32 f)]
    exact ⟨_,rfl⟩

variable [hP : Bounded S P]
include hP

theorem header_byte (offset : Nat) (h : offset < 240) : P (.byte offset) :=
  (Bounded.byte offset).mpr (Bounded.mono P h (Bounded.header P))

theorem safe_overloaded (laps : Nat) {field : Field} (hfield : field ≠ .options) (overload : UInt8) :
    Safe (memory m) P (scanFields code laps field overload) := by
  induction laps generalizing field overload with
  | zero => exact safe_stop _
  | succ laps ih =>
    refine safe_bind.mpr ⟨(safe_scanField Bounded.byte).mpr (fieldFits_of_le
      (fun a ha => Bounded.mono P ha (Bounded.header P)) ?_),fun scan _ => ?_⟩
    · cases field with
      | options => exact absurd rfl hfield
      | sname | file => decide
    cases scan with
    | missing | found option => exact safe_pure _
    | ended overload =>
      dsimp only
      cases hnext : nextField overload with
      | none => exact safe_pure _
      | some next => exact ih (nextField_overloaded hnext) _

theorem safe_dhcpGetOption (code : UInt8) :
    Safe (memory m) P (dhcpGetOption laps code) ↔ SearchFits S m laps code := by
  unfold dhcpGetOption SearchFits
  cases laps with
  | zero => exact iff_of_true (safe_stop _) fun h => absurd rfl h
  | succ laps =>
    unfold scanFields
    rw [safe_bind,safe_scanField Bounded.byte]
    simp only [ne_eq,Nat.succ_ne_zero,not_false_eq_true,true_imp_iff]
    refine and_iff_left fun scan _ => ?_
    cases scan with
    | missing | found option => exact safe_pure _
    | ended overload =>
      dsimp only
      cases hnext : nextField overload with
      | none => exact safe_pure _
      | some next => exact safe_overloaded laps (nextField_overloaded hnext) _

theorem safe_search_bind {α : Type} {k : Option Found → Handler α} :
    Safe (memory m) P (dhcpGetOption laps code >>= k) ↔ SearchFits S m laps code ∧
      ∀ option, found m laps code = .ok option → Safe (memory m) P (k option) := by
  rw [safe_bind,safe_dhcpGetOption]
  rfl

theorem spec_value (f : Found) (start : Nat) {size : Nat} (hsize : 0 < size) :
    Spec (memory m) P (loadValue (some f) start size) (S.value f (start + size))
      (· = fieldAt m (f.offset + start) size) :=
  ⟨(safe_loadValue f start size).trans (Bounded.value f start hsize),_,
    run_loadValue f start size,rfl⟩

theorem safe_getBe32 (option : Option Found) :
    Safe (memory m) P (getBe32 option) ↔ option.elim S.null (S.value · 4) := by
  unfold getBe32
  rw [safe_bind]
  cases option with
  | none => simp [safe_loadNull,hP.null]
  | some f => simp [(spec_value (P := P) (m := m) f 0 (show 0 < 4 by decide)).1]

theorem safe_optionalBe32 {α : Type} (option : Option Found) (missing : α) (read : Nat → α) :
    Safe (memory m) P (match option with
      | none => pure missing
      | some f => do
        let n ← getBe32 (some f)
        pure (read n)) ↔ ∀ f, option = some f → S.value f 4 := by
  cases option with
  | none => simp
  | some f =>
    rw [safe_bind,safe_getBe32]
    simp

theorem spec_renderElements {type : OptionType} (htype : 0 < type.length) {fuel i len : Nat}
    (hfuel : len ≤ fuel) (text : Option (List UInt8)) :
    Spec (memory m) P (renderElements type f fuel i len text)
      (type ≠ .u8 → type.length ≤ len → S.value f (i + len / type.length * type.length))
      fun _ => True := by
  induction fuel generalizing i len text with
  | zero => exact (Spec.pure trivial).congr (by simp [show ¬type.length ≤ len by omega])
  | succ fuel ih =>
    unfold renderElements
    split
    · rename_i hshort
      exact (Spec.pure trivial).congr (by simp [show ¬type.length ≤ len by omega])
    rename_i hlen
    have helement : Spec (memory m) P (renderElement type f i text)
        (type ≠ .u8 → S.value f (i + type.length)) fun _ => True := by
      unfold renderElement
      split
      · rename_i hu8
        exact (Spec.pure trivial).congr (by simp [hu8])
      · rename_i hu8
        exact ((spec_value f i htype).bind fun _ _ _ => .pure trivial).congr (by simp [hu8])
    have hdiv : len / type.length = (len - type.length) / type.length + 1 := by
      rw [Nat.div_eq_sub_div htype (by omega)]
    refine (helement.bind (G := type ≠ .u8 → type.length ≤ len - type.length →
      S.value f (i + type.length + (len - type.length) / type.length * type.length))
      fun text' _ _ => ?_).congr ?_
    · split
      · rename_i heq
        exact (Spec.pure trivial).congr (by simp [heq,show ¬type.length ≤ 0 by omega])
      · exact ih (by omega) _
    rw [hdiv,Nat.succ_mul,Nat.add_comm ((len - type.length) / type.length * type.length),
      ← Nat.add_assoc]
    constructor
    · rintro ⟨hfirst,hrest⟩ hu8 _
      by_cases hmore : type.length ≤ len - type.length
      · exact hrest hu8 hmore
      · rw [Nat.div_eq_of_lt (by omega),Nat.zero_mul]
        exact hfirst hu8
    · intro h
      exact ⟨fun hu8 => Bounded.valueMono P (Nat.le_add_right _ _) (h hu8 (by omega)),
        fun hu8 _ => h hu8 (by omega)⟩

theorem spec_mallocOptionValueString (hsearch : SearchFits S m laps code)
    (hf : found m laps code = .ok (some f)) (garbage : List UInt8) (type : OptionType) :
    Spec (memory m) P (mallocOptionValueString garbage f type) (RenderFits S type f)
      fun _ => True := by
  obtain ⟨-,hlen,hbyte⟩ := scanFields_found ((safe_dhcpGetOption (P := P) code).mpr hsearch) hf
  have helements : ∀ type : OptionType, 0 < type.length → type ≠ .u8 → Spec (memory m) P (do
      let text ← renderElements type f f.length 0 f.length none
      pure (some (text.getD garbage)))
      (type.length ≤ f.length → S.value f (f.length / type.length * type.length))
      fun _ => True := fun type htype hu8 =>
    ((spec_renderElements htype le_rfl none).bind fun _ _ _ => Spec.pure trivial).congr
      (by simp [hu8])
  refine ((Spec.fetch (memory_byte _)).congr (iff_true_intro hbyte)).seq ?_
  rintro _ - rfl
  rw [hlen]
  cases type with
  | unknown => exact Spec.pure trivial
  | string =>
    unfold RenderFits
    dsimp only
    split
    · rename_i hzero
      have hnone : f.length = 0 := by rw [← hlen,hzero]; rfl
      exact (Spec.pure trivial).congr (by simp [hnone])
    rename_i hne
    have hpos : 0 < f.length := by
      rw [← hlen]
      exact Nat.pos_of_ne_zero fun h => hne (UInt8.toNat_inj.mp h)
    exact ((spec_value f 0 hpos).bind fun _ _ _ => Spec.pure trivial).congr (by simp [hpos])
  | u8 =>
    exact ((spec_renderElements (by decide) le_rfl none).bind fun _ _ _ =>
      Spec.pure trivial).congr (by simp [RenderFits])
  | ip => exact helements .ip (by decide) (by decide)
  | u16 => exact helements .u16 (by decide) (by decide)
  | u32 => exact helements .u32 (by decide) (by decide)

theorem safe_getRequest (env : Env) (list : List Nat) (hash : List (Nat × List Value)) :
    Safe (memory m) P (getRequest laps env list hash) ↔ RequestReads S m laps list := by
  induction list generalizing hash with
  | nil => exact iff_of_true (safe_pure _) trivial
  | cons entry list ih =>
    unfold getRequest RequestReads
    rw [safe_search_bind]
    refine and_congr_right fun hsearch => ?_
    cases hfound : found m laps (UInt8.ofNat entry) with
    | error e => simp [Ends,hfound]
    | ok option =>
      have hends : Ends m laps (UInt8.ofNat entry) := ⟨option,hfound⟩
      simp only [Except.ok.injEq,forall_eq',hends,true_imp_iff]
      cases option with
      | none => simp [ih]
      | some f =>
        obtain ⟨hsafe,value,hvalue,-⟩ := spec_mallocOptionValueString (P := P) hsearch hfound
          (env.garbage (UInt8.ofNat entry)) (dhcpGetCodeType (UInt8.ofNat entry)).1
        rw [safe_bind_of hvalue,hsafe,ih]
        simp

omit hP in
theorem run_getRequest (env : Env) (list : List Nat) (hash : List (Nat × List Value)) :
    (∃ hash', (getRequest laps env list hash).run (memory m) = .ok hash') ↔
      ∀ entry ∈ list, Ends m laps (UInt8.ofNat entry) := by
  induction list generalizing hash with
  | nil => simp [getRequest]
  | cons entry list ih =>
    unfold getRequest
    rw [List.forall_mem_cons]
    constructor
    · rintro ⟨hash',h⟩
      obtain ⟨option,hoption,h⟩ := run_bind_ok.mp h
      refine ⟨⟨option,hoption⟩,?_⟩
      cases option with
      | none => exact (ih _).mp ⟨hash',h⟩
      | some f =>
        obtain ⟨value,-,h⟩ := run_bind_ok.mp h
        exact (ih _).mp ⟨hash',h⟩
    rintro ⟨⟨option,hoption⟩,hlist⟩
    rw [run_bind_of hoption]
    cases option with
    | none => exact (ih _).mpr hlist
    | some f =>
      obtain ⟨-,value,hvalue,-⟩ := spec_mallocOptionValueString (P := Inside)
        (searchFits_inside m laps _) hoption (env.garbage (UInt8.ofNat entry))
        (dhcpGetCodeType (UInt8.ofNat entry)).1
      rw [run_bind_of hvalue]
      exact (ih _).mpr hlist

end

section

variable (S : Scope) (m : Nat → UInt8) (laps : Nat) (client : Client)

def Owned : Prop :=
  bigEndian (fieldAt m 4 4) = client.xid ∧ m 2 = 6 ∧ fieldAt m 28 6 = client.macAddress

instance : Decidable (Owned m client) := by
  unfold Owned
  infer_instance

def AckReads : Prop :=
  LeaseRead S m laps ∧ (Ends m laps 0x33 → RequestReads S m laps client.requestList ∧
    ((∀ entry ∈ client.requestList, Ends m laps (UInt8.ofNat entry)) →
      client.state = .rebooting → ServerRead S m laps))

def ClientReads : Prop :=
  Owned m client → SearchFits S m laps 0x35 ∧ ∀ f, found m laps 0x35 = .ok (some f) →
    match client.state with
    | .initSelecting => S.value f 1 ∧ (m f.offset = 2 → ServerRead S m laps)
    | .rebooting | .requesting | .renewing | .rebinding =>
      S.value f 1 ∧ (m f.offset = 5 → AckReads S m laps client)
    | _ => True

def AckFits : Prop :=
  Holds4 m laps 0x33 ∧ (client.state = .rebooting → Ends m laps 0x33 →
    (∀ entry ∈ client.requestList, Ends m laps (UInt8.ofNat entry)) → Present4 m laps 0x36)

def ClientFits : Prop :=
  Owned m client → ∀ f, found m laps 0x35 = .ok (some f) →
    match client.state with
    | .initSelecting => 0 < f.length ∧ (m f.offset = 2 → Present4 m laps 0x36)
    | .rebooting | .requesting | .renewing | .rebinding =>
      0 < f.length ∧ (m f.offset = 5 → AckFits m laps client)
    | _ => True

end

section

variable {m : Nat → UInt8} {laps : Nat} {client : Client}

theorem requestReads_inside (list : List Nat) : RequestReads .inside m laps list := by
  induction list with
  | nil => trivial
  | cons entry list ih =>
    refine ⟨searchFits_inside _ _ _,fun f _ => ?_,fun _ => ih⟩
    unfold RenderFits
    split
    · trivial
    · trivial
    · exact fun _ => le_rfl
    · exact fun _ => Nat.div_mul_le_self _ _

theorem serverRead_inside : ServerRead .inside m laps ↔ Present4 m laps 0x36 := by
  refine (and_iff_right (searchFits_inside _ _ _)).trans (forall₂_congr fun option _ => ?_)
  cases option with
  | none => simp [Scope.inside]
  | some f => simp [Scope.inside]

theorem ackReads_inside : AckReads .inside m laps client ↔ AckFits m laps client := by
  refine and_congr (and_iff_right (searchFits_inside _ _ _)) ?_
  rw [serverRead_inside]
  simp only [requestReads_inside,true_and]
  tauto

theorem clientReads_inside : ClientReads .inside m laps client ↔ ClientFits m laps client := by
  unfold ClientReads ClientFits
  simp only [searchFits_inside,true_and,serverRead_inside,ackReads_inside]
  rfl

end

section

variable {S : Scope} {m : Nat → UInt8} {laps : Nat} {client : Client} {broadcast : Bool}
  {P : Access → Prop}

theorem spec_checkPackageOwner (hheader : ∀ offset < 240, P (.byte offset)) :
    Spec (memory m) P (checkPackageOwner client) True (· = decide (Owned m client)) := by
  refine (spec_header hheader (by decide)).seq ?_
  rintro _ - rfl
  by_cases hxid : bigEndian (fieldAt m 4 4) = client.xid
  · rw [if_neg (not_not.mpr hxid)]
    refine ((Spec.fetch (memory_byte _)).congr (iff_true_intro (hheader 2 (by decide)))).seq ?_
    rintro _ - rfl
    by_cases hhlen : m 2 = 6
    · rw [if_neg (not_not.mpr hhlen)]
      refine (spec_header hheader (by decide)).seq ?_
      rintro _ - rfl
      exact Spec.pure (decide_eq_decide.mpr ⟨fun h => ⟨hxid,hhlen,h⟩,fun h => h.2.2⟩)
    · rw [if_pos hhlen]
      exact Spec.pure (decide_eq_false fun h => hhlen h.2.1).symm
  · rw [if_pos hxid]
    exact Spec.pure (decide_eq_false fun h => hxid h.1).symm

section

variable [hP : Bounded S P] {f : Found}

include hP

theorem safe_getServerIp : Safe (memory m) P (getServerIp laps) ↔ ServerRead S m laps :=
  safe_search_bind.trans
    (and_congr_right fun _ => forall₂_congr fun option _ => safe_getBe32 option)

theorem safe_messageType {k : UInt8 → Handler (Client × List Effect)} :
    Safe (memory m) P (fetch (.value (some f) 0) >>= k) ↔
      S.value f 1 ∧ Safe (memory m) P (k (m f.offset)) := by
  rw [safe_fetch_bind (memory_value f 0),Nat.add_zero]
  refine and_congr_left' ?_
  simpa using hP.value f 0 (show 0 < 1 by decide)

theorem safe_handleOffer : Safe (memory m) P (handleOffer laps broadcast f client) ↔
      S.value f 1 ∧ (m f.offset = 2 → ServerRead S m laps) := by
  unfold handleOffer
  rw [safe_messageType]
  refine and_congr_right fun _ => ?_
  by_cases htype : m f.offset = 2
  · rw [if_neg (not_not.mpr htype),safe_bind,safe_getServerIp]
    simp only [htype,true_imp_iff]
    refine and_iff_left fun serverIp _ => ?_
    rw [safe_bind,(spec_header header_byte (by decide)).1]
    exact ⟨trivial,fun _ _ => safe_pure _⟩
  · rw [if_pos htype]
    simp [htype]

theorem safe_ackServerIp : Safe (memory m) P (ackServerIp laps client) ↔
    (client.state = .rebooting → ServerRead S m laps) := by
  unfold ackServerIp
  split
  · rename_i hstate
    simp [safe_getServerIp,hstate]
  · rename_i hstate
    simp [hstate]

theorem safe_getLease : Safe (memory m) P (getLease laps) ↔ LeaseRead S m laps := by
  unfold getLease
  rw [safe_search_bind]
  exact and_congr_right fun _ =>
    (forall₂_congr fun option _ => safe_optionalBe32 option _ _).trans forall_found

theorem safe_handleAck (env : Env) :
    Safe (memory m) P (handleAck laps env client) ↔ AckReads S m laps client := by
  unfold handleAck AckReads
  rw [safe_bind,safe_getLease]
  refine and_congr_right fun _ => ?_
  have hafter : ∀ leaseSeconds, Safe (memory m) P (do
      let hash ← getRequest laps env client.requestList client.codeValueHash
      let yiaddr ← loadField 16 4
      let serverIp ← ackServerIp laps client
      pure ({ client with
        retryTimes := 0
        leaseSeconds := leaseSeconds
        codeValueHash := hash
        listenMode := .none
        assignedIp := some (dotted yiaddr)
        serverIp := serverIp },
        [Effect.removeTimeouts,.switchListeningMode .none] ++ client.notify .leaseAvailable ++
          [.startBound])) ↔ RequestReads S m laps client.requestList ∧
      ((∀ entry ∈ client.requestList, Ends m laps (UInt8.ofNat entry)) →
        client.state = .rebooting → ServerRead S m laps) := by
    intro leaseSeconds
    rw [safe_bind,safe_getRequest,← run_getRequest env _ client.codeValueHash]
    refine and_congr_right fun _ => ⟨fun h ⟨hash,hhash⟩ => ?_,fun h hash hhash => ?_⟩
    · have := h hash hhash
      rw [safe_bind_of (run_loadField 16 4),safe_bind,safe_ackServerIp] at this
      exact this.2.1
    · rw [safe_bind_of (run_loadField 16 4),(spec_header header_byte (by decide)).1,safe_bind,
        safe_ackServerIp]
      exact ⟨trivial,h ⟨hash,hhash⟩,fun _ _ => safe_pure _⟩
  rw [← run_getLease]
  exact ⟨fun h ⟨n,hn⟩ => (hafter n).mp (h n hn),fun h n hn => (hafter n).mpr (h ⟨n,hn⟩)⟩

theorem safe_handleReply (env : Env) :
    Safe (memory m) P (handleReply laps env broadcast f client) ↔
      S.value f 1 ∧ (m f.offset = 5 → AckReads S m laps client) := by
  have hack : ∀ c : Client, c.state = client.state → c.requestList = client.requestList →
      (AckReads S m laps c ↔ AckReads S m laps client) := by
    intro c hstate hlist
    unfold AckReads
    rw [hstate,hlist]
  unfold handleReply
  rw [safe_messageType]
  refine and_congr_right fun hpos => ?_
  by_cases htype : m f.offset = 5
  · rw [if_pos htype,safe_handleAck]
    simp only [htype,true_imp_iff]
    split <;> exact hack _ rfl rfl
  rw [if_neg htype,safe_messageType]
  simp only [htype,false_imp_iff,iff_true]
  refine ⟨hpos,?_⟩
  split <;> exact safe_pure _

theorem safe_listenerEvent4 (env : Env) :
    Safe (memory m) P (listenerEvent4 laps env broadcast client) ↔ ClientReads S m laps client := by
  unfold listenerEvent4 ClientReads
  obtain ⟨howner,_,hrun,rfl⟩ := @spec_checkPackageOwner m client P header_byte
  rw [safe_bind_of hrun,howner,and_iff_right trivial]
  by_cases howned : Owned m client
  · simp only [howned,decide_true,if_true,true_imp_iff]
    unfold handlePacket
    rw [safe_search_bind]
    refine and_congr_right fun _ => ⟨fun h f hf => ?_,fun h option hoption => ?_⟩
    · have hstate := h (some f) hf
      cases hs : client.state <;> simp only [hs] at hstate ⊢
      · exact safe_handleOffer.mp hstate
      all_goals exact (safe_handleReply env).mp hstate
    cases option with
    | none => exact safe_pure _
    | some f =>
      have hstate := h f hoption
      cases hs : client.state <;> simp only [hs] at hstate ⊢
      · exact safe_handleOffer.mpr hstate
      all_goals first
        | exact (safe_handleReply env).mpr hstate
        | exact safe_pure _
  · simp [howned]

end

end

section

variable (m : Nat → UInt8) (laps serverNip : Nat)

def Ours : Prop :=
  ∀ f, found m laps 0x36 = .ok (some f) → bigEndian (fieldAt m f.offset 4) = serverNip

def ServerFits : Prop :=
  m 2 = 6 → m 0 = 1 → ∀ f, found m laps 0x35 = .ok (some f) →
    0 < f.length ∧ (1 ≤ m f.offset → m f.offset ≤ 8 →
      Holds4 m laps 0x36 ∧ (Ends m laps 0x36 → Ours m laps serverNip → Holds4 m laps 0x32))

end

section

variable {m : Nat → UInt8} {laps serverNip : Nat}

theorem safe_search_inside {α : Type} {code : UInt8} {k : Option Found → Handler α} :
    Safe (memory m) Inside (dhcpGetOption laps code >>= k) ↔
      ∀ option, found m laps code = .ok option → Safe (memory m) Inside (k option) :=
  safe_search_bind.trans (and_iff_right (searchFits_inside _ _ _))

theorem run_checkServerId (option : Option Found) :
    (checkServerId serverNip option).run (memory m) =
      .ok (option.all fun f => bigEndian (fieldAt m f.offset 4) = serverNip) := by
  unfold checkServerId
  cases option with
  | none => rfl
  | some f =>
    rw [run_bind_of (run_getBe32 f)]
    rfl

theorem safe_copyRequest (type : UInt8) (serverId : Bool) (requestedIp : Option Nat) :
    Safe (memory m) Inside (copyRequest type serverId requestedIp) := by
  unfold copyRequest
  simp only [safe_bind,safe_loadField (P := Inside) fun _ => trivial,safe_pure,implies_true,
    and_self]

theorem spec_checkPacketType (hhlen : m 2 = 6) (hop : m 0 = 1) {f : Found}
    (hf : found m laps 0x35 = .ok (some f)) :
    Spec (memory m) Inside (checkPacketType laps) (0 < f.length)
      (· = if 1 ≤ m f.offset ∧ m f.offset ≤ 8 then m f.offset else 0) := by
  have hfetch : Spec (memory m) Inside (fetch (.value (some f) 0)) (0 < f.length)
      (· = m f.offset) := .fetch (memory_value f 0)
  have hsearch : Spec (memory m) Inside (dhcpGetOption laps 0x35) True (· = some f) :=
    ⟨iff_true_intro ((safe_dhcpGetOption _).mpr (searchFits_inside _ _ _)),some f,hf,rfl⟩
  refine Spec.seq (.fetch (memory_byte 2)) ?_
  rintro _ - rfl
  rw [if_neg (not_not.mpr hhlen)]
  refine Spec.seq (.fetch (memory_byte 0)) ?_
  rintro _ - rfl
  rw [if_neg (not_not.mpr hop)]
  refine hsearch.seq ?_
  rintro _ - rfl
  refine hfetch.absorb ?_
  rintro _ - rfl
  split
  · rename_i hlow
    exact ⟨True,fun _ => trivial,.pure (if_neg fun h => UInt8.not_le.mpr hlow h.1).symm⟩
  rename_i hlow
  refine ⟨_,id,hfetch.absorb ?_⟩
  rintro _ - rfl
  split
  · rename_i hhigh
    exact ⟨True,fun _ => trivial,.pure (if_neg fun h => UInt8.not_le.mpr hhigh h.2).symm⟩
  · rename_i hhigh
    rw [if_pos ⟨UInt8.not_lt.mp hlow,UInt8.not_lt.mp hhigh⟩]
    exact ⟨_,id,hfetch⟩

theorem checkPacketType_other (h : m 2 = 6 → m 0 = 1 → ∀ f, found m laps 0x35 ≠ .ok (some f)) :
    Safe (memory m) Inside (checkPacketType laps) ∧
      ∀ type, (checkPacketType laps).run (memory m) = .ok type → type = 0 := by
  unfold checkPacketType
  rw [safe_fetch_bind (memory_byte _),run_fetch_bind (memory_byte _)]
  by_cases hhlen : m 2 = 6
  · rw [if_neg (not_not.mpr hhlen),safe_fetch_bind (memory_byte _),run_fetch_bind (memory_byte _)]
    by_cases hop : m 0 = 1
    · rw [if_neg (not_not.mpr hop),safe_search_inside]
      refine ⟨⟨trivial,trivial,fun option hoption => ?_⟩,fun type htype => ?_⟩
      · cases option with
        | none => exact safe_pure _
        | some f => exact absurd hoption (h hhlen hop f)
      · obtain ⟨option,hoption,htype⟩ := run_bind_ok.mp htype
        cases option with
        | none => exact (Except.ok.inj htype).symm
        | some f => exact absurd hoption (h hhlen hop f)
    · rw [if_pos hop]
      exact ⟨⟨trivial,trivial,safe_pure _⟩,fun type htype => (Except.ok.inj htype).symm⟩
  · rw [if_pos hhlen]
    exact ⟨⟨trivial,safe_pure _⟩,fun type htype => (Except.ok.inj htype).symm⟩

theorem safe_readOptions {type : UInt8} : Safe (memory m) Inside (readOptions laps serverNip type) ↔
    Holds4 m laps 0x36 ∧ (Ends m laps 0x36 → Ours m laps serverNip → Holds4 m laps 0x32) := by
  unfold readOptions
  rw [safe_search_inside]
  cases hserver : found m laps 0x36 with
  | error e => simp [Holds4,Ends,hserver]
  | ok option =>
    have hends : Ends m laps 0x36 := ⟨option,hserver⟩
    have hholds : Holds4 m laps 0x36 ↔ ∀ f, option = some f → 4 ≤ f.length := by
      simp [Holds4,hserver]
    have hours : Ours m laps serverNip ↔
        (option.all fun f => bigEndian (fieldAt m f.offset 4) = serverNip) = true := by
      simp [Ours,hserver,Option.all_eq_true]
    have hcheck : Safe (memory m) Inside (checkServerId serverNip option) ↔ _ :=
      safe_optionalBe32 option true _
    simp only [Except.ok.injEq,forall_eq',hends,true_imp_iff]
    rw [safe_bind_of (run_checkServerId option),hcheck,hholds,hours]
    refine and_congr_right fun _ => ?_
    split
    · rename_i hall
      simp only [hall,true_imp_iff]
      refine safe_search_inside.trans ((forall₂_congr fun requested _ => ?_).trans forall_found)
      have haddress : Safe (memory m) Inside (requestedAddress requested) ↔ _ :=
        safe_optionalBe32 requested none _
      rw [safe_bind,haddress]
      refine and_iff_left fun _ _ => ?_
      rw [safe_bind]
      exact ⟨safe_copyRequest _ _ _,fun _ _ => safe_pure _⟩
    · rename_i hall
      simp [hall]

theorem safe_receiveRequest :
    Safe (memory m) Inside (receiveRequest laps serverNip) ↔ ServerFits m laps serverNip := by
  unfold receiveRequest ServerFits
  by_cases h : m 2 = 6 → m 0 = 1 → ∀ f, found m laps 0x35 ≠ .ok (some f)
  · obtain ⟨hsafe,hzero⟩ := checkPacketType_other h
    rw [safe_bind]
    refine iff_of_true ⟨hsafe,fun type htype => ?_⟩ fun hhlen hop f hf => absurd hf (h hhlen hop f)
    rw [hzero type htype,if_pos rfl]
    exact safe_pure _
  push Not at h
  obtain ⟨hhlen,hop,f,hf⟩ := h
  obtain ⟨hsafe,_,hrun,rfl⟩ := spec_checkPacketType hhlen hop hf
  rw [safe_bind_of hrun,hsafe]
  simp only [hhlen,hop,hf,true_imp_iff,Except.ok.injEq,Option.some.injEq,forall_eq']
  refine and_congr_right fun _ => ?_
  by_cases hvalid : 1 ≤ m f.offset ∧ m f.offset ≤ 8
  · have hne : m f.offset ≠ 0 := fun hzero => absurd (hzero ▸ hvalid.1) (by decide)
    rw [if_pos hvalid,if_neg hne,safe_readOptions]
    simp [hvalid]
  · rw [if_neg hvalid,if_pos rfl,← and_imp]
    simp [hvalid]

end

theorem option_values_used_inside_iff (m : Nat → UInt8) (laps : Nat) (env : Env) (broadcast : Bool)
    (client : Client) (serverNip : Nat) :
    (Safe (memory m) Inside (listenerEvent4 laps env broadcast client) ↔
      ClientFits m laps client) ∧
    (Safe (memory m) Inside (receiveRequest laps serverNip) ↔ ServerFits m laps serverNip) :=
  ⟨(safe_listenerEvent4 env).trans clientReads_inside,safe_receiveRequest⟩

def idleEnv : Env := ⟨0,fun _ => [],fun _ => [],[]⟩

def selectingClient : Client :=
  { type := .ipv4
    state := .initSelecting
    listenMode := .l2
    macAddress := [2,0,0,0,0,1]
    xid := 7
    serverIp := 0
    requestedIp := 0
    assignedIp := none
    leaseSeconds := 0
    retryTimes := 0
    requestBcast := false
    requestList := []
    codeValueHash := []
    callbacks := []
    duid := []
    serverDuid := none
    statusCode := 0
    iaid := 0
    t1 := 0
    t2 := 0
    iaNa := []
    iaTa := []
    expire := 0 }

def anonymousOffer : Nat → UInt8
  | 2 => 6
  | 7 => 7
  | 28 => 2
  | 33 => 1
  | 240 => 53
  | 241 => 1
  | 242 => 2
  | 243 => 255
  | _ => 0

theorem anonymousOffer_dereferences_null :
    ¬Safe (memory anonymousOffer) Inside (listenerEvent4 1 idleEnv false selectingClient) := by
  decide

end FuzzingTargets.Gdhcp
