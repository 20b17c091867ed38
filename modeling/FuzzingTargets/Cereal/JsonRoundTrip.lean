import FuzzingTargets.Cereal.JsonArchive
import FuzzingTargets.Foundation.Checked
import Mathlib.Data.Nat.Digits.Lemmas

namespace FuzzingTargets.Cereal.JsonArchive
open Bytes Checked List

section

variable {signed : Bool} {n : Int} {width : Width}

theorem digitsText_digits (n : Nat) : ∀ b ∈ digitsText n, isDigit b = true := by
  intro b hb
  unfold digitsText at hb
  split at hb
  · obtain rfl := mem_singleton.mp hb
    decide
  · obtain ⟨d,hd,rfl⟩ := mem_map.mp hb
    have hlt : d < 10 := Nat.digits_lt_base (by decide) (mem_reverse.mp hd)
    interval_cases d <;> decide

theorem digitsText_ne_nil (n : Nat) : digitsText n ≠ [] := by
  unfold digitsText
  split
  · simp
  · rename_i hn
    simpa [Nat.digits_eq_nil_iff_eq_zero] using hn

theorem fold_digits (ds : List Nat) (h : ∀ d ∈ ds, d < 10) :
    (ds.reverse.map fun d => UInt8.ofNat (48 + d)).foldl (fun n d => n * 10 + (d.toNat - 48)) 0 =
      Nat.ofDigits 10 ds := by
  induction ds with
  | nil => rfl
  | cons d ds ih =>
    have hd : d < 10 := h d mem_cons_self
    have hbyte : (UInt8.ofNat (48 + d)).toNat - 48 = d := by
      rw [UInt8.toNat_ofNat']
      omega
    rw [reverse_cons,map_append,foldl_append,
      ih fun x hx => h x (.tail _ hx),Nat.ofDigits_cons]
    simp only [map_cons,map_nil,foldl_cons,foldl_nil,hbyte]
    ring

theorem readDigits_digitsText (n : Nat) : readDigits (digitsText n) = .ok n := by
  have hall : (digitsText n).takeWhile isDigit = digitsText n :=
    takeWhile_eq_self_iff.mpr (digitsText_digits n)
  have hfold : (digitsText n).foldl (fun n d => n * 10 + (d.toNat - 48)) 0 = n := by
    unfold digitsText
    split
    · rename_i hn
      simp [hn]
    · rw [fold_digits _ fun d hd => Nat.digits_lt_base (by decide) hd,Nat.ofDigits_digits]
  unfold readDigits
  rw [hall]
  cases hd : digitsText n with
  | nil => exact absurd hd (digitsText_ne_nil n)
  | cons d ds =>
    rw [hd] at hfold
    simp only [hfold]

theorem isDigit_bounds {b : UInt8} (h : isDigit b = true) :
    b ≠ 0 ∧ b ≠ 43 ∧ b ≠ 45 ∧ isSpace b = false := by
  simp only [isDigit,Bool.and_eq_true,decide_eq_true_eq,UInt8.le_iff_toNat_le,
    UInt8.reduceToNat] at h
  have hother : ∀ c : UInt8, c.toNat < 48 → b ≠ c := by
    rintro c hc rfl
    omega
  refine ⟨hother 0 (by decide),hother 43 (by decide),hother 45 (by decide),?_⟩
  have h32 : b ≠ 32 := hother 32 (by decide)
  have h13 : ¬ b.toNat ≤ 13 := by omega
  simp [isSpace,h32,UInt8.le_iff_toNat_le,h13]

theorem readSigned_digitsText (n : Nat) : readSigned (digitsText n) = .ok (n : Int) := by
  have hread := readDigits_digitsText n
  cases hd : digitsText n with
  | nil => exact absurd hd (digitsText_ne_nil _)
  | cons d ds =>
    obtain ⟨-,hplus,hminus,hspace⟩ := isDigit_bounds
      (digitsText_digits n d (by rw [hd]; exact mem_cons_self))
    rw [hd] at hread
    unfold readSigned
    rw [dropWhile_cons_of_neg (by simp [hspace])]
    split
    · rename_i heq
      exact absurd (cons.inj heq).1 hminus
    · rename_i heq
      exact absurd (cons.inj heq).1 hplus
    · rw [hread]
      rfl

theorem readSigned_numberText (n : Int) : readSigned (numberText n) = .ok n := by
  unfold numberText
  by_cases hneg : n < 0
  · rw [if_pos hneg]
    change (readDigits (digitsText n.natAbs)).map (fun n : Nat => -(n : Int)) = _
    rw [readDigits_digitsText]
    simp only [Except.map]
    congr 1
    omega
  · rw [if_neg hneg,readSigned_digitsText]
    congr 1
    omega

theorem numberText_nulFree (n : Int) : cstring (numberText n) = numberText n := by
  apply takeWhile_eq_self_iff.mpr
  intro b hb
  unfold numberText at hb
  have hdigit : ∀ b ∈ digitsText n.natAbs, (b != 0) = true := fun b hb => by
    simpa using (isDigit_bounds (digitsText_digits _ b hb)).1
  split at hb
  · rcases mem_cons.mp hb with rfl | hb
    · decide
    · exact hdigit b hb
  · exact hdigit b hb

theorem castSize_self {s : Text} (h : s.length < 2 ^ 32) : castSize s = s := by
  rw [castSize,Nat.mod_eq_of_lt h,take_length]

theorem numberText_short (h : InRange signed 64 n) : (numberText n).length < 2 ^ 32 := by
  have hlt : n.natAbs < 10 ^ 20 := by
    cases signed <;> simp [InRange] at h <;> omega
  have hdigits := (Nat.digits_length_le_iff (by decide) n.natAbs).mpr hlt
  unfold numberText digitsText
  split <;> split <;> simp only [length_cons,length_map,length_reverse,length_nil] <;> omega

theorem stringToNumber_numberText (h : InRange signed 64 n) :
    stringToNumber signed (numberText n) = .ok n := by
  unfold stringToNumber
  rw [readSigned_numberText]
  cases signed with
  | true => simp [bind,Except.bind,h]
  | false =>
    simp only [InRange,Bool.false_eq_true,if_false] at h
    simp only [bind,Except.bind,Bool.false_eq_true,if_false]
    rw [if_pos (by omega),Int.emod_eq_of_lt h.1 h.2]

section

variable (h : InRange signed width.bits n)
include h

theorem castInt_self : castInt signed width.bits n = n := by
  cases signed with
  | true =>
    simp only [InRange,if_true] at h
    apply Int.bmod_eq_of_le <;> cases width <;> simp only [Width.bits] at h ⊢ <;> omega
  | false =>
    exact Int.emod_eq_of_lt h.1 h.2

theorem inRange_small (hw : width ≠ .w64) : InRange signed 32 n := by
  cases signed <;> cases width <;> simp_all [InRange,Width.bits] <;> omega

theorem getInt_number : getInt signed width (.number n) = .ok n := by
  by_cases hw : width = .w64
  · subst hw
    exact if_pos h
  have hsmall : getInt signed width (.number n) =
      (getNumber signed 32 (.number n)).map (castInt signed width.bits) := by
    cases width <;> first | rfl | exact absurd rfl hw
  rw [hsmall,getNumber,if_pos (inRange_small h hw)]
  simp only [Except.map,castInt_self h]

end

theorem cstring_self {s : Text} (h : 0 ∉ s) : cstring s = s := by
  apply takeWhile_eq_self_iff.mpr
  intro b hb
  rw [bne_iff_ne]
  rintro rfl
  exact h hb

end

section

variable {K V : Type} {less : K → K → Bool}

theorem emplace_last (hless : ∀ a b, less a b = true → less b a = false) {xs : List (K × V)}
    {item : K × V} (h : ∀ x ∈ xs, less x.1 item.1 = true) : emplace less item xs = xs ++ [item] := by
  induction xs with
  | nil => rfl
  | cons x xs ih =>
    have hx := h x mem_cons_self
    rw [emplace,if_neg (by simp [hless _ _ hx]),if_pos hx,
      ih fun y hy => h y (.tail _ hy)]
    rfl

theorem emplace_all (hless : ∀ a b, less a b = true → less b a = false) {xs items : List (K × V)}
    (h : (xs ++ items).Pairwise fun a b => less a.1 b.1 = true) :
    items.foldl (fun xs item => emplace less item xs) xs = xs ++ items := by
  induction items generalizing xs with
  | nil => simp
  | cons item items ih =>
    have hlast : ∀ x ∈ xs, less x.1 item.1 = true := fun x hx =>
      (pairwise_append.mp h).2.2 x hx item mem_cons_self
    rw [foldl_cons,emplace_last hless hlast,ih (by simpa using h)]
    simp

end

def NulFree (s : Text) : Prop := 0 ∉ s

def AllOf {α : Type} (P : α → Prop) (vs : List α) : Prop := ∀ v ∈ vs, P v

def Ascending {K V : Type} (less : K → K → Bool) (items : List (K × V)) : Prop :=
  items.Pairwise fun a b => less a.1 b.1 = true

mutual

def Ty.WellFormed (less : (t : Ty) → t.Val → t.Val → Bool) : (t : Ty) → t.Val → Prop
  | .bool, _ => True
  | .int signed width, n => InRange signed width.bits n
  | .longLong signed, n => InRange signed 64 n
  | .string, s => NulFree s ∧ s.length < 2 ^ 32
  | .vector element, vs => AllOf (fun v => element.WellFormed less v) vs
  | .map key value, items => Ascending (less key) items ∧
      AllOf (fun item => key.WellFormed less item.1 ∧ value.WellFormed less item.2) items
  | .struct members, vs => members.WellFormed less vs

def Members.WellFormed (less : (t : Ty) → t.Val → t.Val → Bool) : (ms : Members) → ms.Val → Prop
  | .nil, _ => True
  | .cons name type rest, (v,vs) =>
    (∀ n ∈ name, n.length < 2 ^ 32) ∧ type.WellFormed less v ∧ rest.WellFormed less vs

end

def Expects (name : Option Text) (it : Iterator) : Prop :=
  ∀ n ∈ name, it.name = some (cstring n)

variable (less : (t : Ty) → t.Val → t.Val → Bool)

def LoadsTo (t : Ty) (v w : t.Val) : Prop :=
  ∀ it rest name document, Expects name it → it.value = .ok (toJson t v) →
    load less t ⟨it :: rest,name,document⟩ = .ok (w,⟨it.next :: rest,none,document⟩)

def LoadsAs (t : Ty) (v : t.Val) : Prop :=
  LoadsTo less t v v

def MembersLoadTo (ms : Members) (vs ws : ms.Val) : Prop :=
  ∀ members index counter rest document, members.drop index = toMembers ms vs counter →
    ∃ index', loadMembers less ms ⟨⟨.members members,index⟩ :: rest,none,document⟩ =
      .ok (ws,⟨⟨.members members,index'⟩ :: rest,none,document⟩)

def MembersLoad (ms : Members) (vs : ms.Val) : Prop :=
  MembersLoadTo less ms vs vs

def loadItem (key value : Ty) (i : Input) : Except Failure ((key.Val × value.Val) × Input) := do
  let i ← i.startNode
  let (k,i) ← load less key (i.setNextName (some keyName))
  let (v,i) ← load less value (i.setNextName (some mappedName))
  let i ← i.finishNode
  .ok ((k,v),i)

section

variable {it : Iterator} {rest : List Iterator} {name : Option Text} {document : Json}
  {less : (t : Ty) → t.Val → t.Val → Bool} {ms : Members} {value : Ty} {elements : List Json}

theorem expects_none (it : Iterator) : Expects none it := nofun

theorem search_expected (h : Expects name it) :
    Input.search ⟨it :: rest,name,document⟩ = .ok (it,rest) := by
  cases name with
  | none => rfl
  | some n => exact if_pos (h n rfl)

theorem loadValue_ok {α : Type} {get : Json → Except Failure α} {j : Json} {v : α}
    (h : Expects name it) (hvalue : it.value = .ok j) (hget : get j = .ok v) :
    Input.loadValue get ⟨it :: rest,name,document⟩ =
      .ok (v,⟨it.next :: rest,none,document⟩) := by
  simp [Input.loadValue,search_expected h,hvalue,hget,bind,Except.bind]

theorem startNode_ok {j : Json} {child : Iterator} (h : Expects name it)
    (hvalue : it.value = .ok j) (hopen : openNode j = .ok child) :
    Input.startNode ⟨it :: rest,name,document⟩ = .ok ⟨child :: it :: rest,none,document⟩ := by
  simp [Input.startNode,search_expected h,hvalue,hopen,bind,Except.bind]

theorem loadSize_ok {child : Iterator} (hvalue : it.value = .ok (.array elements)) :
    Input.loadSize ⟨child :: it :: rest,none,document⟩ = .ok elements.length := by
  simp [Input.loadSize,hvalue,Json.size,bind,Except.bind]

section

variable {α : Type} {f : Input → Except Failure (α × Input)} {j : α → Json} {vs : List α}
  (hf : ∀ v ∈ vs, ∀ it, it.value = .ok (j v) → f ⟨it :: rest,none,document⟩ = .ok (v,⟨it.next :: rest,none,document⟩))
include hf

theorem times_values {index : Nat} (h : elements.drop index = vs.map j) :
    times f vs.length ⟨⟨.values elements,index⟩ :: rest,none,document⟩ =
      .ok (vs,⟨⟨.values elements,index + vs.length⟩ :: rest,none,document⟩) := by
  induction vs generalizing index with
  | nil => rfl
  | cons v vs ih =>
    have hat : elements[index]? = some (j v) := by
      rw [← head?_drop,h]
      rfl
    have hlater : elements.drop (index + 1) = vs.map j := by
      rw [← tail_drop,h]
      rfl
    have hstep := hf v mem_cons_self ⟨.values elements,index⟩
      (by simp [Iterator.value,hat])
    have hrest := ih (forall_mem_cons.mp hf).2 hlater
    rw [length_cons,times,hstep,bind_ok]
    dsimp only
    rw [Iterator.next,hrest,bind_ok]
    simp only [Nat.add_assoc,Nat.add_comm 1]

theorem times_array : ∃ child, times f vs.length ⟨.ofValues (vs.map j) :: rest,none,document⟩ =
      .ok (vs,⟨child :: rest,none,document⟩) := by
  cases vs with
  | nil => exact ⟨_,rfl⟩
  | cons v vs => exact ⟨_,times_values hf rfl⟩

end

theorem bool_loads (b : Bool) : LoadsAs less .bool b := by
  intro it rest name document hexpects hvalue
  exact loadValue_ok hexpects hvalue rfl

theorem int_loads {signed : Bool} {width : Width} {n : Int} (h : InRange signed width.bits n) :
    LoadsAs less (.int signed width) n := by
  intro it rest name document hexpects hvalue
  exact loadValue_ok hexpects hvalue (getInt_number h)

theorem longLong_loads {signed : Bool} {n : Int} (h : InRange signed 64 n) :
    LoadsAs less (.longLong signed) n := by
  intro it rest name document hexpects hvalue
  have hget : getText signed (.string (castSize (numberText n))) = .ok n := by
    rw [castSize_self (numberText_short h),getText,getString,numberText_nulFree,bind_ok,
      stringToNumber_numberText h]
  exact loadValue_ok hexpects hvalue hget

theorem string_loadsTo (s : Text) : LoadsTo less .string s (cstring (castSize s)) := by
  intro it rest name document hexpects hvalue
  exact loadValue_ok hexpects hvalue rfl

theorem string_loads {s : Text} (h : NulFree s ∧ s.length < 2 ^ 32) : LoadsAs less .string s := by
  have hload := @string_loadsTo less s
  rwa [castSize_self h.2,cstring_self h.1] at hload

theorem members_nil_load (vs : Members.nil.Val) : MembersLoadTo less .nil vs vs :=
  fun _ index _ _ _ _ => ⟨index,rfl⟩

theorem cstring_cast {n : Text} (h : n.length < 2 ^ 32) :
    cstring (castSize (cstring n)) = cstring n := by
  have hle : (cstring n).length ≤ n.length := (List.takeWhile_prefix _).length_le
  rw [castSize_self (Nat.lt_of_le_of_lt hle h),cstring_self (cstring_nulFree n)]

theorem members_cons_load {t : Ty} {tail : Members} {label : Option Text} {v w : t.Val}
    {vs ws : tail.Val} (hshort : ∀ n ∈ label, n.length < 2 ^ 32) (ht : LoadsTo less t v w) (htail : MembersLoadTo less tail vs ws) :
    MembersLoadTo less (.cons label t tail) (v,vs) (w,ws) := by
  intro members index counter rest document h
  obtain ⟨label',counter',hfirst,hlabel⟩ : ∃ label' counter',
      toMembers (.cons label t tail) (v,vs) counter =
        (label',toJson t v) :: toMembers tail vs counter' ∧
          ∀ n ∈ label, cstring label' = cstring n := by
    cases label with
    | none => exact ⟨_,_,rfl,by simp⟩
    | some n => exact ⟨_,_,rfl,by simpa using cstring_cast (hshort n rfl)⟩
  rw [hfirst] at h
  have hat : members[index]? = some (label',toJson t v) := by
    rw [← head?_drop,h]
    rfl
  have hlater : members.drop (index + 1) = toMembers tail vs counter' := by
    rw [← tail_drop,h]
    rfl
  obtain ⟨index',htail⟩ := htail members (index + 1) counter' rest document hlater
  have hexpects : Expects label ⟨.members members,index⟩ := by
    intro n hn
    simp [Iterator.name,hat,hlabel n hn]
  have hname : Input.setNextName ⟨⟨.members members,index⟩ :: rest,none,document⟩ label =
      ⟨⟨.members members,index⟩ :: rest,label,document⟩ := by
    cases label <;> rfl
  refine ⟨index',?_⟩
  rw [loadMembers,hname,ht _ rest label document hexpects (by simp [Iterator.value,hat]),bind_ok]
  dsimp only
  rw [Iterator.next,htail,bind_ok]

theorem members_open_load {vs ws : ms.Val} (h : MembersLoadTo less ms vs ws) (rest : List Iterator)
    (document : Json) :
    ∃ child, loadMembers less ms ⟨.ofMembers (toMembers ms vs 0) :: rest,none,document⟩ =
      .ok (ws,⟨child :: rest,none,document⟩) := by
  cases ms with
  | nil => exact ⟨_,rfl⟩
  | cons label t tail =>
    obtain ⟨v,vs⟩ := vs
    obtain ⟨index',hload⟩ := h (toMembers (.cons label t tail) (v,vs) 0) 0 0 rest document rfl
    refine ⟨_,Eq.trans ?_ hload⟩
    cases label <;> rfl

theorem struct_loads {vs : ms.Val} (h : MembersLoad less ms vs) : LoadsAs less (.struct ms) vs := by
  intro it rest name document hexpects hvalue
  have hopen : openNode (toJson (.struct ms) vs) = .ok (.ofMembers (toMembers ms vs 0)) := by
    rfl
  obtain ⟨child,hload⟩ := members_open_load h (it :: rest) document
  rw [load,startNode_ok hexpects hvalue hopen,bind_ok,hload,bind_ok]
  rfl

theorem vector_loads {element : Ty} {vs : List element.Val}
    (h : ∀ v ∈ vs, LoadsAs less element v) : LoadsAs less (.vector element) vs := by
  intro it rest name document hexpects hvalue
  obtain ⟨child,htimes⟩ := @times_array (it :: rest) document _ (load less element)
    (fun v => toJson element v) vs fun v hv i hi => h v hv i _ none _ (expects_none i) hi
  rw [load,startNode_ok hexpects hvalue rfl,bind_ok,loadSize_ok hvalue,bind_ok,length_map,
    htimes,bind_ok]
  rfl

theorem item_loads {key : Ty} {k : key.Val} {v : value.Val} (hk : LoadsAs less key k)
    (hv : LoadsAs less value v) (hexpects : Expects name it)
    (hvalue : it.value = .ok (.object [(keyName,toJson key k),(mappedName,toJson value v)])) :
    loadItem less key value ⟨it :: rest,name,document⟩ =
      .ok ((k,v),⟨it.next :: rest,none,document⟩) := by
  have hkey := hk ⟨.members [(keyName,toJson key k),(mappedName,toJson value v)],0⟩ (it :: rest)
    (some keyName) document (by simp [Expects,Iterator.name]) rfl
  have hmapped := hv ⟨.members [(keyName,toJson key k),(mappedName,toJson value v)],1⟩
    (it :: rest) (some mappedName) document (by simp [Expects,Iterator.name]) rfl
  rw [loadItem,startNode_ok hexpects hvalue rfl,bind_ok]
  refine Eq.trans (congrArg (· >>= _) hkey) ?_
  rw [bind_ok]
  refine Eq.trans (congrArg (· >>= _) hmapped) ?_
  rfl

theorem map_loads {key : Ty} {items : List (key.Val × value.Val)}
    (hless : ∀ a b, less key a b = true → less key b a = false)
    (hsorted : Ascending (less key) items)
    (h : ∀ item ∈ items, LoadsAs less key item.1 ∧ LoadsAs less value item.2) :
    LoadsAs less (.map key value) items := by
  intro it rest name document hexpects hvalue
  obtain ⟨child,htimes⟩ := @times_array (it :: rest) document _
    (loadItem less key value)
    (fun item : key.Val × value.Val =>
      .object [(keyName,toJson key item.1),(mappedName,toJson value item.2)]) items
    fun item hitem i hi => item_loads (h item hitem).1 (h item hitem).2 (expects_none i) hi
  rw [load,startNode_ok hexpects hvalue rfl,bind_ok,loadSize_ok hvalue,bind_ok,length_map]
  refine Eq.trans (congrArg (· >>= _) htimes) ?_
  change Except.ok (items.foldl (fun xs item => emplace (less key) item xs) [],_) = _
  rw [emplace_all hless (by simpa [Ascending] using hsorted)]
  rfl

end

section

variable {less : (t : Ty) → t.Val → t.Val → Bool}

mutual

theorem load_spec (hless : ∀ t a b, less t a b = true → less t b a = false) :
    ∀ (t : Ty) (v : t.Val), t.WellFormed less v → LoadsAs less t v
  | .bool, b, _ => bool_loads b
  | .int _ _, _, h => int_loads h
  | .longLong _, _, h => longLong_loads h
  | .string, _, h => string_loads h
  | .vector element, _, h => vector_loads fun v hv => load_spec hless element v (h v hv)
  | .map key value, _, h => map_loads (hless key) h.1 fun item hitem =>
      ⟨load_spec hless key item.1 (h.2 item hitem).1,
        load_spec hless value item.2 (h.2 item hitem).2⟩
  | .struct members, vs, h => struct_loads (loadMembers_spec hless members vs h)

theorem loadMembers_spec (hless : ∀ t a b, less t a b = true → less t b a = false) :
    ∀ (ms : Members) (vs : ms.Val), ms.WellFormed less vs → MembersLoad less ms vs
  | .nil, vs, _ => members_nil_load vs
  | .cons _ type rest, (v,vs), h =>
    members_cons_load h.1 (load_spec hless type v h.2.1) (loadMembers_spec hless rest vs h.2.2)

end

theorem saved_loads {ms : Members} {vs ws : ms.Val} (hne : ms ≠ .nil)
    (h : MembersLoadTo less ms vs ws) : (∃ document : Json, document.events = saveAll ms vs) ∧
      ∀ document : Json, document.events = saveAll ms vs →
        ∃ i i', Input.start document = .ok i ∧ loadMembers less ms i = .ok (ws,i') := by
  have hevents := saveAll_events vs hne
  refine ⟨⟨_,hevents.symm⟩,fun document hdocument => ?_⟩
  have heq : document = .object (toMembers ms vs 0) :=
    (events_cancel _ _ [] [] (by rw [hdocument,hevents])).1
  obtain ⟨child,hload⟩ := members_open_load h [] document
  refine ⟨⟨[.ofMembers (toMembers ms vs 0)],none,document⟩,_,?_,hload⟩
  rw [heq]
  rfl

end

def longText : Text := replicate (2 ^ 32) 97

theorem longText_cast : cstring (castSize longText) = [] := by
  rw [castSize,longText,length_replicate,Nat.mod_self,take_zero]
  rfl

theorem string_saved_loads (less : (t : Ty) → t.Val → t.Val → Bool) {s loaded : Text}
    (h : cstring (castSize s) = loaded) :
    ∃ document : Json, document.events = saveAll (.cons none .string .nil) (s,()) ∧
      ∃ i i', Input.start document = .ok i ∧
        loadMembers less (.cons none .string .nil) i = .ok ((loaded,()),i') := by
  have hload : MembersLoadTo less (.cons none .string .nil) (s,()) (loaded,()) := by
    rw [← h]
    exact members_cons_load (by simp) (string_loadsTo s) (members_nil_load ())
  obtain ⟨⟨document,hdocument⟩,hall⟩ := saved_loads (by simp) hload
  exact ⟨document,hdocument,hall document hdocument⟩

def sampleMembers : Members :=
  .cons none (.vector (.int true .w32))
    (.cons (some [118,97,108,117,101,48]) .string
      (.cons (some [97]) (.struct .nil) (.cons (some [97]) (.map .string (.longLong false)) .nil)))

def sampleValues : sampleMembers.Val :=
  (([-3,7] : List Int),([104,105] : Text),(),
    ([([107],18446744073709551615)] : List (Text × Int)),())

theorem sampleValues_wellFormed : sampleMembers.WellFormed (fun _ _ _ => false) sampleValues := by
  have hints : AllOf (InRange true 32) [-3,7] := forall_mem_cons.mpr
    ⟨by decide,forall_mem_singleton.mpr (by decide)⟩
  have htext : NulFree [104,105] ∧ [104,105].length < 2 ^ 32 := by
    unfold NulFree
    decide
  have hitems : AllOf (fun item : Text × Int =>
      (NulFree item.1 ∧ item.1.length < 2 ^ 32) ∧ InRange false 64 item.2)
      [([107],18446744073709551615)] := forall_mem_singleton.mpr ⟨by
    unfold NulFree
    decide,by decide⟩
  exact ⟨by simp,hints,by simp,htext,by simp,trivial,by simp,
    ⟨pairwise_singleton _ _,hitems⟩,trivial⟩

end FuzzingTargets.Cereal.JsonArchive
