import FuzzingTargets.UBoot.HashTable.TransferRoundTrip

namespace FuzzingTargets.UBoot.HashTable

open Probing Bytes List

def strncmp : Nat → List UInt8 → List UInt8 → Int
  | 0, _, _ => 0
  | _ + 1, [], [] => 0
  | _ + 1, [], b :: _ => schar (0 - b)
  | _ + 1, a :: _, [] => schar (a - 0)
  | n + 1, a :: as, b :: bs => if schar (a - b) ≠ 0 then schar (a - b) else strncmp n as bs

def hmatchLoop (name : CString) (htab : HsearchData) : List Nat → Nat × Option Entry
  | [] => (0,none)
  | idx :: is =>
    match htab.table idx with
    | .free => hmatchLoop name htab is
    | .deleted => hmatchLoop name htab is
    | .live used =>
      if 0 < int32 used.hval ∧ strncmp name.1.length name.1 used.entry.key.1 = 0 then
        (idx,some used.entry)
      else hmatchLoop name htab is

variable (name : CString) (lastIdx : Nat) (htab : HsearchData)

def hmatchR : Nat × Option Entry :=
  hmatchLoop name htab (List.range' (lastIdx + 1) (htab.size - (lastIdx + 1)))

def hmatchAll (name : CString) (htab : HsearchData) : Nat → Nat → Option (List (Nat × Option Entry))
  | 0, _ => none
  | fuel + 1, lastIdx =>
    if (hmatchR name lastIdx htab).1 = 0 then some []
    else (hmatchAll name htab fuel (hmatchR name lastIdx htab).1).map (hmatchR name lastIdx htab :: ·)

def EnumeratesExactly : Prop :=
  ∃ visited, hmatchAll name htab (htab.size + 1) 0 = some visited ∧ visited.Nodup ∧
    ∀ i e, (i,e) ∈ visited ↔
      ∃ used, htab.table i = .live used ∧ name.1 <+: used.entry.key.1 ∧ e = some used.entry

section

variable {name : CString} {htab : HsearchData} {i : Nat}

theorem schar_eq_zero {c : UInt8} : schar c = 0 ↔ c = 0 := by
  rw [← UInt8.toNat_inj,UInt8.toNat_zero]
  unfold schar
  have hlt := c.toNat_lt
  split <;> omega

theorem strncmp_eq_zero {s : List UInt8} (hs : 0 ∉ s) (key : List UInt8) :
    strncmp s.length s key = 0 ↔ s <+: key := by
  induction s generalizing key with
  | nil => simp [strncmp]
  | cons a s ih =>
    rw [mem_cons,not_or] at hs
    cases key with
    | nil => simpa [strncmp,schar_eq_zero] using Ne.symm hs.1
    | cons b key =>
      rw [length_cons,strncmp,cons_prefix_cons,← ih hs.2 key]
      by_cases hab : a = b
      · simp [hab,schar_eq_zero]
      · have hne : schar (a - b) ≠ 0 := fun h => hab (by grind [schar_eq_zero.mp h])
        rw [if_pos hne]
        exact iff_of_false hne fun h => hab h.1

def matched (name : CString) (htab : HsearchData) (i : Nat) : Option (Nat × Option Entry) :=
  match htab.table i with
  | .live used =>
    if 0 < int32 used.hval ∧ name.1 <+: used.entry.key.1 then some (i,some used.entry) else none
  | _ => none

theorem matched_eq_some {r : Nat × Option Entry} :
    matched name htab i = some r ↔ ∃ used, htab.table i = .live used ∧
      (0 < int32 used.hval ∧ name.1 <+: used.entry.key.1) ∧ r = (i,some used.entry) := by
  unfold matched
  cases htab.table i with
  | free | deleted => simp
  | live used =>
    by_cases h : 0 < int32 used.hval ∧ name.1 <+: used.entry.key.1
    · simp [h,eq_comm]
    · simp [h]

theorem hmatchLoop_cons (name : CString) (htab : HsearchData) (i : Nat) (is : List Nat) :
    hmatchLoop name htab (i :: is) = (matched name htab i).getD (hmatchLoop name htab is) := by
  rw [hmatchLoop,matched]
  cases htab.table i with
  | free | deleted => rfl
  | live used =>
    simp only [strncmp_eq_zero name.2]
    split <;> rfl

theorem hmatchAll_eq (name : CString) (htab : HsearchData) {n lastIdx fuel : Nat}
    (hn : htab.size - (lastIdx + 1) = n) (hfuel : n < fuel) : hmatchAll name htab fuel lastIdx =
      some ((List.range' (lastIdx + 1) n).filterMap (matched name htab)) := by
  induction n generalizing lastIdx fuel with
  | zero =>
    obtain _ | fuel := fuel
    · omega
    simp [hmatchAll,hmatchR,hn,hmatchLoop]
  | succ n ih =>
    obtain _ | fuel := fuel
    · omega
    have hnext : htab.size - (lastIdx + 1 + 1) = n := by omega
    have hloop : hmatchR name lastIdx htab =
        (matched name htab (lastIdx + 1)).getD (hmatchR name (lastIdx + 1) htab) := by
      rw [hmatchR,hmatchR,hn,hnext,range'_succ,hmatchLoop_cons]
    rw [range'_succ,filterMap_cons]
    cases hmatched : matched name htab (lastIdx + 1) with
    | none =>
      rw [hmatched,Option.getD_none] at hloop
      rw [← ih hnext (by omega : n < fuel + 1),hmatchAll,hmatchAll,hloop]
    | some r =>
      rw [hmatched,Option.getD_some] at hloop
      obtain ⟨used,-,-,rfl⟩ := matched_eq_some.mp hmatched
      rw [hmatchAll,hloop,if_neg (Nat.succ_ne_zero _),ih hnext (by omega)]
      rfl

def enumerated (name : CString) (htab : HsearchData) : List (Nat × Option Entry) :=
  (List.range' 1 (htab.size - 1)).filterMap (matched name htab)

theorem enumerated_nodup : (enumerated name htab).Nodup := by
  refine Nodup.filterMap (fun i j r hi hj => ?_) nodup_range'
  obtain ⟨_,-,-,rfl⟩ := matched_eq_some.mp hi
  obtain ⟨_,-,-,hr⟩ := matched_eq_some.mp hj
  exact congrArg Prod.fst hr

theorem mem_enumerated (hv : Valid htab) {e : Option Entry} :
    (i,e) ∈ enumerated name htab ↔ i < htab.size ∧ ∃ used, htab.table i = .live used ∧
      (used.hval < 2 ^ 31 ∧ name.1 <+: used.entry.key.1) ∧ e = some used.entry := by
  have hpositive : ∀ {used}, htab.table i = .live used →
      (0 < int32 used.hval ↔ used.hval < 2 ^ 31) := by
    intro used hi
    have hhash := hv.hval_bounds hi
    have hsize := hv.size.1
    unfold int32
    split <;> omega
  simp only [enumerated,mem_filterMap,mem_range'_1,matched_eq_some]
  constructor
  · rintro ⟨i,hi,used,hused,⟨hpos,hname⟩,⟨⟩⟩
    exact ⟨by omega,used,hused,⟨(hpositive hused).mp hpos,hname⟩,rfl⟩
  · rintro ⟨hlt,used,hused,⟨hsmall,hname⟩,rfl⟩
    have hin := hv.bounds hused
    exact ⟨i,by omega,used,hused,⟨(hpositive hused).mpr hsmall,hname⟩,rfl⟩

end

def Enumerable : Prop :=
  ∀ i used, htab.table i = .live used → name.1 <+: used.entry.key.1 →
    i ≠ htab.size ∧ used.hval < 2 ^ 31

theorem hmatch_exact_iff {nel : Nat} {htab0 htab : HsearchData} {calls : List (Policy × Call)}
    {past : List (Call × Reply)} (h0 : hcreateR nel = some htab0)
    (hrun : run htab0 calls = .ok (past,htab)) (name : CString) :
    EnumeratesExactly name htab ↔ Enumerable name htab := by
  have hv := reached_valid h0 hrun
  have hall : hmatchAll name htab (htab.size + 1) 0 = some (enumerated name htab) :=
    hmatchAll_eq name htab rfl (by omega)
  constructor
  · rintro ⟨visited,hvisited,-,hexact⟩ i used hused hname
    rw [hall] at hvisited
    cases hvisited
    obtain ⟨hlt,used',hused',⟨hsmall,-⟩,-⟩ :=
      (mem_enumerated hv).mp ((hexact i (some used.entry)).mpr ⟨used,hused,hname,rfl⟩)
    rw [hused] at hused'
    cases hused'
    exact ⟨Nat.ne_of_lt hlt,hsmall⟩
  · intro h
    refine ⟨_,hall,enumerated_nodup,fun i e => (mem_enumerated hv).trans ?_⟩
    constructor
    · rintro ⟨-,used,hused,⟨-,hname⟩,he⟩
      exact ⟨used,hused,hname,he⟩
    · rintro ⟨used,hused,hname,he⟩
      obtain ⟨hne,hsmall⟩ := h i used hused hname
      exact ⟨lt_of_le_of_ne (hv.bounds hused).2 hne,used,hused,⟨hsmall,hname⟩,he⟩

theorem two_entries_enumerate : hcreateR 2 = some ⟨5,0,fun _ => .free⟩ ∧
    (∃ past, run ⟨5,0,fun _ => .free⟩ settings = .ok (past,twoEntries)) ∧
    EnumeratesExactly (text [] (by decide)) twoEntries := by
  obtain ⟨past,hrun⟩ := run_settings
  refine ⟨hcreateR_two,⟨past,hrun⟩,(hmatch_exact_iff hcreateR_two hrun _).mpr ?_⟩
  intro i used hused _
  have hhash := (reached_valid hcreateR_two hrun).hval_bounds hused
  refine ⟨?_,lt_of_le_of_lt hhash.2 (by decide)⟩
  rintro rfl
  cases hused

def setVariable (key : List UInt8) (h : 0 ∉ key) : Policy × Call :=
  (lenient,.enter (text key h) (text key h) 0)

theorem last_slot_not_enumerated : ∃ htab0 past htab, hcreateR 64 = some htab0 ∧
    run htab0 [setVariable [83] (by decide),setVariable [50] (by decide),
      setVariable [84] (by decide),setVariable [112,97] (by decide)] = .ok (past,htab) ∧
    contents htab (text [112,97] (by decide)) = some (text [112,97] (by decide)) ∧
    ¬EnumeratesExactly (text [112] (by decide)) htab := by
  refine ⟨_,_,_,hcreateR_eq (by decide : _ = some 67),rfl,by decide +kernel,?_⟩
  rintro ⟨visited,hvisited,-,hexact⟩
  have hnone : visited = [] := by
    refine Option.some.inj (hvisited.symm.trans ?_)
    decide +kernel
  have hlast := (hexact 67 _).mpr ⟨_,rfl,by decide,rfl⟩
  rw [hnone] at hlast
  cases hlast

end FuzzingTargets.UBoot.HashTable
