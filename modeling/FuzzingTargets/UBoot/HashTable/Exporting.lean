import FuzzingTargets.UBoot.HashTable.FiniteMap
import FuzzingTargets.UBoot.HashTable.Parsing
import Mathlib.Algebra.Order.BigOperators.Group.List

namespace FuzzingTargets.UBoot.HashTable

open Probing Checked Bytes List

section

variable {α : Type} {comp : α → α → Int}

theorem swapAt_perm (l : List α) (a b : Nat) : (swapAt l a b).Perm l := by
  unfold swapAt
  split
  · rename_i x y ha hb
    obtain ⟨ha',rfl⟩ := List.getElem?_eq_some_iff.mp ha
    obtain ⟨hb',rfl⟩ := List.getElem?_eq_some_iff.mp hb
    exact set_set_perm ha' hb'
  · exact .refl l

theorem sink_perm (gap fuel : Nat) : ∀ (j : Nat) (l : List α), (sink comp gap fuel j l).Perm l := by
  induction fuel with
  | zero => exact fun _ l => .refl l
  | succ fuel ih =>
    intro j l
    unfold sink
    dsimp only
    split
    · split
      · exact .refl l
      · split
        · exact (ih _ _).trans (swapAt_perm l _ _)
        · exact swapAt_perm l _ _
    · exact .refl l

theorem sortPasses_perm (fuel : Nat) :
    ∀ (wgap : Nat) (l : List α), (sortPasses comp fuel wgap l).Perm l := by
  have hpass : ∀ (wgap : Nat) (is : List Nat) (l : List α),
      (is.foldl (fun l i => sink comp wgap i i l) l).Perm l := by
    intro wgap is
    induction is with
    | nil => exact fun l => .refl l
    | cons i is ih => exact fun l => (ih _).trans (sink_perm wgap i i l)
  induction fuel with
  | zero => exact fun _ l => .refl l
  | succ fuel ih =>
    intro wgap l
    unfold sortPasses
    dsimp only
    split
    · exact (ih _ _).trans (hpass wgap _ l)
    · exact hpass wgap _ l

theorem qsort_perm (comp : α → α → Int) (l : List α) : (qsort comp l).Perm l := by
  unfold qsort
  split
  · exact sortPasses_perm _ _ l
  · exact .refl l

end

theorem lineLength_le (sep : UInt8) (e : Entry) : lineLength sep e ≤ (exportLine sep e).length := by
  have hle := length_le_escape sep e.data.1
  rw [exportLine_length,lineLength]
  split <;> omega

section

variable (htab : HsearchData) (sep : UInt8) (flag : Nat) (filter : Option (Entry → Bool))

def exportedEntries : List Entry :=
  (List.range' 1 htab.size).filterMap (exportedEntry htab flag filter)

def exportedText : List UInt8 :=
  (qsort cmpkey (exportedEntries htab flag filter)).flatMap (exportLine sep)

def exportLength : Nat := ((exportedEntries htab flag filter).map (lineLength sep)).sum

theorem exportedText_length : (exportedText htab sep flag filter).length =
    ((exportedEntries htab flag filter).map fun e => (exportLine sep e).length).sum := by
  rw [exportedText,length_flatMap,((qsort_perm _ _).map _).sum_eq]

theorem exportLength_le :
    exportLength htab sep flag filter ≤ (exportedText htab sep flag filter).length := by
  rw [exportedText_length]
  exact sum_le_sum fun e _ => lineLength_le sep e

end

section

variable {htab : HsearchData} {sep : UInt8} {flag : Nat}

section

variable (hv : Valid htab) (hlt : htab.size < 2 ^ 31) (hflag : flag.testBit 3 = false)
include hv hlt hflag

theorem exportedEntry_eq {i : Nat} {e : Entry} :
    exportedEntry htab flag none i = some e ↔ ∃ u, htab.table i = .live u ∧ u.entry = e := by
  unfold exportedEntry
  cases hi : htab.table i with
  | free | deleted => simp
  | live u =>
    have hmem := hv.hval_bounds hi
    have hpos : 0 < int32 u.hval := by
      rw [int32,if_pos (by omega)]
      omega
    simp [hpos,hflag]

theorem mem_exportedEntries {e : Entry} :
    e ∈ exportedEntries htab flag none ↔ ∃ i u, htab.table i = .live u ∧ u.entry = e := by
  rw [exportedEntries,mem_filterMap]
  constructor
  · rintro ⟨i,_,hi⟩
    obtain ⟨u,hu⟩ := (exportedEntry_eq hv hlt hflag).mp hi
    exact ⟨i,u,hu⟩
  · rintro ⟨i,u,hi,hu⟩
    have hin := hv.bounds hi
    exact ⟨i,mem_range'_1.mpr (by omega),(exportedEntry_eq hv hlt hflag).mpr ⟨u,hi,hu⟩⟩

theorem exportedEntries_contents {k v : CString} :
    contents htab k = some v ↔ ∃ e ∈ exportedEntries htab flag none, e.key = k ∧ e.data = v := by
  simp only [mem_exportedEntries hv hlt hflag]
  constructor
  · intro h
    obtain ⟨u,hu,rfl⟩ := Option.map_eq_some_iff.mp h
    obtain ⟨i,hi,hkey⟩ := (lookup_eq_some hv.sound).mp hu
    exact ⟨u.entry,⟨i,u,hi,rfl⟩,hkey,rfl⟩
  · rintro ⟨e,⟨i,u,hi,rfl⟩,rfl,rfl⟩
    exact contents_of_live hv hi

theorem exportedEntries_nodup : ((exportedEntries htab flag none).map Entry.key).Nodup := by
  rw [exportedEntries,map_filterMap]
  refine Nodup.filterMap ?_ nodup_range'
  intro i j k hi hj
  simp only [Option.mem_def,Option.map_eq_some_iff] at hi hj
  obtain ⟨e,he,hek⟩ := hi
  obtain ⟨e',he',hek'⟩ := hj
  obtain ⟨u,hu,rfl⟩ := (exportedEntry_eq hv hlt hflag).mp he
  obtain ⟨u',hu',rfl⟩ := (exportedEntry_eq hv hlt hflag).mp he'
  exact hv.sound.unique i j u u' hu hu' (hek.trans hek'.symm)

theorem exportedEntries_length : (exportedEntries htab flag none).length = htab.filled := by
  have hset : {k | contents htab k ≠ none} = ((exportedEntries htab flag none).map Entry.key).toFinset := by
    ext k
    simp only [Set.mem_ofPred_eq,coe_toFinset,mem_map,Option.ne_none_iff_exists',
      exportedEntries_contents hv hlt hflag]
    constructor
    · rintro ⟨v,e,he,hk,_⟩
      exact ⟨e,he,hk⟩
    · rintro ⟨e,he,hk⟩
      exact ⟨e.data,e,he,hk,rfl⟩
  rw [← ncard_contents hv,hset,Set.ncard_coe_finset,
    toFinset_card_of_nodup (exportedEntries_nodup hv hlt hflag),length_map]

end

theorem hexportR_eq (hlt : htab.size < 2 ^ 31) {size : Nat}
    (hsize : (exportedText htab sep flag none).length < size) :
    hexportR htab sep flag size none = .ok (some (exportedText htab sep flag none ++
      replicate (size - (exportedText htab sep flag none).length) 0)) := by
  have htot := exportLength_le htab sep flag none
  unfold exportLength exportedText exportedEntries at htot
  unfold exportedText exportedEntries at hsize ⊢
  rw [hexportR,if_neg (by omega)]
  rw [if_neg (by omega),if_neg (by omega : ¬size = 0),if_neg (by omega)]

end

section

variable (htab : HsearchData) (sep : UInt8) (flag size : Nat) (filter : Option (Entry → Bool))

def ExportsInside : Prop :=
  (0 < size ∧ hexportR htab sep flag size filter = .ok none) ∨
    ∃ rest, hexportR htab sep flag size filter =
        .ok (some (exportedText htab sep flag filter ++ 0 :: rest)) ∧
      (exportedText htab sep flag filter ++ 0 :: rest).length =
        if size = 0 then (exportedText htab sep flag filter).length + 1 else size

def plainLength : Nat :=
  ((exportedEntries htab flag filter).map fun e => e.key.1.length + e.data.1.length + 2).sum

def backslashes : Nat := ((exportedEntries htab flag filter).map fun e => e.data.1.count 92).sum

def RoomForBackslashes : Prop :=
  backslashes htab flag filter = 0 ∨ 0 < size ∧ (size ≤ plainLength htab flag filter ∨
    plainLength htab flag filter + backslashes htab flag filter < size)

theorem escape_zero_length {s : List UInt8} (hs : 0 ∉ s) :
    (escape 0 s).length = s.length + s.count 92 := by
  induction s with
  | nil => rfl
  | cons c s ih =>
    rw [mem_cons,not_or] at hs
    rw [escape_cons,length_append,ih hs.2,escapeByte,length_cons,count_cons]
    by_cases hc : c = 92
    · simp [hc]
      omega
    · simp [hc,Ne.symm hs.1]
      omega

theorem exportLength_of_separator (hsep : sep ≠ 0) :
    exportLength htab sep flag filter = (exportedText htab sep flag filter).length := by
  rw [exportedText_length,exportLength]
  refine congrArg sum (map_congr_left fun e _ => ?_)
  rw [lineLength,if_neg hsep,exportLine_length]
  omega

theorem exportedText_zero_length : (exportedText htab 0 flag filter).length =
    plainLength htab flag filter + backslashes htab flag filter := by
  rw [exportedText_length,plainLength,backslashes,← sum_map_add]
  refine congrArg sum (map_congr_left fun e _ => ?_)
  rw [exportLine_length,escape_zero_length e.data.2]
  omega

theorem exportsInside_iff : ExportsInside htab sep flag size filter ↔ htab.size < 2 ^ 31 ∧
      (exportLength htab sep flag filter = (exportedText htab sep flag filter).length ∨
        0 < size ∧ (size ≤ exportLength htab sep flag filter ∨
          (exportedText htab sep flag filter).length < size)) := by
  have hexport : hexportR htab sep flag size filter =
      if 2 ^ 31 ≤ htab.size then .error .overflow
      else if size ≠ 0 ∧ size < exportLength htab sep flag filter + 1 then .ok none
      else
        let size := if size = 0 then exportLength htab sep flag filter + 1 else size
        if size < (exportedText htab sep flag filter).length + 1 then .error (.outside size)
        else .ok (some (exportedText htab sep flag filter ++
          replicate (size - (exportedText htab sep flag filter).length) 0)) := rfl
  have hle := exportLength_le htab sep flag filter
  unfold ExportsInside
  rw [hexport]
  generalize exportLength htab sep flag filter = totlen at hle
  generalize exportedText htab sep flag filter = text at hle
  by_cases hlt : 2 ^ 31 ≤ htab.size
  · rw [if_pos hlt]
    simp only [reduceCtorEq,and_false,false_and,exists_false,or_false,false_iff]
    omega
  rw [if_neg hlt]
  by_cases hsmall : size ≠ 0 ∧ size < totlen + 1
  · rw [if_pos hsmall]
    exact iff_of_true (.inl ⟨by omega,rfl⟩) ⟨by omega,.inr ⟨by omega,.inl (by omega)⟩⟩
  rw [if_neg hsmall]
  by_cases hover : (if size = 0 then totlen + 1 else size) < text.length + 1
  · rw [if_pos hover]
    have hnot : ¬(totlen = text.length ∨ 0 < size ∧ (size ≤ totlen ∨ text.length < size)) := by
      split at hover <;> omega
    simp [hnot]
  · rw [if_neg hover]
    refine iff_of_true (.inr ⟨replicate ((if size = 0 then totlen + 1 else size) - text.length - 1) 0,?_,?_⟩)
      ⟨by omega,?_⟩
    · rw [← replicate_succ,Nat.sub_add_cancel (by omega)]
    · rw [length_append,length_cons,length_replicate]
      split at hover <;> split <;> omega
    · split at hover <;> omega

end

theorem hexportR_inside_iff (sep : UInt8) (flag size : Nat) (filter : Option (Entry → Bool)) :
    ExportsInside htab sep flag size filter ↔
      htab.size < 2 ^ 31 ∧ (sep = 0 → RoomForBackslashes htab flag size filter) := by
  by_cases hsep : sep = 0
  · subst hsep
    have hlen := exportedText_zero_length htab flag filter
    rw [exportsInside_iff,hlen,show exportLength htab 0 flag filter = plainLength htab flag filter from rfl]
    unfold RoomForBackslashes
    simp
  · have hlen := exportLength_of_separator htab sep flag filter hsep
    simp [exportsInside_iff,hlen,hsep]

theorem backslash_overruns_buffer : ∃ htab past,
    run ⟨5,0,fun _ => .free⟩ [(lenient,.enter (text [97] (by decide)) (text [92] (by decide)) 0)] =
      .ok (past,htab) ∧
    hexportR htab 0 0 0 none = .error (.outside 5) ∧ ¬ExportsInside htab 0 0 0 none := by
  have hexport : hexportR ⟨5,1,Function.update (fun _ => .free) 3
      (.live ⟨3,⟨text [97] (by decide),text [92] (by decide),none,0⟩⟩)⟩ 0 0 0 none =
        .error (.outside 5) := by
    rfl
  refine ⟨_,_,rfl,hexport,?_⟩
  rintro (⟨-,h⟩ | ⟨rest,h,-⟩) <;> cases hexport.symm.trans h

end FuzzingTargets.UBoot.HashTable
