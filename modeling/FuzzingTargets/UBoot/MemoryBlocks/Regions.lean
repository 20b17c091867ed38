import FuzzingTargets.Foundation.Intervals

namespace FuzzingTargets.UBoot.MemoryBlocks
open Intervals List

structure Region where
  base : UInt64
  size : UInt64
  deriving DecidableEq

def maxLmbRegions : Nat := 8

structure Lmb where
  memory : List Region
  reserved : List Region
  deriving DecidableEq

def lmbInit : Lmb := ⟨[],[]⟩

def lmbAddrsOverlap (base1 size1 base2 size2 : UInt64) : Bool :=
  base1 ≤ base2 + size2 - 1 ∧ base2 ≤ base1 + size1 - 1

def lmbAddrsAdjacent (base1 size1 base2 size2 : UInt64) : Int :=
  if base2 = base1 + size1 then 1 else if base1 = base2 + size2 then -1 else 0

def lmbRegionsAdjacent (r1 r2 : Region) : Int :=
  lmbAddrsAdjacent r1.base r1.size r2.base r2.size

def lmbCoalesceRegions (pre : List Region) (r1 r2 : Region) (post : List Region) : List Region :=
  pre ++ ⟨r1.base,r1.size + r2.size⟩ :: post

inductive Scan where
  | present
  | before (pre : List Region) (r : Region) (post : List Region)
  | after (pre : List Region) (r : Region) (post : List Region)
  | overlaps
  | clear
  deriving DecidableEq

def scanRegions (base size : UInt64) (pre : List Region) : List Region → Scan
  | [] => .clear
  | r :: post =>
    if r.base = base ∧ r.size = size then .present
    else if 0 < lmbAddrsAdjacent base size r.base r.size then .before pre r post
    else if lmbAddrsAdjacent base size r.base r.size < 0 then .after pre r post
    else if lmbAddrsOverlap base size r.base r.size then .overlaps
    else scanRegions base size (pre ++ [r]) post

def joinNext (pre : List Region) (r : Region) : List Region → Int × List Region
  | [] => (1,pre ++ [r])
  | next :: post =>
    if lmbRegionsAdjacent r next ≠ 0 then (2,lmbCoalesceRegions pre r next post)
    else (1,pre ++ r :: next :: post)

def insertFromEnd (new : Region) : List Region → List Region
  | [] => [new]
  | r :: rs => if new.base < r.base then r :: insertFromEnd new rs else new :: r :: rs

variable (new : Region) (rgn : List Region)

def insertRegion : List Region :=
  (insertFromEnd new rgn.reverse).reverse

def lmbAddRegion (base size : UInt64) : Int × List Region :=
  if rgn.length = 0 then (0,[⟨base,size⟩])
  else
    match scanRegions base size [] rgn with
    | .present => (0,rgn)
    | .before pre r post => joinNext pre ⟨r.base - size,r.size + size⟩ post
    | .after pre r post => joinNext pre ⟨r.base,r.size + size⟩ post
    | .overlaps => (-1,rgn)
    | .clear =>
      if maxLmbRegions ≤ rgn.length then (-1,rgn) else (0,insertRegion ⟨base,size⟩ rgn)

variable (lmb : Lmb) (base size : UInt64)

def lmbAdd : Int × Lmb :=
  let (ret,memory) := lmbAddRegion lmb.memory base size
  (ret,{ lmb with memory := memory })

def lmbReserve : Int × Lmb :=
  let (ret,reserved) := lmbAddRegion lmb.reserved base size
  (ret,{ lmb with reserved := reserved })

def findHolding (base last : UInt64) (pre : List Region) :
    List Region → Option (List Region × Region × List Region)
  | [] => none
  | r :: post =>
    if r.base ≤ base ∧ last ≤ r.base + r.size - 1 then some (pre,r,post)
    else findHolding base last (pre ++ [r]) post

def freeWithin (base size last : UInt64) (pre : List Region) (r : Region) (post : List Region) :
    Int × List Region :=
  if r.base = base ∧ r.base + r.size - 1 = last then (0,pre ++ post)
  else if r.base = base then (0,pre ++ ⟨last + 1,r.size - size⟩ :: post)
  else if r.base + r.size - 1 = last then (0,pre ++ ⟨r.base,r.size - size⟩ :: post)
  else lmbAddRegion (pre ++ ⟨r.base,base - r.base⟩ :: post) (last + 1) (r.base + r.size - 1 - last)

def freeRegion (base size : UInt64) : Int × List Region :=
  match findHolding base (base + size - 1) [] rgn with
  | none => (-1,rgn)
  | some (pre,r,post) => freeWithin base size (base + size - 1) pre r post

def lmbFree : Int × Lmb :=
  let (ret,reserved) := freeRegion lmb.reserved base size
  (ret,{ lmb with reserved := reserved })

def lmbOverlapsRegion (base size : UInt64) : Option Region :=
  rgn.find? fun r => lmbAddrsOverlap base size r.base r.size

def lmbAlignDown (addr size : UInt64) : UInt64 := addr &&& ~~~(size - 1)

def topBelow (r : Region) (maxAddr : UInt64) : UInt64 :=
  let base := r.base + r.size
  min (if base < r.base then -1 else base) maxAddr

def firstCandidate (r : Region) (size align maxAddr : UInt64) : Option UInt64 :=
  if r.size < size then none
  else if maxAddr = 0 then some (lmbAlignDown (r.base + r.size - size) align)
  else if r.base < maxAddr then some (lmbAlignDown (topBelow r maxAddr - size) align)
  else none

inductive Search where
  | found (base : UInt64)
  | nothing
  | running
  deriving DecidableEq

def searchDown (reserved : List Region) (lmbbase size align : UInt64) : Nat → UInt64 → Search
  | 0, _ => .running
  | fuel + 1, base =>
    if base ≠ 0 ∧ lmbbase ≤ base then
      match lmbOverlapsRegion reserved base size with
      | none => .found base
      | some r =>
        if r.base < size then .nothing
        else searchDown reserved lmbbase size align fuel (lmbAlignDown (r.base - size) align)
    else .nothing

def searchRegion (reserved : List Region) (size align maxAddr : UInt64) (r : Region) : Search :=
  match firstCandidate r size align maxAddr with
  | none => .nothing
  | some base => searchDown reserved r.base size align (reserved.length + 1) base

def searchMemory (reserved : List Region) (size align maxAddr : UInt64) : List Region → Search
  | [] => .nothing
  | r :: below =>
    match searchRegion reserved size align maxAddr r with
    | .nothing => searchMemory reserved size align maxAddr below
    | s => s

def takeBlock : UInt64 × Lmb :=
  let (ret,reserved) := lmbAddRegion lmb.reserved base size
  if ret < 0 then (0,{ lmb with reserved := reserved })
  else (base,{ lmb with reserved := reserved })

def lmbAllocBase (size align maxAddr : UInt64) : Option (UInt64 × Lmb) :=
  match searchMemory lmb.reserved size align maxAddr lmb.memory.reverse with
  | .found base => some (takeBlock lmb base size)
  | .nothing => some (0,lmb)
  | .running => none

def lmbAlloc (size align : UInt64) : Option (UInt64 × Lmb) :=
  lmbAllocBase lmb size align 0

def lmbAllocAddr : UInt64 × Lmb :=
  match lmbOverlapsRegion lmb.memory base size with
  | none => (0,lmb)
  | some r =>
    if lmbAddrsOverlap r.base r.size (base + size - 1) 1 then
      let (ret,lmb') := lmbReserve lmb base size
      (if 0 ≤ ret then base else 0,lmb')
    else (0,lmb)

def freeBefore (top addr : UInt64) : List Region → UInt64
  | [] => top - addr
  | r :: rest =>
    if addr < r.base then r.base - addr
    else if addr < r.base + r.size then 0
    else freeBefore top addr rest

def lmbGetFreeSize (addr : UInt64) : UInt64 :=
  match lmbOverlapsRegion lmb.memory addr 1, lmb.memory.getLast? with
  | some _, some last => freeBefore (last.base + last.size) addr lmb.reserved
  | _, _ => 0

def lmbIsReserved (addr : UInt64) : Bool :=
  lmb.reserved.any fun r => r.base ≤ addr ∧ addr ≤ r.base + r.size - 1

def Region.lo (r : Region) : Nat := r.base.toNat

def Region.hi (r : Region) : Nat := r.base.toNat + r.size.toNat

structure Table (gap : Nat) (t : List Region) : Prop where
  apart : Apart gap Region.lo Region.hi t
  inside : ∀ r ∈ t, r.hi ≤ 2 ^ 64

def Stays : Prop := new.lo < new.hi ∧ new.hi ≤ 2 ^ 64

def WrapsAround (t : List Region) (new : Region) : Prop :=
  (new.hi = 2 ^ 64 ∧ ∃ r ∈ t, r.lo = 0) ∨ (new.lo = 0 ∧ ∃ r ∈ t, r.hi = 2 ^ 64) ∨
    ∃ r s, t = [r,s] ∧ r.lo = 0 ∧ s.hi = 2 ^ 64 ∧ new.lo = r.hi

def Touches (t : List Region) (new : Region) : Prop := ∃ r ∈ t, r.hi = new.lo ∨ new.hi = r.lo

section

variable {base1 size1 base2 size2 : UInt64} {r s : Region}

theorem last_toNat (hpos : 0 < size1.toNat) (hin : base1.toNat + size1.toNat ≤ 2 ^ 64) :
    (base1 + size1 - 1).toNat = base1.toNat + size1.toNat - 1 := by
  rw [UInt64.toNat_sub,UInt64.toNat_add,UInt64.toNat_one]
  omega

theorem stays_iff : Stays ⟨base1,size1⟩ ↔
    0 < size1.toNat ∧ base1.toNat + size1.toNat ≤ 2 ^ 64 := by
  unfold Stays Region.lo Region.hi
  dsimp only
  omega

theorem overlap_iff (hr : Stays r) (hs : Stays s) :
    lmbAddrsOverlap r.base r.size s.base s.size = true ↔ r.lo < s.hi ∧ s.lo < r.hi := by
  obtain ⟨hr,hrin⟩ := stays_iff.mp hr
  obtain ⟨hs,hsin⟩ := stays_iff.mp hs
  unfold lmbAddrsOverlap Region.lo Region.hi
  rw [decide_eq_true_iff,UInt64.le_iff_toNat_le,UInt64.le_iff_toNat_le,last_toNat hr hrin,
    last_toNat hs hsin]
  omega

theorem follows_iff : s.base = r.base + r.size ↔ s.lo = r.hi % 2 ^ 64 := by
  rw [← UInt64.toNat_inj,UInt64.toNat_add]
  rfl

theorem adjacent_pos : 0 < lmbAddrsAdjacent r.base r.size s.base s.size ↔ s.lo = r.hi % 2 ^ 64 := by
  unfold lmbAddrsAdjacent
  rw [← follows_iff]
  split
  · simp_all
  · split <;> simp_all

theorem adjacent_neg (h : lmbAddrsAdjacent r.base r.size s.base s.size < 0) :
    r.lo = s.hi % 2 ^ 64 := by
  unfold lmbAddrsAdjacent at h
  split at h
  · simp at h
  split at h
  · rename_i hafter
    exact follows_iff.mp hafter
  · simp at h

theorem adjacent_zero (h : lmbAddrsAdjacent r.base r.size s.base s.size = 0) :
    s.lo ≠ r.hi % 2 ^ 64 ∧ r.lo ≠ s.hi % 2 ^ 64 := by
  unfold lmbAddrsAdjacent at h
  split at h
  · simp at h
  split at h
  · simp at h
  · rename_i hbefore hafter
    exact ⟨fun hlo => hbefore (follows_iff.mpr hlo),fun hlo => hafter (follows_iff.mpr hlo)⟩

theorem adjacent_ne (h : lmbAddrsAdjacent r.base r.size s.base s.size ≠ 0) :
    s.lo = r.hi % 2 ^ 64 ∨ r.lo = s.hi % 2 ^ 64 := by
  rcases Int.lt_or_gt_of_ne h with hneg | hpos
  · exact .inr (adjacent_neg hneg)
  · exact .inl (adjacent_pos.mp hpos)

end

section

def Passed (new r : Region) : Prop :=
  lmbAddrsAdjacent new.base new.size r.base r.size = 0 ∧
    lmbAddrsOverlap new.base new.size r.base r.size = false

inductive Stopped (new : Region) (pre : List Region) (r : Region) (post : List Region) : Scan → Prop
  | present (h : r = new) : Stopped new pre r post .present
  | before (h : 0 < lmbAddrsAdjacent new.base new.size r.base r.size) :
      Stopped new pre r post (.before pre r post)
  | after (h : lmbAddrsAdjacent new.base new.size r.base r.size < 0) :
      Stopped new pre r post (.after pre r post)
  | overlaps (h : lmbAddrsOverlap new.base new.size r.base r.size = true) (hne : r ≠ new) :
      Stopped new pre r post .overlaps

theorem scanRegions_cases (pre rest : List Region) :
    (scanRegions new.base new.size pre rest = .clear ∧ ∀ r ∈ rest, Passed new r) ∨
      ∃ mid r post, rest = mid ++ r :: post ∧ (∀ p ∈ mid, Passed new p) ∧
        Stopped new (pre ++ mid) r post (scanRegions new.base new.size pre rest) := by
  induction rest generalizing pre with
  | nil => exact .inl ⟨rfl,by simp⟩
  | cons r rest ih =>
    unfold scanRegions
    split
    · rename_i hsame
      refine .inr ⟨[],r,rest,rfl,by simp,.present ?_⟩
      cases r
      cases new
      simp_all
    rename_i hother
    split
    · rename_i hbefore
      refine .inr ⟨[],r,rest,rfl,by simp,?_⟩
      rw [append_nil]
      exact .before hbefore
    rename_i hbefore
    split
    · rename_i hafter
      refine .inr ⟨[],r,rest,rfl,by simp,?_⟩
      rw [append_nil]
      exact .after hafter
    rename_i hafter
    split
    · rename_i hoverlap
      refine .inr ⟨[],r,rest,rfl,by simp,.overlaps hoverlap ?_⟩
      rintro rfl
      exact hother ⟨rfl,rfl⟩
    rename_i hoverlap
    have hpassed : Passed new r := ⟨by omega,by simpa using hoverlap⟩
    rcases ih (pre ++ [r]) with ⟨hclear,hall⟩ | ⟨mid,s,post,rfl,hmid,hstop⟩
    · exact .inl ⟨hclear,forall_mem_cons.mpr ⟨hpassed,hall⟩⟩
    · rw [append_assoc] at hstop
      exact .inr ⟨r :: mid,s,post,rfl,forall_mem_cons.mpr ⟨hpassed,hmid⟩,hstop⟩

end

section

variable {gap : Nat} {t pre post : List Region} {r s new : Region}

theorem table_stays (h : Table gap t) (hr : r ∈ t) : Stays r := ⟨h.apart.1 r hr,h.inside r hr⟩

theorem passed_apart (hnew : Stays new) (hr : Stays r) (h : Passed new r) :
    r.hi < new.lo ∨ new.hi < r.lo := by
  obtain ⟨hbefore,hafter⟩ := adjacent_zero h.1
  have hoverlap : ¬(new.lo < r.hi ∧ r.lo < new.hi) := by
    rw [← overlap_iff hnew hr,h.2]
    exact Bool.false_ne_true
  have hnewlt : new.lo < 2 ^ 64 := new.base.toNat_lt
  have hrlt : r.lo < 2 ^ 64 := r.base.toNat_lt
  omega

structure Joined (gap : Nat) (t t' : List Region) : Prop where
  table : Table gap t'
  covers : ∀ x, Covers Region.lo Region.hi t' x ↔ Covers Region.lo Region.hi t x
  length : t'.length ≤ t.length

theorem coalesced_covers {a b c : Region} (hlo : c.lo = a.lo) (hhi : c.hi = b.hi) (htouch : a.hi = b.lo)
    (ha : a.lo ≤ a.hi) (hb : b.lo ≤ b.hi) (x : Nat) :
    Covers Region.lo Region.hi (pre ++ c :: post) x ↔
      Covers Region.lo Region.hi (pre ++ a :: b :: post) x := by
  have hboth : (a.lo ≤ x ∧ x < b.hi) ↔ (a.lo ≤ x ∧ x < a.hi) ∨ b.lo ≤ x ∧ x < b.hi := by omega
  rw [covers_append,covers_append,covers_cons,covers_cons,covers_cons,hlo,hhi,hboth,or_assoc]

theorem table_iff : Table gap t ↔ Apart gap Region.lo Region.hi t ∧ ∀ r ∈ t, r.hi ≤ 2 ^ 64 :=
  ⟨fun h => ⟨h.apart,h.inside⟩,fun h => ⟨h.1,h.2⟩⟩

theorem table_split : Table gap (pre ++ r :: post) ↔ Table gap (pre ++ post) ∧ Stays r ∧
    (∀ p ∈ pre, p.hi + gap ≤ r.lo) ∧ ∀ q ∈ post, r.hi + gap ≤ q.lo := by
  simp only [table_iff,apart_split,Stays,forall_mem_append,forall_mem_cons]
  tauto

theorem joinNext_spec (hgap : gap ≤ 1) (hrest : Table gap (pre ++ post)) (hr : Stays r)
    (hpre : ∀ p ∈ pre, p.hi + gap ≤ r.lo) (hpost : ∀ q ∈ post, r.hi ≤ q.lo)
    (hwrap : ∀ q, post.head? = some q → ¬(r.lo = 0 ∧ q.hi = 2 ^ 64)) :
    1 ≤ (joinNext pre r post).1 ∧ Joined gap (pre ++ r :: post) (joinNext pre r post).2 := by
  cases post with
  | nil =>
    have htable := table_split.mpr ⟨hrest,hr,hpre,fun q hq => absurd hq not_mem_nil⟩
    exact ⟨Int.le_refl 1,⟨htable,fun x => Iff.rfl,Nat.le_refl _⟩⟩
  | cons next post =>
    obtain ⟨hrest',hnext,hbefore,hafter⟩ := table_split.mp hrest
    have htouch := hpost next mem_cons_self
    have hnowrap := hwrap next rfl
    obtain ⟨hrpos,hrin⟩ := hr
    obtain ⟨hnextpos,hnextin⟩ := hnext
    rw [joinNext]
    split
    · rename_i hadjacent
      have hmeet : r.hi = next.lo := by
        rcases adjacent_ne hadjacent with h | h <;> omega
      have hhi : (⟨r.base,r.size + next.size⟩ : Region).hi = next.hi := by
        unfold Region.hi at hmeet hnextin hnowrap ⊢
        unfold Region.lo at hmeet hnowrap
        dsimp only
        rw [UInt64.toNat_add]
        omega
      have hwhole : Stays ⟨r.base,r.size + next.size⟩ := by
        rw [Stays,hhi]
        exact ⟨Nat.lt_trans hrpos (Nat.lt_of_le_of_lt htouch hnextpos),hnextin⟩
      refine ⟨show (1 : Int) ≤ 2 by decide,⟨table_split.mpr ⟨hrest',hwhole,hpre,?_⟩,?_,?_⟩⟩
      · rw [hhi]
        exact hafter
      · intro x
        have hlo : (⟨r.base,r.size + next.size⟩ : Region).lo = r.lo := rfl
        exact coalesced_covers hlo hhi hmeet (Nat.le_of_lt hrpos) (Nat.le_of_lt hnextpos) x
      · simp [lmbCoalesceRegions]
    rename_i hadjacent
    have hapart : r.hi < next.lo := by
      have hne := (adjacent_zero (not_not.mp hadjacent)).1
      omega
    refine ⟨Int.le_refl 1,⟨table_split.mpr ⟨hrest,⟨hrpos,hrin⟩,hpre,?_⟩,
      fun x => Iff.rfl,Nat.le_refl _⟩⟩
    refine forall_mem_cons.mpr ⟨by omega,fun q hq => ?_⟩
    have hlater := hafter q hq
    omega

end

section

variable {gap : Nat} {t pre post : List Region} {r s new : Region}

theorem insertFromEnd_split (new : Region) (rs : List Region) :
    ∃ post pre, rs = post ++ pre ∧ insertFromEnd new rs = post ++ new :: pre ∧
      (∀ q ∈ post, new.lo < q.lo) ∧ ∀ p, pre.head? = some p → p.lo ≤ new.lo := by
  induction rs with
  | nil => exact ⟨[],[],rfl,rfl,by simp,by simp⟩
  | cons r rs ih =>
    unfold insertFromEnd
    split
    · rename_i hlt
      obtain ⟨post,pre,rfl,hinsert,hpost,hpre⟩ := ih
      exact ⟨r :: post,pre,rfl,by rw [hinsert]; rfl,
        forall_mem_cons.mpr ⟨UInt64.lt_iff_toNat_lt.mp hlt,hpost⟩,hpre⟩
    rename_i hle
    refine ⟨[],r :: rs,rfl,rfl,by simp,?_⟩
    intro p hp
    cases hp
    exact UInt64.le_iff_toNat_le.mp (UInt64.not_lt.mp hle)

theorem insertRegion_split (new : Region) (t : List Region) :
    ∃ pre post, t = pre ++ post ∧ insertRegion new t = pre ++ new :: post ∧
      (∀ q ∈ post, new.lo < q.lo) ∧ ∀ p, pre.getLast? = some p → p.lo ≤ new.lo := by
  obtain ⟨post,pre,hsplit,hinsert,hpost,hpre⟩ := insertFromEnd_split new t.reverse
  refine ⟨pre.reverse,post.reverse,?_,?_,?_,?_⟩
  · rw [← reverse_append,← hsplit,reverse_reverse]
  · rw [insertRegion,hinsert]
    simp
  · exact fun q hq => hpost q (mem_reverse.mp hq)
  · rwa [getLast?_reverse]

theorem before_last (h : Apart gap Region.lo Region.hi (pre ++ post)) {p : Region} (hp : p ∈ pre) :
    ∃ last, pre.getLast? = some last ∧ p.lo ≤ last.lo := by
  obtain ⟨init,last,rfl⟩ := eq_nil_or_concat pre |>.resolve_left (ne_nil_of_mem hp)
  refine ⟨last,by simp,?_⟩
  rw [concat_eq_append,append_assoc] at h
  rw [concat_eq_append] at hp
  rcases mem_append.mp hp with hinit | hlast
  · have hbefore := apart_before h hinit
    have hpos := h.1 p (by simp [hinit])
    omega
  · exact Nat.le_of_eq (congrArg Region.lo (mem_singleton.mp hlast))

theorem insertRegion_table (hgap : gap ≤ 1) (ht : Table gap t) (hnew : Stays new)
    (hpassed : ∀ r ∈ t, Passed new r) : Table gap (insertRegion new t) ∧
      (∀ x, Covers Region.lo Region.hi (insertRegion new t) x ↔
        Covers Region.lo Region.hi t x ∨ new.lo ≤ x ∧ x < new.hi) ∧
      (insertRegion new t).length = t.length + 1 := by
  obtain ⟨pre,post,rfl,hinsert,hpost,hpre⟩ := insertRegion_split new t
  obtain ⟨hpos,hin⟩ := hnew
  have hapart (r : Region) (hr : r ∈ pre ++ post) : r.hi < new.lo ∨ new.hi < r.lo :=
    passed_apart ⟨hpos,hin⟩ (table_stays ht hr) (hpassed r hr)
  have hpositive := ht.apart.1
  rw [hinsert]
  refine ⟨table_split.mpr ⟨ht,⟨hpos,hin⟩,?_,?_⟩,?_,by simp; omega⟩
  · intro p hp
    obtain ⟨last,hlast,hle⟩ := before_last ht.apart hp
    have hbound := hpre last hlast
    have hside := hapart p (by simp [hp])
    omega
  · intro q hq
    have hbound := hpost q hq
    have hside := hapart q (by simp [hq])
    have hq' := hpositive q (by simp [hq])
    omega
  · intro x
    rw [covers_split]
    tauto

end

structure Extended (gap : Nat) (t t' : List Region) (new : Region) : Prop where
  table : Table gap t'
  covers : ∀ x, Covers Region.lo Region.hi t' x ↔
    Covers Region.lo Region.hi t x ∨ new.lo ≤ x ∧ x < new.hi
  length : t'.length ≤ max t.length maxLmbRegions

section

variable {gap : Nat} {t pre post : List Region} {r new : Region} {mid : List Region}

theorem extended_of_joined {grown : Region} {t' : List Region}
    (hjoin : Joined gap (pre ++ grown :: post) t')
    (hgrown : ∀ x, (grown.lo ≤ x ∧ x < grown.hi) ↔ (r.lo ≤ x ∧ x < r.hi) ∨ new.lo ≤ x ∧ x < new.hi) :
    Extended gap (pre ++ r :: post) t' new := by
  refine ⟨hjoin.table,?_,?_⟩
  · intro x
    rw [hjoin.covers,covers_split,covers_split,hgrown]
    tauto
  · have hlen := hjoin.length
    simp only [length_append,length_cons] at hlen ⊢
    omega

theorem meets_after (ht : Table gap t) (hr : r ∈ t) (hwrap : ¬WrapsAround t new)
    (hadjacent : lmbAddrsAdjacent new.base new.size r.base r.size < 0) : new.lo = r.hi := by
  have hmod := adjacent_neg hadjacent
  have hin := ht.inside r hr
  by_contra hne
  exact hwrap (.inr (.inl ⟨by omega,r,hr,by omega⟩))

theorem only_two (ht : Table gap (mid ++ r :: post)) {q : Region} (hq : post.head? = some q)
    (hzero : r.lo = 0) (htop : q.hi = 2 ^ 64) : mid ++ r :: post = [r,q] := by
  obtain ⟨later,rfl⟩ := head?_eq_some_iff.mp hq
  obtain ⟨hrest,-,hbefore,-⟩ := table_split.mp ht
  obtain ⟨-,-,-,hafter⟩ := table_split.mp hrest
  have hmid : mid = [] := by
    apply eq_nil_iff_forall_not_mem.mpr
    intro p hp
    have hle := hbefore p hp
    have hpos := (table_stays ht (show p ∈ mid ++ r :: q :: later by simp [hp])).1
    omega
  have hlater : later = [] := by
    apply eq_nil_iff_forall_not_mem.mpr
    intro p hp
    have hle := hafter p hp
    have hlt : p.lo < 2 ^ 64 := p.base.toNat_lt
    omega
  rw [hmid,hlater]
  rfl

theorem lmbAddRegion_scan (ht : t ≠ []) : lmbAddRegion t new.base new.size =
    match scanRegions new.base new.size [] t with
    | .present => (0,t)
    | .before pre r post => joinNext pre ⟨r.base - new.size,r.size + new.size⟩ post
    | .after pre r post => joinNext pre ⟨r.base,r.size + new.size⟩ post
    | .overlaps => (-1,t)
    | .clear =>
      if maxLmbRegions ≤ t.length then (-1,t) else (0,insertRegion new t) := by
  exact if_neg (by simpa using ht)

theorem lmbAddRegion_nil : lmbAddRegion [] new.base new.size = (0,[new]) := rfl

section

variable (hnew : Stays new)
include hnew

theorem passed_clear (ht : Table gap t) (h : ∀ r ∈ t, Passed new r) :
    Clear Region.lo Region.hi t new.lo new.hi := by
  intro r hr
  exact (passed_apart hnew (table_stays ht hr) (h r hr)).imp Nat.le_of_lt Nat.le_of_lt

theorem meets_before (hr : r ∈ t) (hwrap : ¬WrapsAround t new)
    (hadjacent : 0 < lmbAddrsAdjacent new.base new.size r.base r.size) : r.lo = new.hi := by
  have hmod := adjacent_pos.mp hadjacent
  have hin := hnew.2
  by_contra hne
  exact hwrap (.inl ⟨by omega,r,hr,by omega⟩)

theorem grown_before (hgap : gap ≤ 1) (ht : Table gap (mid ++ r :: post))
    (hmid : ∀ p ∈ mid, Passed new p) (hwrap : ¬WrapsAround (mid ++ r :: post) new)
    (hadjacent : 0 < lmbAddrsAdjacent new.base new.size r.base r.size) :
    1 ≤ (joinNext mid ⟨r.base - new.size,r.size + new.size⟩ post).1 ∧
      Extended gap (mid ++ r :: post)
        (joinNext mid ⟨r.base - new.size,r.size + new.size⟩ post).2 new := by
  obtain ⟨hrest,hr,hbefore,hafter⟩ := table_split.mp ht
  have hmem : r ∈ mid ++ r :: post := by simp
  have hmeet := meets_before hnew hmem hwrap hadjacent
  have hfull : ¬(new.lo = 0 ∧ r.hi = 2 ^ 64) := fun h => hwrap (.inr (.inl ⟨h.1,r,hmem,h.2⟩))
  have hlo : (⟨r.base - new.size,r.size + new.size⟩ : Region).lo = new.lo := by
    have hbase := new.base.toNat_lt
    have hsize := new.size.toNat_lt
    unfold Region.lo Region.hi at hmeet
    unfold Region.lo
    rw [UInt64.toNat_sub]
    omega
  have hhi : (⟨r.base - new.size,r.size + new.size⟩ : Region).hi = r.hi := by
    have hle := hr.2
    unfold Region.hi at hle hfull ⊢
    unfold Region.lo at hlo hfull
    unfold Region.lo Region.hi at hmeet
    rw [UInt64.toNat_add]
    omega
  have hpos := hr.1
  have hnewpos := hnew.1
  have hgrown : Stays ⟨r.base - new.size,r.size + new.size⟩ := by
    rw [Stays,hlo,hhi]
    exact ⟨by omega,hr.2⟩
  have hjoin := joinNext_spec hgap hrest hgrown (by
    intro p hp
    have hside := passed_apart hnew (table_stays ht (by simp [hp])) (hmid p hp)
    have hle := hbefore p hp
    have hp' := (table_stays ht (show p ∈ mid ++ r :: post by simp [hp])).1
    omega) (by
    intro q hq
    have hle := hafter q hq
    omega) (by
    rintro q hq ⟨hzero,htop⟩
    rw [hlo] at hzero
    have hqmem := mem_of_mem_head? hq
    exact hwrap (.inr (.inl ⟨hzero,q,by simp [hqmem],htop⟩)))
  refine ⟨hjoin.1,extended_of_joined hjoin.2 ?_⟩
  intro x
  omega

theorem grown_after (hgap : gap ≤ 1) (ht : Table gap (mid ++ r :: post))
    (hclear : Clear Region.lo Region.hi (mid ++ r :: post) new.lo new.hi)
    (hwrap : ¬WrapsAround (mid ++ r :: post) new)
    (hadjacent : lmbAddrsAdjacent new.base new.size r.base r.size < 0) :
    1 ≤ (joinNext mid ⟨r.base,r.size + new.size⟩ post).1 ∧
      Extended gap (mid ++ r :: post) (joinNext mid ⟨r.base,r.size + new.size⟩ post).2 new := by
  obtain ⟨hrest,hr,hbefore,hafter⟩ := table_split.mp ht
  have hmem : r ∈ mid ++ r :: post := by simp
  have hmeet := meets_after ht hmem hwrap hadjacent
  have hfull : ¬(r.lo = 0 ∧ new.hi = 2 ^ 64) := fun h => hwrap (.inl ⟨h.2,r,hmem,h.1⟩)
  have hhi : (⟨r.base,r.size + new.size⟩ : Region).hi = new.hi := by
    have hle := hnew.2
    unfold Region.hi at hle hfull ⊢
    unfold Region.lo at hfull
    unfold Region.lo Region.hi at hmeet
    dsimp only
    rw [UInt64.toNat_add]
    omega
  have hpos := hr.1
  have hnewpos := hnew.1
  have hlater (q : Region) (hq : q ∈ post) : new.hi ≤ q.lo := by
    have hle := hafter q hq
    have hq' := (table_stays ht (show q ∈ mid ++ r :: post by simp [hq])).1
    rcases hclear q (by simp [hq]) with h | h
    · omega
    · exact h
  have hgrown : Stays ⟨r.base,r.size + new.size⟩ := by
    rw [Stays,hhi]
    exact ⟨show r.lo < new.hi by omega,hnew.2⟩
  have hjoin := joinNext_spec hgap hrest hgrown hbefore (by
    intro q hq
    rw [hhi]
    exact hlater q hq) (by
    rintro q hq ⟨hzero,htop⟩
    exact hwrap (.inr (.inr ⟨r,q,only_two ht hq hzero htop,hzero,htop,hmeet⟩)))
  refine ⟨hjoin.1,extended_of_joined hjoin.2 ?_⟩
  intro x
  rw [hhi]
  show (r.lo ≤ x ∧ x < new.hi) ↔ _
  omega

theorem clear_not_overlap (ht : Table gap t) (hr : r ∈ t)
    (hclear : Clear Region.lo Region.hi t new.lo new.hi) :
    lmbAddrsOverlap new.base new.size r.base r.size ≠ true := by
  intro hoverlap
  have hboth := (overlap_iff hnew (table_stays ht hr)).mp hoverlap
  rcases hclear r hr with h | h <;> omega

theorem lmbAddRegion_clear (hgap : gap ≤ 1) (ht : Table gap t)
    (hclear : Clear Region.lo Region.hi t new.lo new.hi) (hwrap : ¬WrapsAround t new) :
    (0 ≤ (lmbAddRegion t new.base new.size).1 ∧
      Extended gap t (lmbAddRegion t new.base new.size).2 new ∧
      (Touches t new ∨ t.length < maxLmbRegions)) ∨
    (lmbAddRegion t new.base new.size = (-1,t) ∧ maxLmbRegions ≤ t.length ∧
      ∀ r ∈ t, Passed new r) := by
  by_cases hne : t = []
  · subst hne
    have htable : Table gap ([] ++ new :: []) :=
      table_split.mpr ⟨ht,hnew,by simp,by simp⟩
    refine .inl ⟨Int.le_refl 0,⟨htable,?_,by simp [lmbAddRegion_nil,maxLmbRegions]⟩,
      .inr (by decide)⟩
    intro x
    rw [lmbAddRegion_nil,covers_cons]
    tauto
  rw [lmbAddRegion_scan hne]
  rcases scanRegions_cases new [] t with ⟨hscan,hpassed⟩ | ⟨mid,r,post,rfl,hmid,hstop⟩
  · rw [hscan]
    dsimp only
    split
    · rename_i hfull
      exact .inr ⟨rfl,hfull,hpassed⟩
    · rename_i hroom
      obtain ⟨htable,hcovers,hlength⟩ := insertRegion_table hgap ht hnew hpassed
      exact .inl ⟨Int.le_refl 0,⟨htable,hcovers,by dsimp only; omega⟩,.inr (Nat.lt_of_not_le hroom)⟩
  rw [nil_append] at hstop
  refine .inl ?_
  have hmem : r ∈ mid ++ r :: post := by simp
  generalize hscan : scanRegions new.base new.size [] (mid ++ r :: post) = scan at hstop
  cases hstop with
  | present h =>
    have hpos := hnew.1
    rcases hclear r hmem with hle | hle <;> rw [h] at hle <;> omega
  | before h =>
    have hgrown := grown_before hnew hgap ht hmid hwrap h
    exact ⟨by dsimp only; omega,hgrown.2,.inl ⟨r,hmem,.inr (meets_before hnew hmem hwrap h).symm⟩⟩
  | after h =>
    have hgrown := grown_after hnew hgap ht hclear hwrap h
    exact ⟨by dsimp only; omega,hgrown.2,.inl ⟨r,hmem,.inl (meets_after ht hmem hwrap h).symm⟩⟩
  | overlaps h => exact absurd h (clear_not_overlap hnew ht hmem hclear)

theorem lmbAddRegion_overlapping (ht : Table gap t)
    (hoverlap : ¬Clear Region.lo Region.hi t new.lo new.hi) (hwrap : ¬WrapsAround t new)
    (hstart : ∀ r ∈ t, r.hi ≠ new.lo) : (lmbAddRegion t new.base new.size = (0,t) ∧ new ∈ t) ∨
      lmbAddRegion t new.base new.size = (-1,t) := by
  have hne : t ≠ [] := by
    rintro rfl
    exact hoverlap nofun
  rw [lmbAddRegion_scan hne]
  rcases scanRegions_cases new [] t with ⟨-,hpassed⟩ | ⟨mid,r,post,rfl,hmid,hstop⟩
  · exact absurd (passed_clear hnew ht hpassed) hoverlap
  have hmem : r ∈ mid ++ r :: post := by simp
  generalize hscan : scanRegions new.base new.size [] (mid ++ r :: post) = scan at hstop
  cases hstop with
  | present h => exact .inl ⟨rfl,by rwa [← h]⟩
  | overlaps h => exact .inr rfl
  | after h => exact absurd (meets_after ht hmem hwrap h).symm (hstart r hmem)
  | before h =>
    have hmeet := meets_before hnew hmem hwrap h
    obtain ⟨-,hr,-,hafter⟩ := table_split.mp ht
    have hpos := hr.1
    refine absurd (forall_mem_append.mpr ⟨fun s hs => ?_,forall_mem_cons.mpr
      ⟨.inr (Nat.le_of_eq hmeet.symm),fun s hs => .inr ?_⟩⟩) hoverlap
    · exact (passed_apart hnew (table_stays ht (by simp [hs])) (hmid s hs)).imp
        Nat.le_of_lt Nat.le_of_lt
    · have hle := hafter s hs
      omega

end

end

end FuzzingTargets.UBoot.MemoryBlocks
