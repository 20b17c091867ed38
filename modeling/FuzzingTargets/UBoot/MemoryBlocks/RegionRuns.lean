import FuzzingTargets.UBoot.MemoryBlocks.Allocation
import FuzzingTargets.Foundation.Runs

namespace FuzzingTargets.UBoot.MemoryBlocks
open Intervals Runs List

structure Sound (t : List Region) : Prop where
  count : t.length ≤ maxLmbRegions
  table : Table 1 t
  ends : ¬(Covers Region.lo Region.hi t 0 ∧ Covers Region.lo Region.hi t (2 ^ 64 - 1))

def Accepts (t : List Region) (new : Region) : Prop :=
  ¬WrapsAround t new ∧
    (Clear Region.lo Region.hi t new.lo new.hi ∨ ∀ r ∈ t, r.hi ≠ new.lo)

structure AddsExactly (t : List Region) (new : Region) : Prop where
  refused : (lmbAddRegion t new.base new.size).1 < 0 → (lmbAddRegion t new.base new.size).2 = t
  added : Clear Region.lo Region.hi t new.lo new.hi →
    Touches t new ∨ t.length < maxLmbRegions →
    0 ≤ (lmbAddRegion t new.base new.size).1 ∧
      ∀ x, Covers Region.lo Region.hi (lmbAddRegion t new.base new.size).2 x ↔
        Covers Region.lo Region.hi t x ∨ new.lo ≤ x ∧ x < new.hi
  never_partly : 0 ≤ (lmbAddRegion t new.base new.size).1 →
    Clear Region.lo Region.hi t new.lo new.hi ∨
      ∀ x, new.lo ≤ x → x < new.hi → Covers Region.lo Region.hi t x

section

variable {t t' pre post : List Region} {r new : Region}

theorem sound_nil : Sound [] := by
  refine ⟨Nat.zero_le _,⟨apart_nil,by simp⟩,?_⟩
  exact fun ⟨⟨_,hr,_⟩,_⟩ => absurd hr not_mem_nil

theorem sound_of_fewer (h : Sound t) (hcount : t'.length ≤ maxLmbRegions) (htable : Table 1 t')
    (hcovers : ∀ x, Covers Region.lo Region.hi t' x → Covers Region.lo Region.hi t x) : Sound t' :=
  ⟨hcount,htable,fun hends => h.ends ⟨hcovers _ hends.1,hcovers _ hends.2⟩⟩

theorem extended_ends (h : Sound t) (hnew : Stays new) (hwrap : ¬WrapsAround t new)
    (hext : Extended 1 t t' new) :
    ¬(Covers Region.lo Region.hi t' 0 ∧ Covers Region.lo Region.hi t' (2 ^ 64 - 1)) := by
  rintro ⟨hfirst,hlast⟩
  have hin := hnew.2
  rcases (hext.covers _).mp hfirst with hfirst | hfirst
  · rcases (hext.covers _).mp hlast with hlast | hlast
    · exact h.ends ⟨hfirst,hlast⟩
    · obtain ⟨r,hr,hle,-⟩ := hfirst
      exact hwrap (.inl ⟨by omega,r,hr,Nat.le_zero.mp hle⟩)
  rcases (hext.covers _).mp hlast with ⟨r,hr,-,hlt⟩ | hlast
  · have hrin := h.table.inside r hr
    exact hwrap (.inr (.inl ⟨by omega,r,hr,by omega⟩))
  · have hsize := new.size.toNat_lt
    unfold Region.lo Region.hi at *
    omega

theorem extended_sound (h : Sound t) (hnew : Stays new) (hwrap : ¬WrapsAround t new)
    (hext : Extended 1 t t' new) : Sound t' := by
  refine ⟨?_,hext.table,extended_ends h hnew hwrap hext⟩
  have hlength := hext.length
  have hcount := h.count
  omega

theorem lmbAddRegion_sound (h : Sound t) (hnew : Stays new) (hacc : Accepts t new) :
    Sound (lmbAddRegion t new.base new.size).2 := by
  by_cases hclear : Clear Region.lo Region.hi t new.lo new.hi
  · rcases lmbAddRegion_clear hnew (Nat.le_refl 1) h.table hclear hacc.1 with
      ⟨-,hext,-⟩ | ⟨hneg,-⟩
    · exact extended_sound h hnew hacc.1 hext
    · rw [hneg]
      exact h
  rcases lmbAddRegion_overlapping hnew h.table hclear hacc.1 (hacc.2.resolve_left hclear) with
    ⟨hsame,-⟩ | hsame
  all_goals
    rw [hsame]
    exact h

theorem passed_not_touches {gap : Nat} (ht : Table gap t) (hnew : Stays new) (hpassed : ∀ r ∈ t, Passed new r) :
    ¬Touches t new := by
  rintro ⟨r,hr,htouch⟩
  have hapart := passed_apart hnew (table_stays ht hr) (hpassed r hr)
  have hpos := (table_stays ht hr).1
  have hnewpos := hnew.1
  omega

theorem lmbAddRegion_exact (h : Sound t) (hnew : Stays new) (hacc : Accepts t new) :
    AddsExactly t new := by
  refine ⟨fun hneg => by rw [lmbAddRegion_negative hneg],?_,?_⟩
  · intro hclear hroom
    rcases lmbAddRegion_clear hnew (Nat.le_refl 1) h.table hclear hacc.1 with
      ⟨hret,hext,-⟩ | ⟨-,hfull,hpassed⟩
    · exact ⟨hret,hext.covers⟩
    · rcases hroom with htouch | hlt
      · exact absurd htouch (passed_not_touches h.table hnew hpassed)
      · omega
  intro hret
  by_cases hclear : Clear Region.lo Region.hi t new.lo new.hi
  · exact .inl hclear
  rcases lmbAddRegion_overlapping hnew h.table hclear hacc.1 (hacc.2.resolve_left hclear) with
    ⟨-,hmem⟩ | hneg
  · exact .inr fun x hlo hhi => ⟨new,hmem,hlo,hhi⟩
  · rw [hneg] at hret
    exact absurd hret (show ¬(0 : Int) ≤ -1 by decide)

end

structure Removed (gap : Nat) (t t' : List Region) (gone : Region) : Prop where
  table : Table gap t'
  covers : ∀ x, Covers Region.lo Region.hi t' x ↔
    Covers Region.lo Region.hi t x ∧ ¬(gone.lo ≤ x ∧ x < gone.hi)
  length : t'.length ≤ max t.length maxLmbRegions

def Holds (gone r : Region) : Prop := r.lo ≤ gone.lo ∧ gone.hi ≤ r.hi

def Splits (gone r : Region) : Prop := r.lo < gone.lo ∧ gone.hi < r.hi

def Keeps (gone r s : Region) : Prop :=
  r.lo = gone.lo ∧ s.lo = gone.hi ∧ s.hi = r.hi ∨ s.lo = r.lo ∧ s.hi = gone.lo ∧ r.hi = gone.hi

inductive Freed (gone r : Region) (pre post : List Region) : Int × List Region → Prop where
  | whole (hlo : r.lo = gone.lo) (hhi : r.hi = gone.hi) : Freed gone r pre post (0,pre ++ post)
  | part (s : Region) (hpos : s.lo < s.hi) (hkeeps : Keeps gone r s) :
      Freed gone r pre post (0,pre ++ s :: post)
  | middle (low high : Region) (hsplits : Splits gone r) (hlow : low.lo = r.lo ∧ low.hi = gone.lo)
      (hhigh : high.lo = gone.hi ∧ high.hi = r.hi) :
      Freed gone r pre post (lmbAddRegion (pre ++ low :: post) high.base high.size)

section

variable {gap : Nat} {t pre post : List Region} {r s gone : Region} {base last : UInt64}

theorem findHolding_none
    (h : ∀ r ∈ t, ¬(r.base ≤ base ∧ last ≤ r.base + r.size - 1)) : findHolding base last pre t = none := by
  induction t generalizing pre with
  | nil => rfl
  | cons r t ih =>
    rw [findHolding,if_neg (h r mem_cons_self),ih fun s hs => h s (mem_cons_of_mem r hs)]

theorem findHolding_after {pre' : List Region}
    (hpre : ∀ r ∈ pre, ¬(r.base ≤ base ∧ last ≤ r.base + r.size - 1))
    (hr : r.base ≤ base ∧ last ≤ r.base + r.size - 1) :
    findHolding base last pre' (pre ++ r :: post) = some (pre' ++ pre,r,post) := by
  induction pre generalizing pre' with
  | nil => rw [nil_append,findHolding,if_pos hr,append_nil]
  | cons p pre ih =>
    rw [cons_append,findHolding,if_neg (hpre p mem_cons_self),
      ih fun s hs => hpre s (mem_cons_of_mem p hs),append_assoc]
    rfl

theorem holds_iff (hr : Stays r) (hgone : Stays gone) :
    (r.base ≤ gone.base ∧ gone.base + gone.size - 1 ≤ r.base + r.size - 1) ↔ Holds gone r := by
  obtain ⟨hrsize,hrin⟩ := stays_iff.mp hr
  obtain ⟨hsize,hin⟩ := stays_iff.mp hgone
  rw [UInt64.le_iff_toNat_le,UInt64.le_iff_toNat_le,last_toNat hsize hin,last_toNat hrsize hrin]
  unfold Holds Region.lo Region.hi
  omega

theorem freeRegion_outside (ht : Table gap t) (hgone : Stays gone) (h : ∀ r ∈ t, ¬Holds gone r) :
    freeRegion t gone.base gone.size = (-1,t) := by
  unfold freeRegion
  rw [findHolding_none fun r hr hin => h r hr ((holds_iff (table_stays ht hr) hgone).mp hin)]

theorem freeWithin_freed (hr : Stays r) (hgone : Stays gone) (hin : Holds gone r) :
    Freed gone r pre post
      (freeWithin gone.base gone.size (gone.base + gone.size - 1) pre r post) := by
  obtain ⟨hrsize,hrin⟩ := stays_iff.mp hr
  obtain ⟨hsize,hgin⟩ := stays_iff.mp hgone
  have hrlast := last_toNat hrsize hrin
  have hlast := last_toNat hsize hgin
  unfold Holds Region.lo Region.hi at hin
  have hbase : r.base = gone.base ↔ r.base.toNat = gone.base.toNat := UInt64.toNat_inj.symm
  have hend : r.base + r.size - 1 = gone.base + gone.size - 1 ↔
      r.base.toNat + r.size.toNat = gone.base.toNat + gone.size.toNat := by
    rw [← UInt64.toNat_inj,hrlast,hlast]
    omega
  have hleft (h : r.base.toNat = gone.base.toNat ∨
      r.base.toNat + r.size.toNat = gone.base.toNat + gone.size.toNat) :
      (r.size - gone.size).toNat = r.size.toNat - gone.size.toNat :=
    UInt64.toNat_sub_of_le _ _ (UInt64.le_iff_toNat_le.mpr (by omega))
  have hnext (h : r.base.toNat + r.size.toNat ≠ gone.base.toNat + gone.size.toNat) :
      (gone.base + gone.size - 1 + 1).toNat = gone.base.toNat + gone.size.toNat := by
    rw [UInt64.toNat_add,hlast,UInt64.toNat_one]
    omega
  unfold freeWithin
  simp only [hbase,hend]
  split
  · rename_i h
    exact .whole h.1 h.2
  split
  · rename_i hwhole hfront
    have hother := fun h => hwhole ⟨hfront,h⟩
    have hstart := hnext hother
    have hlength := hleft (.inl hfront)
    refine .part ⟨gone.base + gone.size - 1 + 1,r.size - gone.size⟩ ?_ (.inl ⟨hfront,hstart,?_⟩)
    all_goals
      unfold Region.hi
      dsimp only [Region.lo]
      omega
  split
  · rename_i hfront htail
    refine .part ⟨r.base,r.size - gone.size⟩ ?_ (.inr ⟨rfl,?_,htail⟩)
    all_goals
      unfold Region.lo Region.hi
      dsimp only
      omega
  rename_i hfront htail
  have hstart := hnext htail
  have hlow : (gone.base - r.base).toNat = gone.base.toNat - r.base.toNat :=
    UInt64.toNat_sub_of_le _ _ (UInt64.le_iff_toNat_le.mpr hin.1)
  have hrest : (r.base + r.size - 1 - (gone.base + gone.size - 1)).toNat =
      r.base.toNat + r.size.toNat - (gone.base.toNat + gone.size.toNat) := by
    rw [UInt64.toNat_sub_of_le _ _ (UInt64.le_iff_toNat_le.mpr (by omega)),hlast,hrlast]
    omega
  have hsplits : Splits gone r := by
    unfold Splits Region.lo Region.hi
    omega
  refine .middle ⟨r.base,gone.base - r.base⟩
    ⟨gone.base + gone.size - 1 + 1,r.base + r.size - 1 - (gone.base + gone.size - 1)⟩ hsplits
    ⟨rfl,?_⟩ ⟨hstart,?_⟩
  all_goals
    unfold Region.hi
    dsimp only [Region.lo]
    omega

section

variable (ht : Table gap (pre ++ r :: post))
include ht

theorem freeRegion_freed (hgone : Stays gone) (hin : Holds gone r) :
    Freed gone r pre post (freeRegion (pre ++ r :: post) gone.base gone.size) := by
  obtain ⟨-,hr,hbefore,-⟩ := table_split.mp ht
  unfold freeRegion
  rw [findHolding_after _ ((holds_iff hr hgone).mpr hin)]
  · exact freeWithin_freed hr hgone hin
  intro p hp hpin
  have hple := hbefore p hp
  have hpend := ((holds_iff (table_stays ht (mem_append_left _ hp)) hgone).mp hpin).2
  have hpos := hgone.1
  have hlo := hin.1
  omega

theorem others_outside {x : Nat}
    (h : Covers Region.lo Region.hi (pre ++ post) x) : x < r.lo ∨ r.hi ≤ x := by
  obtain ⟨-,-,hbefore,hafter⟩ := table_split.mp ht
  obtain ⟨s,hs,hlo,hhi⟩ := h
  rcases mem_append.mp hs with hs | hs
  · have hle := hbefore s hs
    omega
  · have hle := hafter s hs
    omega

theorem table_shrink (hlo : r.lo ≤ s.lo) (hpos : s.lo < s.hi)
    (hhi : s.hi ≤ r.hi) : Table gap (pre ++ s :: post) := by
  obtain ⟨hrest,hr,hbefore,hafter⟩ := table_split.mp ht
  refine table_split.mpr ⟨hrest,⟨hpos,Nat.le_trans hhi hr.2⟩,?_,?_⟩
  · exact fun p hp => Nat.le_trans (hbefore p hp) hlo
  · intro q hq
    have hle := hafter q hq
    omega

theorem whole_removed (hlo : r.lo = gone.lo)
    (hhi : r.hi = gone.hi) : Removed gap (pre ++ r :: post) (pre ++ post) gone := by
  obtain ⟨hrest,-⟩ := table_split.mp ht
  refine ⟨hrest,fun x => ?_,?_⟩
  · rw [covers_split]
    have hout := @others_outside gap pre post r ht x
    constructor
    · intro h
      have hx := hout h
      exact ⟨.inr h,by omega⟩
    · rintro ⟨h | h,hnot⟩
      · omega
      · exact h
  · simp only [length_append,length_cons]
    omega

theorem part_removed (hgone : Stays gone) (hpos : s.lo < s.hi)
    (hkeeps : Keeps gone r s) : Removed gap (pre ++ r :: post) (pre ++ s :: post) gone := by
  have hgpos := hgone.1
  unfold Keeps at hkeeps
  refine ⟨table_shrink ht (by omega) hpos (by omega),fun x => ?_,?_⟩
  · rw [covers_split,covers_split]
    have hout := @others_outside gap pre post r ht x
    constructor
    · rintro (h | h)
      · exact ⟨.inl (by omega),by omega⟩
      · have hx := hout h
        exact ⟨.inr h,by omega⟩
    · rintro ⟨h | h,hnot⟩
      · exact .inl (by omega)
      · exact .inr h
  · simp only [length_append,length_cons]
    omega

end

section

variable {low high : Region} (ht : Table gap (pre ++ r :: post)) (hgone : Stays gone)
  (hsplits : Splits gone r) (hlow : low.lo = r.lo ∧ low.hi = gone.lo)
  (hhigh : high.lo = gone.hi ∧ high.hi = r.hi)
include ht hgone hsplits hlow hhigh

theorem middle_table : Table gap (pre ++ low :: post) ∧ Stays high := by
  have hgpos := hgone.1
  obtain ⟨-,hr,-⟩ := table_split.mp ht
  obtain ⟨hfront,hback⟩ := hsplits
  exact ⟨table_shrink ht (by omega) (by omega) (by omega),⟨by omega,Nat.le_trans (by omega) hr.2⟩⟩

theorem middle_clear : Clear Region.lo Region.hi (pre ++ low :: post) high.lo high.hi := by
  have hgpos := hgone.1
  obtain ⟨-,-,hbefore,hafter⟩ := table_split.mp ht
  obtain ⟨hfront,hback⟩ := hsplits
  refine forall_mem_append.mpr ⟨fun p hp => .inl ?_,forall_mem_cons.mpr ⟨.inl (by omega),
    fun q hq => .inr ?_⟩⟩
  · have hle := hbefore p hp
    omega
  · have hle := hafter q hq
    omega

theorem middle_wraps (hwrap : ¬(r.hi = 2 ^ 64 ∧ ∃ s ∈ pre ++ r :: post, s.lo = 0)) :
    ¬WrapsAround (pre ++ low :: post) high := by
  have hgpos := hgone.1
  obtain ⟨-,hr,-⟩ := table_split.mp ht
  have hin := hr.2
  obtain ⟨hfront,hback⟩ := hsplits
  rintro (⟨htop,s,hs,hzero⟩ | ⟨hzero,-⟩ | ⟨a,b,hlist,hzero,htop,hmeets⟩)
  · refine hwrap ⟨by omega,?_⟩
    rw [mem_append,mem_cons] at hs
    rcases hs with hs | rfl | hs
    · exact ⟨s,mem_append_left _ hs,hzero⟩
    · exact ⟨r,by simp,by omega⟩
    · exact ⟨s,by simp [hs],hzero⟩
  · omega
  · have hmem : low ∈ [a,b] := hlist ▸ by simp
    rcases mem_pair.mp hmem with rfl | rfl <;> omega

theorem middle_removed (hgap : gap ≤ 1)
    (hwrap : ¬(r.hi = 2 ^ 64 ∧ ∃ s ∈ pre ++ r :: post, s.lo = 0)) :
    (0 ≤ (lmbAddRegion (pre ++ low :: post) high.base high.size).1 ∧
      Removed gap (pre ++ r :: post) (lmbAddRegion (pre ++ low :: post) high.base high.size).2 gone ∧
      (Touches (pre ++ low :: post) high ∨ (pre ++ low :: post).length < maxLmbRegions)) ∨
    lmbAddRegion (pre ++ low :: post) high.base high.size = (-1,pre ++ low :: post) ∧
      maxLmbRegions ≤ (pre ++ low :: post).length ∧ ∀ s ∈ pre ++ low :: post, Passed high s := by
  obtain ⟨htable,hstays⟩ := middle_table ht hgone hsplits hlow hhigh
  refine (lmbAddRegion_clear hstays hgap htable (middle_clear ht hgone hsplits hlow hhigh)
    (middle_wraps ht hgone hsplits hlow hhigh hwrap)).imp_left ?_
  rintro ⟨hret,hext,hroom⟩
  refine ⟨hret,⟨hext.table,fun x => ?_,?_⟩,hroom⟩
  · rw [hext.covers,covers_split,covers_split]
    have hgpos := hgone.1
    obtain ⟨hfront,hback⟩ := hsplits
    have hout := @others_outside gap pre post r ht x
    constructor
    · rintro ((h | h) | h)
      · exact ⟨.inl (by omega),by omega⟩
      · have hx := hout h
        exact ⟨.inr h,by omega⟩
      · exact ⟨.inl (by omega),by omega⟩
    rintro ⟨h | h,hnot⟩
    · by_cases hx : x < gone.lo
      · exact .inl (.inl (by omega))
      · exact .inr (by omega)
    · exact .inl (.inr h)
  · have hlength := hext.length
    simp only [length_append,length_cons] at hlength ⊢
    exact hlength

end

theorem sound_removed {t' : List Region} (h : Sound t) (hremoved : Removed 1 t t' gone) : Sound t' :=
  sound_of_fewer h (Nat.le_trans hremoved.length (Nat.max_le.mpr ⟨h.count,Nat.le_refl _⟩))
    hremoved.table fun x hx => ((hremoved.covers x).mp hx).1

theorem freeRegion_sound (hsound : Sound t) (hgone : Stays gone) :
    Sound (freeRegion t gone.base gone.size).2 := by
  by_cases hin : ∃ r ∈ t, Holds gone r
  · obtain ⟨r,hr,hin⟩ := hin
    obtain ⟨pre,post,rfl⟩ := append_of_mem hr
    have hstays := table_stays hsound.table hr
    have hfreed := freeRegion_freed hsound.table hgone hin
    generalize freeRegion (pre ++ r :: post) gone.base gone.size = result at hfreed ⊢
    cases hfreed with
    | whole hlo hhi => exact sound_removed hsound (whole_removed hsound.table hlo hhi)
    | part s hpos hkeeps => exact sound_removed hsound (part_removed hsound.table hgone hpos hkeeps)
    | middle low high hsplits hlow hhigh =>
      have hwrap : ¬(r.hi = 2 ^ 64 ∧ ∃ s ∈ pre ++ r :: post, s.lo = 0) := by
        rintro ⟨htop,s,hs,hzero⟩
        have hspos := (table_stays hsound.table hs).1
        have hrpos := hstays.1
        exact hsound.ends ⟨⟨s,hs,by omega,by omega⟩,⟨r,hr,by omega,by omega⟩⟩
      rcases middle_removed hsound.table hgone hsplits hlow hhigh (Nat.le_refl 1) hwrap with
        ⟨-,hremoved,-⟩ | ⟨hneg,-⟩
      · exact sound_removed hsound hremoved
      obtain ⟨htable,-⟩ := middle_table hsound.table hgone hsplits hlow hhigh
      have hcount := hsound.count
      have hgpos := hgone.1
      obtain ⟨hfront,hback⟩ := hsplits
      rw [hneg]
      refine sound_of_fewer hsound (by simpa using hcount) htable fun x hx => ?_
      rw [covers_split] at hx ⊢
      exact hx.imp_left fun h => by omega
  · rw [freeRegion_outside hsound.table hgone fun r hr h => hin ⟨r,hr,h⟩]
    exact hsound

end

inductive Op where
  | add (base size : UInt64)
  | reserve (base size : UInt64)
  | free (base size : UInt64)
  | allocBase (size align maxAddr : UInt64)
  | allocAddr (base size : UInt64)
  deriving DecidableEq

def Op.run (lmb : Lmb) : Op → Option Lmb
  | .add base size => some (lmbAdd lmb base size).2
  | .reserve base size => some (lmbReserve lmb base size).2
  | .free base size => some (lmbFree lmb base size).2
  | .allocBase size align maxAddr => (lmbAllocBase lmb size align maxAddr).map Prod.snd
  | .allocAddr base size => some (lmbAllocAddr lmb base size).2

def Op.Valid : Op → Prop
  | .add base size => Stays ⟨base,size⟩
  | .reserve base size => Stays ⟨base,size⟩
  | .free base size => Stays ⟨base,size⟩
  | .allocBase size _ _ => 0 < size
  | .allocAddr base size => Stays ⟨base,size⟩

def Called (lmb : Lmb) (op : Op) (lmb' : Lmb) : Prop := op.Valid ∧ op.run lmb = some lmb'

def NeverWraps (lmb : Lmb) (size : UInt64) : Prop :=
  ∀ b : UInt64, b ≠ 0 → (∃ r ∈ lmb.memory, r.lo ≤ b.toNat ∧ b.toNat + size.toNat ≤ r.hi) →
    Free lmb.reserved b.toNat size.toNat → ¬WrapsAround lmb.reserved ⟨b,size⟩

def KeepsApart (lmb : Lmb) : Op → Prop
  | .add base size => Accepts lmb.memory ⟨base,size⟩
  | .reserve base size => Accepts lmb.reserved ⟨base,size⟩
  | .free _ _ => True
  | .allocBase size _ maxAddr => (maxAddr = 0 ∨ size ≤ maxAddr) ∧ NeverWraps lmb size
  | .allocAddr base size => Accepts lmb.reserved ⟨base,size⟩

structure BothSound (lmb : Lmb) : Prop where
  memory : Sound lmb.memory
  reserved : Sound lmb.reserved

section

variable {lmb lmb' : Lmb} {base size align maxAddr : UInt64}

theorem sound_wellFormed {t : List Region} (h : Sound t) : WellFormed t :=
  ⟨h.count,⟨apart_of_le h.table.apart (Nat.zero_le 1),h.table.inside⟩⟩

theorem allocBase_sound (h : BothSound lmb) (hsize : 0 < size)
    (hfit : maxAddr = 0 ∨ size ≤ maxAddr) (hwraps : NeverWraps lmb size)
    (hrun : lmbAllocBase lmb size align maxAddr = some (base,lmb')) : BothSound lmb' := by
  have hpos : 0 < size.toNat := UInt64.lt_iff_toNat_lt.mp hsize
  obtain ⟨-,rfl⟩ | ⟨hne,hsearch,rfl⟩ := lmbAllocBase_cases hrun
  · exact h
  obtain ⟨r,hr,hfound⟩ := searchMemory_region hsearch
  obtain ⟨-,hlow,hend,-,hfree⟩ := searchRegion_found hpos hfit
    (fun r hr => table_stays h.reserved.table hr) (table_stays h.memory.table (mem_reverse.mp hr)) hfound
  have hhi := limit_hi r maxAddr
  have hin := h.memory.table.inside r (mem_reverse.mp hr)
  have hstays : Stays ⟨base,size⟩ := stays_iff.mpr ⟨hpos,by omega⟩
  have hwrap := hwraps base hne
    ⟨r,mem_reverse.mp hr,UInt64.le_iff_toNat_le.mp hlow,Nat.le_trans hend hhi⟩ hfree
  exact ⟨h.memory,lmbAddRegion_sound h.reserved hstays ⟨hwrap,.inl hfree⟩⟩

theorem allocAddr_sound (h : BothSound lmb) (hnew : Stays ⟨base,size⟩)
    (hacc : Accepts lmb.reserved ⟨base,size⟩) : BothSound (lmbAllocAddr lmb base size).2 := by
  unfold lmbAllocAddr
  split
  · exact h
  · split
    · exact ⟨h.memory,lmbAddRegion_sound h.reserved hnew hacc⟩
    · exact h

theorem called_sound (h : BothSound lmb) {op : Op} (hcall : Called lmb op lmb')
    (hkeeps : KeepsApart lmb op) : BothSound lmb' := by
  obtain ⟨hvalid,hrun⟩ := hcall
  cases op with
  | add base size =>
    cases hrun
    exact ⟨lmbAddRegion_sound h.memory hvalid hkeeps,h.reserved⟩
  | reserve base size =>
    cases hrun
    exact ⟨h.memory,lmbAddRegion_sound h.reserved hvalid hkeeps⟩
  | free base size =>
    cases hrun
    exact ⟨h.memory,freeRegion_sound h.reserved hvalid⟩
  | allocBase size align maxAddr =>
    obtain ⟨⟨base,lmb1⟩,halloc,rfl⟩ := Option.map_eq_some_iff.mp hrun
    exact allocBase_sound h hvalid hkeeps.1 hkeeps.2 halloc
  | allocAddr base size =>
    cases hrun
    exact allocAddr_sound h hvalid hkeeps

theorem called_returns (lmb : Lmb) {op : Op} (hvalid : op.Valid) : ∃ lmb', Called lmb op lmb' := by
  cases op with
  | add base size | reserve base size | free base size => exact ⟨_,hvalid,rfl⟩
  | allocBase size align maxAddr =>
    obtain ⟨base,lmb',hrun⟩ :=
      @allocBase_returns lmb size align maxAddr (UInt64.lt_iff_toNat_lt.mp hvalid)
    refine ⟨lmb',hvalid,?_⟩
    rw [Op.run,hrun]
    rfl
  | allocAddr base size => exact ⟨_,hvalid,rfl⟩

theorem runs_sound (h : Reach lmbInit (Guarded KeepsApart Called) lmb) : BothSound lmb := by
  refine reach_invariant ⟨sound_nil,sound_nil⟩ ?_ h
  rintro s op s' hs ⟨hkeeps,hcall⟩
  exact called_sound hs hcall hkeeps

end

theorem region_tables_sound {lmb : Lmb} (h : Reach lmbInit (Guarded KeepsApart Called) lmb) :
    WellFormed lmb.memory ∧ WellFormed lmb.reserved ∧
      (∀ new, Stays new → Accepts lmb.memory new → AddsExactly lmb.memory new) ∧
      (∀ new, Stays new → Accepts lmb.reserved new → AddsExactly lmb.reserved new) ∧
      ∀ op : Op, op.Valid → ∃ lmb', Called lmb op lmb' := by
  have hsound := runs_sound h
  exact ⟨sound_wellFormed hsound.memory,sound_wellFormed hsound.reserved,
    fun new => lmbAddRegion_exact hsound.memory,fun new => lmbAddRegion_exact hsound.reserved,
    fun op => called_returns lmb⟩

theorem accepts_nil (new : Region) : Accepts [] new := by
  refine ⟨?_,.inl nofun⟩
  simp [WrapsAround]

theorem reserve_called (lmb : Lmb) {base size : UInt64} (h : Stays ⟨base,size⟩) :
    Called lmb (.reserve base size) (lmbReserve lmb base size).2 := ⟨h,rfl⟩

theorem oneBank_reached : Reach lmbInit (Guarded KeepsApart Called) oneBank := by
  have hadd : Guarded KeepsApart Called lmbInit (.add 0x1000 0x100000) ⟨[⟨0x1000,0x100000⟩],[]⟩ :=
    ⟨accepts_nil _,stays_iff.mpr (by decide),rfl⟩
  have hreserve : Guarded KeepsApart Called ⟨[⟨0x1000,0x100000⟩],[]⟩ (.reserve 0x80000 0x1000)
      oneBank := ⟨accepts_nil _,reserve_called _ (stays_iff.mpr (by decide))⟩
  exact .next (.next .start hadd) hreserve

theorem oneBank_sound : WellFormed oneBank.memory ∧ WellFormed oneBank.reserved :=
  ⟨(region_tables_sound oneBank_reached).1,(region_tables_sound oneBank_reached).2.1⟩

def gapped : Lmb := ⟨[],[⟨0x1000,0x1000⟩,⟨0x3000,0x1000⟩]⟩

theorem gapped_reached : Reach lmbInit Called gapped := by
  have hfirst := reserve_called lmbInit (stays_iff.mpr (by decide : 0 < (0x1000 : UInt64).toNat ∧
    (0x1000 : UInt64).toNat + (0x1000 : UInt64).toNat ≤ 2 ^ 64))
  have hsecond := reserve_called (lmbReserve lmbInit 0x1000 0x1000).2 (stays_iff.mpr
    (by decide : 0 < (0x1000 : UInt64).toNat ∧
      (0x3000 : UInt64).toNat + (0x1000 : UInt64).toNat ≤ 2 ^ 64))
  exact .next (.next .start hfirst) hsecond

theorem gapped_overlap_accepted : Reach lmbInit Called gapped ∧ Stays ⟨0x2000,0x1800⟩ ∧
    lmbReserve gapped 0x2000 0x1800 = (1,⟨[],[⟨0x1000,0x2800⟩,⟨0x3000,0x1000⟩]⟩) ∧
    ¬WellFormed [⟨0x1000,0x2800⟩,⟨0x3000,0x1000⟩] ∧
    ¬AddsExactly gapped.reserved ⟨0x2000,0x1800⟩ := by
  refine ⟨gapped_reached,stays_iff.mpr (by decide),by decide +kernel,?_,?_⟩
  · intro h
    have hle := (pairwise_cons.mp h.table.apart.2).1 _ mem_cons_self
    exact absurd hle (by decide)
  intro h
  rcases h.never_partly (by decide +kernel) with hclear | hcovered
  · exact absurd (hclear ⟨0x3000,0x1000⟩ (by decide)) (by decide)
  obtain ⟨r,hr,hlo,hhi⟩ := hcovered 0x2000 (by decide) (by decide)
  rcases mem_pair.mp hr with rfl | rfl
  · exact absurd hhi (by decide)
  · exact absurd hlo (by decide)

end FuzzingTargets.UBoot.MemoryBlocks
