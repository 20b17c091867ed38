import FuzzingTargets.UBoot.MemoryBlocks.RegionRuns

namespace FuzzingTargets.UBoot.MemoryBlocks
open Intervals List

def Difference (t t' : List Region) (gone : Region) : Prop :=
  WellFormed t' ∧ ∀ x, Covers Region.lo Region.hi t' x ↔
    Covers Region.lo Region.hi t x ∧ ¬(gone.lo ≤ x ∧ x < gone.hi)

variable (lmb : Lmb)

structure FreesExactly (gone : Region) : Prop where
  returns : 0 ≤ (lmbFree lmb gone.base gone.size).1 ↔
    (∃ r ∈ lmb.reserved, Holds gone r) ∧ ∃ t', Difference lmb.reserved t' gone
  removed : 0 ≤ (lmbFree lmb gone.base gone.size).1 →
    Difference lmb.reserved (lmbFree lmb gone.base gone.size).2.reserved gone
  unchanged : (lmbFree lmb gone.base gone.size).1 < 0 → (lmbFree lmb gone.base gone.size).2 = lmb

def SplitsSafely (t : List Region) (gone : Region) : Prop :=
  ∀ r ∈ t, Splits gone r → (t.length < maxLmbRegions ∨ ∃ q ∈ t, q.lo = r.hi) ∧
    ¬(r.hi = 2 ^ 64 ∧ ∃ s ∈ t, s.lo = 0)

section

variable {lmb : Lmb} {t pre post : List Region} {r s low high gone : Region}

theorem table_unique {gap x : Nat} (ht : Table gap t) (hr : r ∈ t) (hs : s ∈ t)
    (hx : r.lo ≤ x ∧ x < r.hi) (hy : s.lo ≤ x ∧ x < s.hi) : s = r := by
  obtain ⟨pre,post,rfl⟩ := append_of_mem hr
  by_contra hne
  have hother : s ∈ pre ++ post := by simpa [hne] using hs
  have hout := others_outside ht ⟨s,hother,hy⟩
  omega

theorem freesExactly_of (hin : ∃ r ∈ lmb.reserved, Holds gone r)
    (hret : 0 ≤ (lmbFree lmb gone.base gone.size).1)
    (hdiff : Difference lmb.reserved (lmbFree lmb gone.base gone.size).2.reserved gone) :
    FreesExactly lmb gone :=
  ⟨⟨fun _ => ⟨hin,_,hdiff⟩,fun _ => hret⟩,fun _ => hdiff,
    fun hneg => absurd hret (Int.not_le.mpr hneg)⟩

theorem freesExactly_outside (ht : Table 0 lmb.reserved) (hgone : Stays gone)
    (hnone : ∀ r ∈ lmb.reserved, ¬Holds gone r) : FreesExactly lmb gone := by
  have hsame : lmbFree lmb gone.base gone.size = (-1,lmb) := by
    rw [lmbFree,freeRegion_outside ht hgone hnone]
  have hneg : ¬(0 : Int) ≤ -1 := by decide
  constructor
  · rw [hsame]
    exact iff_of_false hneg fun ⟨⟨r,hr,hheld⟩,_⟩ => hnone r hr hheld
  · rw [hsame]
    exact fun hret => absurd hret hneg
  · rw [hsame]
    exact fun _ => rfl

theorem removed_difference {t' : List Region} (h : WellFormed t) (hremoved : Removed 0 t t' gone) :
    Difference t t' gone :=
  ⟨⟨Nat.le_trans hremoved.length (Nat.max_le.mpr ⟨h.count,Nat.le_refl _⟩),hremoved.table⟩,
    hremoved.covers⟩

theorem splitsSafely_unsplit (ht : Table 0 (pre ++ r :: post)) (hgone : Stays gone)
    (hin : Holds gone r) (hnot : ¬Splits gone r) : SplitsSafely (pre ++ r :: post) gone := by
  intro s hs hsplits
  have hpos := hgone.1
  obtain ⟨hlo,hhi⟩ := hin
  obtain ⟨hfront,hback⟩ := hsplits
  have hsame := table_unique ht (by simp) hs
    (show r.lo ≤ gone.lo ∧ gone.lo < r.hi by omega) (by omega)
  exact absurd (hsame ▸ ⟨hfront,hback⟩) hnot

theorem middle_meets (ht : Table 0 (pre ++ r :: post)) (hhigh : high.hi = r.hi)
    (hmeets : ∃ q ∈ pre ++ r :: post, q.lo = r.hi) : Touches (pre ++ low :: post) high := by
  obtain ⟨q,hq,hlo⟩ := hmeets
  have hrpos := (table_stays ht (show r ∈ pre ++ r :: post by simp)).1
  rw [mem_append,mem_cons] at hq
  rcases hq with hq | rfl | hq
  · exact ⟨q,mem_append_left _ hq,.inr (by omega)⟩
  · omega
  · exact ⟨q,by simp [hq],.inr (by omega)⟩

section

variable (h : WellFormed (pre ++ r :: post)) (hgone : Stays gone) (hsplits : Splits gone r)
  (hlow : low.lo = r.lo ∧ low.hi = gone.lo) (hhigh : high.lo = gone.hi ∧ high.hi = r.hi)
include h hgone hsplits hlow hhigh

theorem middle_wrapped (htop : r.hi = 2 ^ 64) (hs : s ∈ pre ++ r :: post) (hzero : s.lo = 0) :
    0 ≤ (lmbAddRegion (pre ++ low :: post) high.base high.size).1 ∧ ¬Difference (pre ++ r :: post)
        (lmbAddRegion (pre ++ low :: post) high.base high.size).2 gone := by
  obtain ⟨htable,hstays⟩ := middle_table h.table hgone hsplits hlow hhigh
  have hgpos := hgone.1
  have hspos := (table_stays h.table hs).1
  have hfront := hsplits.1
  obtain ⟨q,hq,hqzero⟩ : ∃ q ∈ pre ++ low :: post, q.lo = 0 := by
    rw [mem_append,mem_cons] at hs
    rcases hs with hs | rfl | hs
    · exact ⟨s,mem_append_left _ hs,hzero⟩
    · exact ⟨low,by simp,by omega⟩
    · exact ⟨s,by simp [hs],hzero⟩
  obtain ⟨hret,-,hbroken⟩ := wraps_at_zero htable hstays (by omega) (by omega) hq hqzero
  refine ⟨by omega,fun hdiff => hbroken ((hdiff.2 0).mpr ⟨⟨s,hs,by omega,by omega⟩,?_⟩)⟩
  omega

theorem middle_touches (htouch : Touches (pre ++ low :: post) high) :
    ∃ q ∈ pre ++ r :: post, q.lo = r.hi := by
  have hgpos := hgone.1
  obtain ⟨-,-,hbefore,hafter⟩ := table_split.mp h.table
  obtain ⟨hfront,hback⟩ := hsplits
  obtain ⟨q,hq,hmeets⟩ := htouch
  rw [mem_append,mem_cons] at hq
  rcases hq with hq | rfl | hq
  · have hle := hbefore q hq
    have hpos := (table_stays h.table (mem_append_left _ hq)).1
    omega
  · omega
  have hmem : q ∈ pre ++ r :: post := by simp [hq]
  have hle := hafter q hq
  have hpos := (table_stays h.table hmem).1
  exact ⟨q,hmem,by omega⟩

end

end

theorem lmbFree_exact_iff (lmb : Lmb) (h : WellFormed lmb.reserved) (gone : Region)
    (hgone : Stays gone) : FreesExactly lmb gone ↔ SplitsSafely lmb.reserved gone := by
  obtain ⟨memory,t⟩ := lmb
  by_cases hin : ∃ r ∈ t, Holds gone r
  · obtain ⟨r,hr,hheld⟩ := id hin
    obtain ⟨pre,post,rfl⟩ := append_of_mem hr
    have hfreed := freeRegion_freed h.table hgone hheld
    have hexact := @freesExactly_of ⟨memory,pre ++ r :: post⟩ gone hin
    have hunchanged (hex : FreesExactly ⟨memory,pre ++ r :: post⟩ gone) := hex.unchanged
    have hremoved (hex : FreesExactly ⟨memory,pre ++ r :: post⟩ gone) := hex.removed
    dsimp only [lmbFree] at hexact hunchanged hremoved
    generalize freeRegion (pre ++ r :: post) gone.base gone.size = result at *
    have hgpos := hgone.1
    cases hfreed with
    | whole hlo hhi =>
      have hdiff := removed_difference h (whole_removed h.table hlo hhi)
      refine iff_of_true (hexact (Int.le_refl 0) hdiff) (splitsSafely_unsplit h.table hgone hheld ?_)
      exact fun hsplits => Nat.ne_of_lt hsplits.1 hlo
    | part s hpos hkeeps =>
      have hdiff := removed_difference h (part_removed h.table hgone hpos hkeeps)
      refine iff_of_true (hexact (Int.le_refl 0) hdiff) (splitsSafely_unsplit h.table hgone hheld ?_)
      rintro ⟨hfront,hback⟩
      rcases hkeeps with ⟨hlo,-⟩ | ⟨-,-,hhi⟩ <;> omega
    | middle low high hsplits hlow hhigh =>
      constructor
      · intro hex s hs hssplits
        obtain rfl : s = r := table_unique h.table hr hs
          (show r.lo ≤ gone.lo ∧ gone.lo < r.hi by unfold Splits at hsplits; omega)
          (by unfold Splits at hssplits; omega)
        have hwrap : ¬(s.hi = 2 ^ 64 ∧ ∃ q ∈ pre ++ s :: post, q.lo = 0) := by
          rintro ⟨htop,q,hq,hzero⟩
          obtain ⟨hret,hbroken⟩ := middle_wrapped h hgone hsplits hlow hhigh htop hq hzero
          exact hbroken (hremoved hex hret)
        refine ⟨?_,hwrap⟩
        rcases middle_removed h.table hgone hsplits hlow hhigh (Nat.zero_le 1) hwrap with
          ⟨-,-,htouch | hroom⟩ | ⟨hneg,-⟩
        · exact .inr (middle_touches h hgone hsplits hlow hhigh htouch)
        · exact .inl (by simpa using hroom)
        rw [hneg] at hunchanged
        have hsame := congrArg Lmb.reserved (hunchanged hex (show (-1 : Int) < 0 by decide))
        have hlows : low = s := by simpa using hsame
        have hback := hsplits.2
        rw [hlows] at hlow
        omega
      intro hsafe
      obtain ⟨hroom,hwrap⟩ := hsafe r hr hsplits
      rcases middle_removed h.table hgone hsplits hlow hhigh (Nat.zero_le 1) hwrap with
        ⟨hret,hdone,-⟩ | ⟨-,hfull,hpassed⟩
      · exact hexact hret (removed_difference h hdone)
      obtain ⟨htable,hstays⟩ := middle_table h.table hgone hsplits hlow hhigh
      rcases hroom with hroom | hmeets
      · simp only [length_append,length_cons] at hroom hfull
        omega
      · exact absurd (middle_meets h.table hhigh.2 hmeets)
          (passed_not_touches htable hstays hpassed)
  · have hnone : ∀ r ∈ t, ¬Holds gone r := fun r hr hheld => hin ⟨r,hr,hheld⟩
    exact iff_of_true (freesExactly_outside h.table hgone hnone) fun r hr hsplits =>
      absurd ⟨Nat.le_of_lt hsplits.1,Nat.le_of_lt hsplits.2⟩ (hnone r hr)

theorem oneBank_frees : lmbFree oneBank 0x80400 0x400 =
      (0,⟨[⟨0x1000,0x100000⟩],[⟨0x80000,0x400⟩,⟨0x80800,0x800⟩]⟩) ∧
    FreesExactly oneBank ⟨0x80400,0x400⟩ := by
  refine ⟨by decide +kernel,(lmbFree_exact_iff oneBank oneBank_reserved ⟨0x80400,0x400⟩
    (stays_iff.mpr (by decide))).mpr ?_⟩
  intro r hr _
  cases mem_singleton.mp hr
  exact ⟨.inl (by decide),fun htop => absurd htop.1 (by decide)⟩

def fullTable : Lmb := ⟨[],[⟨0x1000,0x800⟩,⟨0x2000,0x800⟩,⟨0x3000,0x800⟩,⟨0x4000,0x800⟩,
  ⟨0x5000,0x800⟩,⟨0x6000,0x800⟩,⟨0x7000,0x800⟩,⟨0x8000,0x800⟩]⟩

theorem fullTable_free_shrinks : WellFormed fullTable.reserved ∧ Stays ⟨0x1200,0x200⟩ ∧
    (lmbFree fullTable 0x1200 0x200).1 = -1 ∧
    (lmbFree fullTable 0x1200 0x200).2.reserved = ⟨0x1000,0x200⟩ :: fullTable.reserved.tail ∧
    ¬FreesExactly fullTable ⟨0x1200,0x200⟩ := by
  have hret : (lmbFree fullTable 0x1200 0x200).1 = -1 := by decide +kernel
  have hshrunk : (lmbFree fullTable 0x1200 0x200).2.reserved =
      ⟨0x1000,0x200⟩ :: fullTable.reserved.tail := by decide +kernel
  refine ⟨⟨by decide,⟨⟨by decide,by decide⟩,by decide⟩⟩,stays_iff.mpr (by decide),hret,hshrunk,
    fun hex => ?_⟩
  have hsame := congrArg Lmb.reserved (hex.unchanged (by rw [hret]; decide))
  rw [hshrunk] at hsame
  exact absurd hsame (by decide)

def InMemory (x : Nat) : Prop := Covers Region.lo Region.hi lmb.memory x

def IsReserved (x : Nat) : Prop := Covers Region.lo Region.hi lmb.reserved x

def FreeRun (addr n : Nat) : Prop :=
  ∀ x, addr ≤ x → x < addr + n →
    InMemory lmb x ∧ ¬IsReserved lmb x

structure AnswersExactly (addr : UInt64) : Prop where
  free : FreeRun lmb addr.toNat (lmbGetFreeSize lmb addr).toNat
  largest : ∀ n, FreeRun lmb addr.toNat n → n ≤ (lmbGetFreeSize lmb addr).toNat
  reserved : lmbIsReserved lmb addr = true ↔ IsReserved lmb addr.toNat

def BeforeNext (addr x : Nat) : Prop :=
  addr ≤ x ∧ (∀ r ∈ lmb.reserved, addr < r.lo → x < r.lo) ∧
    ((∃ r ∈ lmb.reserved, x < r.lo) ∨ ∃ r ∈ lmb.memory, x < r.hi)

def RunIsMemory (addr : Nat) : Prop :=
  InMemory lmb addr →
    (∀ r ∈ lmb.reserved, r.hi = 2 ^ 64 → addr < r.lo) ∧
    (IsReserved lmb addr ∨
      (∀ x, BeforeNext lmb addr x → InMemory lmb x) ∧
        ¬(addr = 0 ∧ lmb.reserved = [] ∧ ∃ r ∈ lmb.memory, r.hi = 2 ^ 64))

section

variable {lmb : Lmb} {t : List Region} {r : Region} {addr : UInt64}

theorem freeBefore_cases (top addr : UInt64) (ht : Table 0 t) :
    (∃ r ∈ t, addr.toNat < r.lo ∧ (∀ s ∈ t, s.hi ≤ addr.toNat ∨ r.lo ≤ s.lo) ∧
      freeBefore top addr t = r.base - addr) ∨
    (∃ r ∈ t, (r.lo ≤ addr.toNat ∧ addr.toNat < r.hi) ∧ r.hi < 2 ^ 64 ∧ freeBefore top addr t = 0) ∨
    (∀ r ∈ t, r.lo ≤ addr.toNat ∧ (r.hi ≤ addr.toNat ∨ r.hi = 2 ^ 64)) ∧
      freeBefore top addr t = top - addr := by
  induction t with
  | nil => exact .inr (.inr ⟨nofun,rfl⟩)
  | cons r rest ih =>
    obtain ⟨hrest,-,-,hafter⟩ := apart_split.mp (show Apart 0 _ _ ([] ++ r :: rest) from ht.apart)
    have hstays := table_stays ht (show r ∈ r :: rest by simp)
    have hlo : (addr < r.base) = (addr.toNat < r.lo) := by rw [UInt64.lt_iff_toNat_lt,Region.lo]
    have htop : addr < r.base + r.size ↔ r.hi < 2 ^ 64 ∧ addr.toNat < r.hi := by
      rw [UInt64.lt_iff_toNat_lt]
      rcases Nat.lt_or_eq_of_le hstays.2 with hin | hin
      · rw [UInt64.toNat_add]
        unfold Region.hi at *
        omega
      · rw [UInt64.toNat_add]
        unfold Region.hi at *
        omega
    simp only [freeBefore,hlo,htop]
    split_ifs with hbefore hwithin
    · refine .inl ⟨r,by simp,hbefore,?_,rfl⟩
      refine forall_mem_cons.mpr ⟨.inr (Nat.le_refl _),fun s hs => .inr ?_⟩
      have hgap := hafter s hs
      have hpos := hstays.1
      omega
    · exact .inr (.inl ⟨r,by simp,by omega,hwithin.1,rfl⟩)
    rcases ih ⟨hrest,(forall_mem_cons.mp ht.inside).2⟩ with
      ⟨s,hs,habove,hothers,hval⟩ | ⟨s,hs,hin,hend,hval⟩ | ⟨hall,hval⟩
    · have hgap := hafter s hs
      have hin := table_stays ht (mem_cons_of_mem r hs)
      have hpos := hin.1
      have hend := hin.2
      refine .inl ⟨s,mem_cons_of_mem _ hs,habove,forall_mem_cons.mpr ⟨.inl ?_,hothers⟩,hval⟩
      omega
    · exact .inr (.inl ⟨s,mem_cons_of_mem _ hs,hin,hend,hval⟩)
    · have hend := hstays.2
      exact .inr (.inr ⟨forall_mem_cons.mpr ⟨by omega,hall⟩,hval⟩)

theorem lmbIsReserved_iff (hr : Table 0 lmb.reserved) :
    lmbIsReserved lmb addr = true ↔ IsReserved lmb addr.toNat := by
  unfold lmbIsReserved IsReserved Covers
  rw [any_eq_true]
  refine exists_congr fun r => and_congr_right fun hin => ?_
  have hstays := table_stays hr hin
  have hlast := last_toNat (stays_iff.mp hstays).1 (stays_iff.mp hstays).2
  have hpos := hstays.1
  rw [decide_eq_true_iff,UInt64.le_iff_toNat_le,UInt64.le_iff_toNat_le,hlast]
  unfold Region.lo Region.hi at *
  omega

theorem answersExactly_zero (hr : Table 0 lmb.reserved) (hsize : lmbGetFreeSize lmb addr = 0)
    (hnot : InMemory lmb addr.toNat → IsReserved lmb addr.toNat) : AnswersExactly lmb addr := by
  refine ⟨?_,?_,lmbIsReserved_iff hr⟩
  · rw [hsize]
    intro x hle hx
    exact absurd hx (Nat.not_lt.mpr hle)
  intro n hn
  by_contra hgt
  obtain ⟨hmem,hfree⟩ := hn _ (Nat.le_refl _) (by omega)
  exact hfree (hnot hmem)

theorem memory_below {front : List Region} {last : Region} (hm : Table 0 (front ++ [last]))
    (hmem : r ∈ front ++ [last]) : r.hi ≤ last.hi := by
  rcases mem_append.mp hmem with hmem | hmem
  · have hnext := apart_before hm.apart hmem
    have hpos := (table_stays hm (show last ∈ front ++ [last] by simp)).1
    omega
  · exact Nat.le_of_eq (congrArg _ (mem_singleton.mp hmem))

section

variable {top : Region} (hr : Table 0 lmb.reserved) (hhas : InMemory lmb addr.toNat)
include hr hhas

theorem answersExactly_stop {stop : Nat}
    (hsize : (lmbGetFreeSize lmb addr).toNat = stop - addr.toNat)
    (hnext : ∀ x, BeforeNext lmb addr.toNat x ↔ addr.toNat ≤ x ∧ x < stop)
    (hfree : ∀ x, addr.toNat ≤ x → x < stop → ¬IsReserved lmb x)
    (hlt : addr.toNat < stop) (hstop : InMemory lmb stop → IsReserved lmb stop)
    (htop : ∀ r ∈ lmb.reserved, r.hi = 2 ^ 64 → addr.toNat < r.lo)
    (hwhole : ¬(addr.toNat = 0 ∧ lmb.reserved = [] ∧ ∃ r ∈ lmb.memory, r.hi = 2 ^ 64)) :
    AnswersExactly lmb addr ↔ RunIsMemory lmb addr.toNat := by
  constructor
  · intro h _
    refine ⟨htop,.inr ⟨fun x hx => ?_,hwhole⟩⟩
    obtain ⟨hle,hbelow⟩ := (hnext x).mp hx
    exact (h.free x hle (by omega)).1
  intro h
  obtain ⟨hrun,-⟩ := (h hhas).2.resolve_left (hfree _ (Nat.le_refl _) hlt)
  refine ⟨?_,?_,lmbIsReserved_iff hr⟩
  · intro x hle hx
    have hbelow : x < stop := by omega
    exact ⟨hrun x ((hnext x).mpr ⟨hle,hbelow⟩),hfree x hle hbelow⟩
  intro n hn
  by_contra hgt
  obtain ⟨hmem,hout⟩ := hn stop (Nat.le_of_lt hlt) (by omega)
  exact hout (hstop hmem)

theorem answers_before (hres : r ∈ lmb.reserved) (habove : addr.toNat < r.lo)
    (hothers : ∀ s ∈ lmb.reserved, s.hi ≤ addr.toNat ∨ r.lo ≤ s.lo)
    (hsize : lmbGetFreeSize lmb addr = r.base - addr) :
    AnswersExactly lmb addr ↔ RunIsMemory lmb addr.toNat := by
  have haddr := addr.toNat_lt
  have hto : (r.base - addr).toNat = r.lo - addr.toNat :=
    UInt64.toNat_sub_of_le _ _ (UInt64.le_iff_toNat_le.mpr (Nat.le_of_lt habove))
  refine answersExactly_stop hr hhas (hsize ▸ hto) ?_ ?_ habove ?_ ?_ ?_
  · intro x
    constructor
    · rintro ⟨hle,hnext,-⟩
      exact ⟨hle,hnext r hres habove⟩
    rintro ⟨hle,hx⟩
    refine ⟨hle,fun s hs hup => ?_,.inl ⟨r,hres,hx⟩⟩
    have hside := hothers s hs
    have hpos := (table_stays hr hs).1
    omega
  · rintro x hle hx ⟨s,hs,hat⟩
    have hside := hothers s hs
    omega
  · exact fun _ => ⟨r,hres,Nat.le_refl _,(table_stays hr hres).1⟩
  · intro s hs htop
    have hside := hothers s hs
    omega
  · rintro ⟨-,hnone,-⟩
    simp [hnone] at hres

theorem answers_top (hlast : top ∈ lmb.memory) (hends : ∀ r ∈ lmb.memory, r.hi ≤ top.hi)
    (hall : ∀ r ∈ lmb.reserved, r.lo ≤ addr.toNat ∧ (r.hi ≤ addr.toNat ∨ r.hi = 2 ^ 64))
    (hin : top.hi ≤ 2 ^ 64) (hval : lmbGetFreeSize lmb addr = top.base + top.size - addr) :
    AnswersExactly lmb addr ↔ RunIsMemory lmb addr.toNat := by
  have hlt : addr.toNat < top.hi := by
    obtain ⟨m,hmem,hx⟩ := hhas
    have hle := hends m hmem
    omega
  have hsize : (lmbGetFreeSize lmb addr).toNat = (top.hi - addr.toNat) % 2 ^ 64 := by
    rw [hval,UInt64.toNat_sub,UInt64.toNat_add]
    have haddr := addr.toNat_lt
    unfold Region.hi at *
    omega
  by_cases htops : ∃ r ∈ lmb.reserved, r.hi = 2 ^ 64
  · obtain ⟨r,hres,htop⟩ := htops
    have hle := (hall r hres).1
    refine iff_of_false ?_ ?_
    · intro h
      have hshort := r.size.toNat_lt
      refine (h.free _ (Nat.le_refl _) ?_).2 ⟨r,hres,hle,by omega⟩
      unfold Region.lo Region.hi at *
      omega
    · intro h
      have hout := (h hhas).1 r hres htop
      omega
  have hover : ∀ r ∈ lmb.reserved, r.hi ≤ addr.toNat := fun r hres =>
    (hall r hres).2.resolve_right fun htop => htops ⟨r,hres,htop⟩
  have hfree : ∀ x, addr.toNat ≤ x → ¬IsReserved lmb x := by
    rintro x hle ⟨s,hs,hat⟩
    have hside := hover s hs
    omega
  by_cases hwhole : addr.toNat = 0 ∧ top.hi = 2 ^ 64
  · refine iff_of_false ?_ ?_
    · intro h
      have hone := h.largest 1 fun x hle hx => ⟨(show x = addr.toNat by omega) ▸ hhas,hfree x hle⟩
      omega
    intro h
    refine ((h hhas).2.resolve_left (hfree _ (Nat.le_refl _))).2 ⟨hwhole.1,?_,top,hlast,hwhole.2⟩
    refine eq_nil_iff_forall_not_mem.mpr fun r hres => ?_
    have hpos := (table_stays hr hres).1
    have hside := hover r hres
    omega
  refine answersExactly_stop hr hhas (hsize.trans (Nat.mod_eq_of_lt (by omega))) ?_
    (fun x hle _ => hfree x hle) hlt ?_ (fun r hres htop => absurd ⟨r,hres,htop⟩ htops) ?_
  · intro x
    constructor
    · rintro ⟨hle,-,⟨r,hres,hx⟩ | ⟨r,hmem,hx⟩⟩
      · have hside := (hall r hres).1
        omega
      · exact ⟨hle,Nat.lt_of_lt_of_le hx (hends r hmem)⟩
    rintro ⟨hle,hx⟩
    refine ⟨hle,fun r hres hup => ?_,.inr ⟨top,hlast,hx⟩⟩
    have hside := (hall r hres).1
    omega
  · rintro ⟨r,hmem,hat⟩
    have hle := hends r hmem
    omega
  · rintro ⟨hzero,-,r,hmem,htop⟩
    have hle := hends r hmem
    exact hwhole ⟨hzero,by omega⟩

end

theorem lmbGetFreeSize_exact_iff (lmb : Lmb) (hm : WellFormed lmb.memory)
    (hr : WellFormed lmb.reserved) (addr : UInt64) :
    AnswersExactly lmb addr ↔ RunIsMemory lmb addr.toNat := by
  have hone : Stays ⟨addr,1⟩ := stays_iff.mpr ⟨by decide,addr.toNat_lt⟩
  cases hover : lmbOverlapsRegion lmb.memory addr 1 with
  | none =>
    have hclear := (overlapsRegion_none (fun r => table_stays hm.table) hone).mp hover
    have hnot : ¬InMemory lmb addr.toNat := by
      rintro ⟨r,hin,hx⟩
      have hside : r.hi ≤ addr.toNat ∨ addr.toNat + 1 ≤ r.lo := hclear r hin
      omega
    have hsize : lmbGetFreeSize lmb addr = 0 := by rw [lmbGetFreeSize,hover]
    exact iff_of_true (answersExactly_zero hr.table hsize (absurd · hnot)) (absurd · hnot)
  | some m =>
    obtain ⟨hmem,hoverlap⟩ := overlapsRegion_some hover
    have hat := (overlap_iff hone (table_stays hm.table hmem)).mp hoverlap
    have hhas : InMemory lmb addr.toNat := ⟨m,hmem,Nat.lt_succ_iff.mp hat.2,hat.1⟩
    obtain ⟨front,last,hlist⟩ := (eq_nil_or_concat' lmb.memory).resolve_left (ne_nil_of_mem hmem)
    have hlast : last ∈ lmb.memory := by simp [hlist]
    have hsize : lmbGetFreeSize lmb addr = freeBefore (last.base + last.size) addr lmb.reserved := by
      rw [lmbGetFreeSize,hover,hlist,getLast?_concat]
    rcases freeBefore_cases (last.base + last.size) addr hr.table with
      ⟨r,hres,habove,hothers,hval⟩ | ⟨r,hres,hin,hend,hval⟩ | ⟨hall,hval⟩
    · exact answers_before hr.table hhas hres habove hothers (hsize.trans hval)
    · have hcov : IsReserved lmb addr.toNat := ⟨r,hres,hin⟩
      refine iff_of_true (answersExactly_zero hr.table (hsize.trans hval) fun _ => hcov)
        fun _ => ⟨fun s hs htop => ?_,.inl hcov⟩
      by_contra hle
      have hsame := table_unique hr.table hres hs hin ⟨Nat.not_lt.mp hle,htop ▸ addr.toNat_lt⟩
      rw [hsame] at htop
      omega
    refine answers_top hr.table hhas hlast (fun r hmem => ?_) hall (hm.table.inside last hlast)
      (hsize.trans hval)
    rw [hlist] at hmem
    exact memory_below (hlist ▸ hm.table) hmem

theorem oneBank_free_size : lmbGetFreeSize oneBank 0x1000 = 0x7f000 ∧
    AnswersExactly oneBank 0x1000 := by
  refine ⟨by decide,(lmbGetFreeSize_exact_iff oneBank oneBank_memory oneBank_reserved _).mpr ?_⟩
  refine fun _ => ⟨by decide,.inr ⟨?_,by decide⟩⟩
  rintro x ⟨hle,hnext,-⟩
  have hbelow := hnext ⟨0x80000,0x1000⟩ (by decide) (by decide)
  exact ⟨⟨0x1000,0x100000⟩,by decide,hle,Nat.lt_trans hbelow (by decide)⟩

def twoBanks : Lmb := ⟨[⟨0x1000,0x1000⟩,⟨0x4000,0x1000⟩],[]⟩

theorem twoBanks_free_across_gap : lmbGetFreeSize twoBanks 0x1000 = 0x4000 ∧
    ¬AnswersExactly twoBanks 0x1000 := by
  refine ⟨by decide,fun h => ?_⟩
  obtain ⟨⟨r,hmem,hat⟩,-⟩ := h.free 0x2000 (by decide) (by decide)
  revert r
  decide

end

def Allocatable (new : Region) : Prop :=
  (∃ r ∈ lmb.memory, Holds new r) ∧ Clear Region.lo Region.hi lmb.reserved new.lo new.hi ∧
    (Touches lmb.reserved new ∨ lmb.reserved.length < maxLmbRegions)

structure AllocatesExactly (new : Region) : Prop where
  returns : (lmbAllocAddr lmb new.base new.size).1 = new.base ↔ Allocatable lmb new
  reserved : Allocatable lmb new → (lmbAllocAddr lmb new.base new.size).2.memory = lmb.memory ∧
    ∀ x, IsReserved (lmbAllocAddr lmb new.base new.size).2 x ↔
      IsReserved lmb x ∨ new.lo ≤ x ∧ x < new.hi
  refused : ¬Allocatable lmb new → lmbAllocAddr lmb new.base new.size = (0,lmb)

def LastByteFound (memory : List Region) (new : Region) : Prop :=
  ∃ r ∈ memory, (r.lo < new.hi ∧ new.hi ≤ r.hi) ∧
    ∀ s ∈ memory, s.lo < new.hi → new.lo < s.hi → s = r

def TakesOnlyFree (new : Region) : Prop :=
  LastByteFound lmb.memory new → ¬WrapsAround lmb.reserved new ∧
    (Clear Region.lo Region.hi lmb.reserved new.lo new.hi →
      Touches lmb.reserved new ∨ lmb.reserved.length < maxLmbRegions →
      ∃ r ∈ lmb.memory, Holds new r) ∧
    (¬Clear Region.lo Region.hi lmb.reserved new.lo new.hi →
      new ∉ lmb.reserved ∧ ∀ r ∈ lmb.reserved, r.hi ≠ new.lo)

section

variable {lmb : Lmb} {t : List Region} {r new : Region}

theorem last_byte_iff (hr : Stays r) (hnew : Stays new) :
    lmbAddrsOverlap r.base r.size (new.base + new.size - 1) 1 = true ↔
      r.lo < new.hi ∧ new.hi ≤ r.hi := by
  have hpos := hnew.1
  obtain ⟨hsize,hin⟩ := stays_iff.mp hnew
  have hlast := last_toNat hsize hin
  have hstays : Stays ⟨new.base + new.size - 1,1⟩ := by
    refine stays_iff.mpr ⟨by decide,?_⟩
    rw [hlast,UInt64.toNat_one]
    omega
  rw [show (1 : UInt64) = (⟨new.base + new.size - 1,1⟩ : Region).size from rfl,
    show new.base + new.size - 1 = (⟨new.base + new.size - 1,1⟩ : Region).base from rfl,
    overlap_iff hr hstays]
  unfold Region.lo Region.hi
  dsimp only
  rw [hlast,UInt64.toNat_one]
  omega

section

variable (ht : Table 0 lmb.memory) (hnew : Stays new)
include ht hnew

theorem lmbAllocAddr_found (h : LastByteFound lmb.memory new) : lmbAllocAddr lmb new.base new.size =
      (if 0 ≤ (lmbAddRegion lmb.reserved new.base new.size).1 then new.base else 0,
        { lmb with reserved := (lmbAddRegion lmb.reserved new.base new.size).2 }) := by
  obtain ⟨r,hr,hlast,honly⟩ := h
  have hstays := table_stays ht hr
  have hpos := hnew.1
  unfold lmbAllocAddr
  cases hfind : lmbOverlapsRegion lmb.memory new.base new.size with
  | none =>
    have hside : r.hi ≤ new.lo ∨ new.hi ≤ r.lo :=
      (overlapsRegion_none (fun s => table_stays ht) hnew).mp hfind r hr
    omega
  | some s =>
    obtain ⟨hs,hmeets⟩ := overlapsRegion_some hfind
    obtain ⟨hlo,hhi⟩ := (overlap_iff hnew (table_stays ht hs)).mp hmeets
    obtain rfl := honly s hs hhi hlo
    dsimp only
    rw [if_pos ((last_byte_iff hstays hnew).mpr hlast)]
    rfl

theorem lmbAllocAddr_unfound (h : ¬LastByteFound lmb.memory new) :
    lmbAllocAddr lmb new.base new.size = (0,lmb) := by
  unfold lmbAllocAddr
  split
  · rfl
  rename_i r hfind
  rw [if_neg]
  intro hbyte
  obtain ⟨hr,-⟩ := overlapsRegion_some hfind
  obtain ⟨hlo,hhi⟩ := (last_byte_iff (table_stays ht hr) hnew).mp hbyte
  refine h ⟨r,hr,⟨hlo,hhi⟩,fun s hs hslo hshi => ?_⟩
  obtain ⟨-,pre,post,hsplit,hpre⟩ := find?_eq_some_iff_append.mp hfind
  have hsstays := table_stays ht hs
  rw [hsplit] at hs ht
  obtain ⟨-,-,-,hafter⟩ := table_split.mp ht
  rw [mem_append,mem_cons] at hs
  rcases hs with hs | rfl | hs
  · have hnot := hpre s hs
    rw [(overlap_iff hnew hsstays).mpr ⟨hshi,hslo⟩] at hnot
    exact absurd hnot (by decide)
  · rfl
  · have hle := hafter s hs
    omega

theorem holds_found (hr : r ∈ lmb.memory) (h : Holds new r) : LastByteFound lmb.memory new := by
  have hpos := hnew.1
  obtain ⟨hlo,hhi⟩ := h
  refine ⟨r,hr,⟨by omega,hhi⟩,fun s hs hslo hshi => ?_⟩
  have hspos := (table_stays ht hs).1
  exact table_unique ht hr hs (show r.lo ≤ max new.lo s.lo ∧ max new.lo s.lo < r.hi by omega)
    (by omega)

end

theorem lmbAddRegion_refused (ht : Table 0 t) (hnew : Stays new)
    (hoverlap : ¬Clear Region.lo Region.hi t new.lo new.hi)
    (hneg : (lmbAddRegion t new.base new.size).1 < 0) : new ∉ t ∧ ∀ r ∈ t, r.hi ≠ new.lo := by
  have hne : t ≠ [] := by
    rintro rfl
    exact hoverlap nofun
  rw [lmbAddRegion_scan hne] at hneg
  rcases scanRegions_cases new [] t with ⟨-,hpassed⟩ | ⟨mid,r,post,rfl,hmid,hstop⟩
  · exact absurd (passed_clear hnew ht hpassed) hoverlap
  generalize scanRegions new.base new.size [] (mid ++ r :: post) = scan at hstop hneg
  cases hstop with
  | present h => exact absurd hneg (show ¬(0 : Int) < 0 by decide)
  | before h => exact absurd hneg (Int.not_lt.mpr (Int.le_of_lt (joinNext_pos _ _ _)))
  | after h => exact absurd hneg (Int.not_lt.mpr (Int.le_of_lt (joinNext_pos _ _ _)))
  | overlaps h hother =>
    have hpos := hnew.1
    obtain ⟨-,hr,-,hafter⟩ := table_split.mp ht
    obtain ⟨hlo,hhi⟩ := (overlap_iff hnew hr).mp h
    have hrpos := hr.1
    refine ⟨fun hmem => hother ?_,fun q hq hmeets => ?_⟩
    · exact table_unique ht hmem (show r ∈ mid ++ r :: post by simp)
        (show new.lo ≤ max new.lo r.lo ∧ max new.lo r.lo < new.hi by omega) (by omega)
    have hqpos := (table_stays ht hq).1
    rw [mem_append,mem_cons] at hq
    rcases hq with hq | rfl | hq
    · have hapart := passed_apart hnew (table_stays ht (mem_append_left _ hq)) (hmid q hq)
      omega
    · omega
    · have hle := hafter q hq
      omega

end

theorem lmbAllocAddr_exact_iff (lmb : Lmb) (hm : WellFormed lmb.memory)
    (hr : WellFormed lmb.reserved) (new : Region) (hnew : Stays new) (hne : new.base ≠ 0) :
    AllocatesExactly lmb new ↔ TakesOnlyFree lmb new := by
  have hzero : new.lo ≠ 0 := fun hlo => hne (UInt64.toNat_inj.mp hlo)
  have hrefuse (hsame : lmbAllocAddr lmb new.base new.size = (0,lmb)) (hnot : ¬Allocatable lmb new) :
      AllocatesExactly lmb new := by
    refine ⟨iff_of_false ?_ hnot,fun halloc => absurd halloc hnot,fun _ => hsame⟩
    rw [hsame]
    exact Ne.symm hne
  by_cases hfound : LastByteFound lmb.memory new
  · have hrun := lmbAllocAddr_found hm.table hnew hfound
    have hkept (hex : AllocatesExactly lmb new) (hret : 0 ≤ (lmbAddRegion lmb.reserved new.base
        new.size).1) : Allocatable lmb new := by
      refine hex.returns.mp ?_
      rw [hrun,if_pos hret]
    by_cases hwrap : WrapsAround lmb.reserved new
    · refine iff_of_false (fun hex => ?_) fun htakes => (htakes hfound).1 hwrap
      obtain ⟨hret,x,hbefore,hafter⟩ := wrapsAround_breaks hr.table hnew hzero hwrap
      have hcovers := (hex.reserved (hkept hex (by omega))).2 x
      rw [hrun] at hcovers
      exact hafter (hcovers.mpr (.inl hbefore))
    by_cases hclear : Clear Region.lo Region.hi lmb.reserved new.lo new.hi
    · rcases lmbAddRegion_clear hnew (Nat.zero_le 1) hr.table hclear hwrap with
        ⟨hret,hext,hroom⟩ | ⟨hneg,hfull,hpassed⟩
      · constructor
        · exact fun hex _ => ⟨hwrap,fun _ _ => (hkept hex hret).1,fun hnot => absurd hclear hnot⟩
        intro htakes
        have halloc : Allocatable lmb new := ⟨(htakes hfound).2.1 hclear hroom,hclear,hroom⟩
        refine ⟨iff_of_true ?_ halloc,fun _ => ?_,fun hnot => absurd halloc hnot⟩
        · rw [hrun,if_pos hret]
        · rw [hrun]
          exact ⟨rfl,hext.covers⟩
      · have hnoroom : ¬(Touches lmb.reserved new ∨ lmb.reserved.length < maxLmbRegions) := by
          rintro (htouch | hroom)
          · exact passed_not_touches hr.table hnew hpassed htouch
          · omega
        rw [hneg] at hrun
        exact iff_of_true (hrefuse hrun fun halloc => hnoroom halloc.2.2) fun _ =>
          ⟨hwrap,fun _ hroom => absurd hroom hnoroom,fun hnot => absurd hclear hnot⟩
    · constructor
      · intro hex _
        refine ⟨hwrap,fun h => absurd h hclear,fun _ => lmbAddRegion_refused hr.table hnew hclear ?_⟩
        exact Int.not_le.mp fun hret => hclear (hkept hex hret).2.1
      intro htakes
      obtain ⟨hother,hstarts⟩ := (htakes hfound).2.2 hclear
      rcases lmbAddRegion_overlapping hnew hr.table hclear hwrap hstarts with ⟨-,hmem⟩ | hneg
      · exact absurd hmem hother
      · rw [hneg] at hrun
        exact hrefuse hrun fun halloc => hclear halloc.2.1
  · refine iff_of_true (hrefuse (lmbAllocAddr_unfound hm.table hnew hfound) ?_) fun h => absurd h hfound
    rintro ⟨⟨r,hmem,hheld⟩,-⟩
    exact hfound (holds_found hm.table hnew hmem hheld)

theorem oneBank_allocates_addr : lmbAllocAddr oneBank 0x2000 0x1000 =
      (0x2000,⟨[⟨0x1000,0x100000⟩],[⟨0x2000,0x1000⟩,⟨0x80000,0x1000⟩]⟩) ∧
    AllocatesExactly oneBank ⟨0x2000,0x1000⟩ := by
  refine ⟨by decide +kernel,(lmbAllocAddr_exact_iff oneBank oneBank_memory oneBank_reserved
    ⟨0x2000,0x1000⟩ (stays_iff.mpr (by decide)) (by decide)).mpr fun _ => ⟨?_,fun _ _ => ?_,?_⟩⟩
  · rintro (⟨htop,-⟩ | ⟨hzero,-⟩ | ⟨r,s,hlist,-⟩)
    · exact absurd htop (by decide)
    · exact absurd hzero (by decide)
    · simp [oneBank] at hlist
  · exact ⟨⟨0x1000,0x100000⟩,mem_singleton_self _,by unfold Holds; decide⟩
  · exact fun hnot => absurd (show Clear _ _ _ _ _ by unfold Clear; decide) hnot

theorem oneBank_below_memory : lmbAllocAddr oneBank 0x800 0x1000 =
      (0x800,⟨[⟨0x1000,0x100000⟩],[⟨0x800,0x1000⟩,⟨0x80000,0x1000⟩]⟩) ∧
    ¬AllocatesExactly oneBank ⟨0x800,0x1000⟩ := by
  have hrun : lmbAllocAddr oneBank 0x800 0x1000 =
      (0x800,⟨[⟨0x1000,0x100000⟩],[⟨0x800,0x1000⟩,⟨0x80000,0x1000⟩]⟩) := by decide +kernel
  refine ⟨hrun,fun hex => ?_⟩
  obtain ⟨⟨r,hr,hheld⟩,-⟩ := hex.returns.mp (congrArg Prod.fst hrun)
  cases mem_singleton.mp hr
  exact absurd hheld.1 (by decide)

end FuzzingTargets.UBoot.MemoryBlocks
