import FuzzingTargets.UBoot.Ext4.ReadFile

namespace FuzzingTargets.UBoot.Ext4
open Memory Extent

structure ExtentNode (height size : Nat) (block : Buffer) : Prop where
  headed : headed height size block
  sorted : ∀ j k, j ≤ k → k < entries block → first block j ≤ first block k

def RegularExtents (v : Volume) (i : Nat) : Nat → Nat → Buffer → Prop
  | 0, size, block => ExtentNode 0 size block ∧
    ∀ j < entries block, first block j ≤ i → i < first block j + rawLength block j →
      unwritten block j = false
  | height + 1, size, block => ExtentNode (height + 1) size block ∧ 0 < entries block ∧
    ∃ content, v.blockAt (child block (indexOf block i)) = some content ∧
      RegularExtents v i height v.blocksize content ∧
        (i < first block 0 → extentBlock v height v.blocksize content i = some 0)

def Regular (v : Volume) (inode : Buffer) (i : Nat) : Prop :=
  if usesExtents inode then RegularExtents v i (inode.le16 46) 60 fun k => inode (40 + k)
  else (denseBlock v inode i).isSome ∧ (12 ≤ i → v.device.sectors < 2 ^ 32)

def ValidExtent (v : Volume) (cache : ExtCache) : Prop :=
  ∀ sector content, cache = some (sector,content) →
    ∃ block, v.Inside block ∧ sector = v.toSector block ∧ Holds v block content

def Ready (v : Volume) (inode : Buffer) (c : Caches) : Prop :=
  if usesExtents inode then ValidExtent v c.extent else ValidCaches v c

variable {height n : Nat}

section

variable {v : Volume} {block a b : Buffer} {i size : Nat}

theorem ExtentNode.header (h : ExtentNode height size block) :
    block.le16 0 = 0xf30a ∧ block.le16 6 = height ∧ 12 + 12 * entries block ≤ size :=
  of_decide_eq_true h.headed

theorem leafScan_congr (h : ∀ k < size, a k = b k) : ∀ {j : Nat},
    12 + 12 * (j + n) ≤ size → leafScan a i n j = leafScan b i n j := by
  induction n with
  | zero => exact fun _ => rfl
  | succ n ih =>
    intro j hfits
    unfold leafScan
    rw [le32_congr h (by omega),le16_congr h (by omega),le16_congr h (by omega),
      le32_congr h (by omega),ih (by omega)]

theorem indexScan_congr (h : ∀ k < size, a k = b k) : ∀ {j : Nat},
    12 + 12 * (j + n) ≤ size → indexScan a i n j = indexScan b i n j := by
  induction n with
  | zero => exact fun _ => rfl
  | succ n ih =>
    intro j hfits
    unfold indexScan
    rw [le32_congr h (by omega),ih (by omega)]

theorem indexScan_stops (block : Buffer) (i n : Nat) : ∀ {j : Nat}, (∀ l < j, first block l ≤ i) →
    indexScan block i n j ≤ j + n ∧ (∀ l < indexScan block i n j, first block l ≤ i) ∧
      (indexScan block i n j < j + n → i < first block (indexScan block i n j)) := by
  induction n with
  | zero => exact fun h => ⟨le_rfl,h,fun hlt => absurd hlt (lt_irrefl _)⟩
  | succ n ih =>
    intro j h
    unfold indexScan
    split
    · rename_i hle
      obtain ⟨hend,hbefore,hnext⟩ := @ih (j + 1) fun l hl => by
        rcases Nat.lt_succ_iff_lt_or_eq.mp hl with hlt | rfl
        · exact h l hlt
        · exact hle
      exact ⟨by omega,hbefore,fun hlt => hnext (by omega)⟩
    · rename_i hgt
      exact ⟨by omega,h,fun _ => Nat.not_le.mp hgt⟩

theorem indexScan_indexOf (h : ExtentNode height size block) :
    indexScan block i (entries block) 0 - 1 = indexOf block i := by
  obtain ⟨hend,hbefore,hnext⟩ := @indexScan_stops block i (entries block) 0 (by simp)
  symm
  refine Nat.findGreatest_eq_iff.mpr ⟨by omega,fun hne => hbefore _ (by omega),?_⟩
  intro n hlow hhigh hle
  have hgt := hnext (by omega)
  have := h.sorted (indexScan block i (entries block) 0) n (by omega) (by omega)
  omega

theorem indexChild_congr (h : ExtentNode height size block)
    (hpos : 0 < entries block) (hsame : ∀ k < size, a k = block k) :
    indexChild a i = child block (indexOf block i) := by
  have hfits := h.header.2.2
  have hentries : a.le16 2 = entries block := le16_congr hsame (by omega)
  have hlt : indexOf block i ≤ entries block - 1 := Nat.findGreatest_le _
  unfold indexChild child
  dsimp only
  rw [hentries,indexScan_congr hsame (by omega),indexScan_indexOf h,le16_congr hsame (by omega),
    le32_congr hsame (by omega)]

theorem leafScan_find (h : ExtentNode 0 size block)
    (hwritten : ∀ j < entries block, first block j ≤ i → i < first block j + rawLength block j →
      unwritten block j = false) : ∀ {j : Nat}, j + n = entries block →
    leafScan block i n j =
      ((List.range' j n).find? (covers block · i)).elim 0 (placed block · i) := by
  induction n with
  | zero => exact fun _ => rfl
  | succ n ih =>
    intro j hj
    rw [List.range'_succ,leafScan]
    change (if i < first block j then 0 else if i < first block j + rawLength block j then
      i - first block j + start block j else _) = _
    split_ifs with hbefore hinside
    · have hnone : (j :: List.range' (j + 1) n).find? (covers block · i) = none := by
        rw [List.find?_eq_none,← List.range'_succ]
        intro k hk
        obtain ⟨hlow,hhigh⟩ := List.mem_range'_1.mp hk
        have := h.sorted j k hlow (by omega)
        simp only [covers,decide_eq_true_eq,not_and]
        omega
      rw [hnone]
      rfl
    · have hwrites := hwritten j (by omega) (by omega) hinside
      rw [List.find?_cons_of_pos (by simp [covers,length,hwrites]; omega),Option.elim_some,
        placed,hwrites]
      rfl
    · have hle : length block j ≤ rawLength block j := by
        unfold length
        split <;> omega
      rw [List.find?_cons_of_neg (by simp [covers]; omega),ih (by omega)]

theorem extCacheRead_inside (h : Addressed v) {cache : ExtCache} (hc : ValidExtent v cache)
    (hin : v.Inside n) :
    ∃ content, extCacheRead v cache (v.toSector n) = some content ∧ Holds v n content := by
  unfold extCacheRead
  split
  · rename_i sector content
    split
    · rename_i hsame
      obtain ⟨held,hheld,hsector,hcontent⟩ := hc _ _ rfl
      have heq : held * 2 ^ v.sectorShift = n * 2 ^ v.sectorShift := by
        rw [← (inside_sector h hheld).1,← (inside_sector h hin).1,← hsector,hsame]
      rw [Nat.eq_of_mul_eq_mul_right (Nat.two_pow_pos _) heq] at hcontent
      exact ⟨content,rfl,hcontent⟩
    · exact readSectors_inside h hin
  · exact readSectors_inside h hin

theorem ext4fsGetExtentBlock_regular (h : Addressed v) {stray : Stray} :
    ∀ {size fuel : Nat} {cache : ExtCache} {block a : Buffer} {r : Option (Buffer × ExtCache)},
    RegularExtents v i height size block → (∀ k < size, a k = block k) → ValidExtent v cache →
    ext4fsGetExtentBlock v stray i fuel cache a = some r →
    ∃ leaf cache', r = some (leaf,cache') ∧ ValidExtent v cache' ∧
      extentBlock v height size block i = some (leafScan leaf i (leaf.le16 2) 0) := by
  induction height with
  | zero =>
    intro size fuel cache block a r hregular hsame hc hget
    obtain _ | fuel := fuel
    · cases hget
    obtain ⟨hnode,hwritten⟩ := hregular
    obtain ⟨hmagic,hdepth,hfits⟩ := hnode.header
    have hentries : a.le16 2 = entries block := le16_congr hsame (by omega)
    rw [ext4fsGetExtentBlock,le16_congr hsame (by omega),le16_congr hsame (by omega),hmagic,
      if_neg (by decide),if_pos hdepth] at hget
    cases hget
    refine ⟨_,_,rfl,hc,?_⟩
    rw [extentBlock,if_pos hnode.headed,hentries,leafScan_congr hsame (by omega),
      leafScan_find hnode hwritten (Nat.zero_add _),← List.range_eq_range',leafBlock]
  | succ height ih =>
    intro size fuel cache block a r hregular hsame hc hget
    obtain _ | fuel := fuel
    · cases hget
    obtain ⟨hnode,hpos,content,hcontent,hbelow,hearly⟩ := hregular
    obtain ⟨hmagic,hdepth,hfits⟩ := hnode.header
    obtain ⟨hin,rfl⟩ := blockAt_eq_some hcontent
    obtain ⟨held,hread,hheld⟩ := extCacheRead_inside h hc hin
    rw [ext4fsGetExtentBlock,le16_congr hsame (by omega),le16_congr hsame (by omega),hmagic,
      if_neg (by decide),if_neg (by rw [hdepth]; omega)] at hget
    dsimp only at hget
    rw [indexChild_congr hnode hpos hsame,hread] at hget
    obtain ⟨leaf,cache',hr,hc',hblock⟩ := ih hbelow (fun k hk =>
      (behind_congr _ _ _ k hk).trans (hheld k hk)) (fun _ _ heq => by
        cases heq
        exact ⟨_,hin,rfl,hheld⟩) hget
    refine ⟨leaf,cache',hr,hc',?_⟩
    rw [extentBlock,if_pos hnode.headed,hcontent,Option.bind_some]
    split
    · rename_i hbefore
      rw [← hblock,hearly (by omega)]
    · exact hblock

theorem readAllocatedBlock_regular (h : Addressed v) {stray : Stray} {fuel : Nat} {c c' : Caches}
    {inode : Buffer} {n : Int} (hregular : Regular v inode i) (hc : Ready v inode c)
    (hread : readAllocatedBlock v stray fuel c inode i = some (n,c')) :
    ∃ number : Nat, n = number ∧ formatBlock v inode i = some number ∧ Ready v inode c' := by
  unfold Regular at hregular
  unfold Ready at hc ⊢
  unfold formatBlock
  split at hregular
  · rename_i hextents
    rw [if_pos hextents] at hc ⊢
    unfold readAllocatedBlock at hread
    rw [if_pos hextents] at hread
    split at hread
    · cases hread
    · rename_i hget
      obtain ⟨_,_,hr,_⟩ := ext4fsGetExtentBlock_regular h hregular
        (fun k hk => behind_congr _ _ _ k (hk.trans_le (by decide))) hc hget
      cases hr
    · rename_i hget
      obtain ⟨_,_,hr,hc',hblock⟩ := ext4fsGetExtentBlock_regular h hregular
        (fun k hk => behind_congr _ _ _ k (hk.trans_le (by decide))) hc hget
      cases hr
      cases hread
      rw [if_pos hextents]
      exact ⟨_,rfl,hblock,hc'⟩
  · rename_i hplain
    rw [if_neg hplain] at hc ⊢
    obtain ⟨hdense,hsmall⟩ := hregular
    obtain ⟨number,hnumber⟩ := Option.isSome_iff_exists.mp hdense
    obtain ⟨c1,hread',hc1⟩ : ∃ c1, readAllocatedBlock v stray fuel c inode i =
        some ((number : Int),c1) ∧ ValidCaches v c1 := by
      rcases Nat.lt_or_ge i 12 with hdirect | hindirect
      · unfold denseBlock at hnumber
        dsimp only at hnumber
        rw [if_pos hdirect] at hnumber
        unfold readAllocatedBlock
        rw [if_neg hplain,if_pos hdirect,Option.some.inj hnumber]
        exact ⟨c,rfl,hc⟩
      · exact readAllocatedBlock_dense ⟨h.representable,h.sectorFits,hsmall hindirect⟩ hc stray fuel
          (by simpa using hplain) hnumber
    rw [hread'] at hread
    cases hread
    rw [if_neg hplain]
    exact ⟨number,rfl,denseBlock_format hnumber,hc1⟩

end

end FuzzingTargets.UBoot.Ext4
