import Mathlib.Data.Finset.Card
import Mathlib.Data.Int.ModEq
import Mathlib.Data.List.Iterate
import Mathlib.Data.Nat.Prime.Basic
import Mathlib.Order.Interval.Finset.Nat
import Mathlib.Data.Set.Card
import Mathlib.Logic.Function.Basic

namespace FuzzingTargets.Probing
open Function

inductive Slot (α : Type) where
  | free
  | deleted
  | live (a : α)
  deriving DecidableEq

def Slot.isLive {α : Type} : Slot α → Bool
  | .live _ => true
  | _ => false

inductive Place (I : Type) where
  | hit (i : I)
  | room (i : Option I)
  deriving DecidableEq

variable {I K α : Type}

structure Sound (key : α → K) (probes : K → List I) (s : I → Slot α) : Prop where
  reached : ∀ i a, s i = .live a →
    ∃ p q, probes (key a) = p ++ i :: q ∧ ∀ j ∈ p, s j ≠ .free
  unique : ∀ i j a b, s i = .live a → s j = .live b → key a = key b → i = j

theorem sound_empty {key : α → K} {probes : K → List I} :
    Sound key probes (fun _ => (.free : Slot α)) where
  reached := nofun
  unique := nofun

theorem live_iff {key : α → K} {probes : K → List I} {s : I → Slot α} {i : I} {a : α}
    (hs : Sound key probes s) (hi : s i = .live a) :
    ∀ j c, s j = .live c → (j = i ↔ key c = key a) := by
  intro j c hj
  constructor
  · rintro rfl
    rw [hi] at hj
    cases hj
    rfl
  · exact hs.unique j i c a hj hi

section

variable [DecidableEq I] {key : α → K} {probes : K → List I} {s : I → Slot α} {i : I} {a b : α}

theorem update_eq_live {x : Slot α} {j : I} {c : α} :
    update s i x j = .live c ↔ (j = i ∧ x = .live c) ∨ (j ≠ i ∧ s j = .live c) := by
  by_cases hji : j = i
  · subst hji
    simp
  · simp [hji]

theorem sound_update {x : Slot α} (hs : Sound key probes s) (hx : x ≠ .free)
    (hnew : ∀ b, x = .live b → (∃ p q, probes (key b) = p ++ i :: q ∧ ∀ j ∈ p, s j ≠ .free) ∧
      ∀ j c, s j = .live c → key c = key b → j = i) : Sound key probes (update s i x) := by
  have hfree : ∀ l : List I, (∀ j ∈ l, s j ≠ .free) → ∀ j ∈ l, update s i x j ≠ .free := by
    intro l hl j hj
    by_cases hji : j = i
    · simpa [hji] using hx
    · simpa [hji] using hl j hj
  constructor
  · intro j c hc
    have hreached : ∃ p q, probes (key c) = p ++ j :: q ∧ ∀ j ∈ p, s j ≠ .free := by
      rcases update_eq_live.mp hc with ⟨rfl,hlive⟩ | ⟨-,hj⟩
      · exact (hnew c hlive).1
      · exact hs.reached j c hj
    obtain ⟨p,q,hpq,hp⟩ := hreached
    exact ⟨p,q,hpq,hfree p hp⟩
  intro j l c d hc hd hcd
  rcases update_eq_live.mp hc with ⟨rfl,hlive⟩ | ⟨-,hj⟩
  · rcases update_eq_live.mp hd with ⟨rfl,-⟩ | ⟨-,hl⟩
    · rfl
    · exact ((hnew c hlive).2 l d hl hcd.symm).symm
  · rcases update_eq_live.mp hd with ⟨rfl,hlive⟩ | ⟨-,hl⟩
    · exact (hnew d hlive).2 j c hj hcd
    · exact hs.unique j l c d hj hl hcd

theorem sound_overwrite (hs : Sound key probes s) (hi : s i = .live a) (hab : key b = key a) :
    Sound key probes (update s i (.live b)) := by
  refine sound_update hs nofun ?_
  rintro c ⟨⟩
  rw [hab]
  exact ⟨hs.reached i a hi,fun j c hj => hs.unique j i c a hj hi⟩

theorem sound_delete (hs : Sound key probes s) (i : I) : Sound key probes (update s i .deleted) :=
  sound_update hs nofun nofun

end

section

variable {slots : Finset I} {s : I → Slot α} {i : I} {a : α}

def occupied (slots : Finset I) (s : I → Slot α) : Finset I := slots.filter fun i => (s i).isLive

theorem mem_occupied : i ∈ occupied slots s ↔ i ∈ slots ∧ ∃ a, s i = .live a := by
  simp only [occupied,Finset.mem_filter]
  cases hi : s i <;> simp [Slot.isLive]

variable [DecidableEq I]

theorem occupied_update_live (hi : i ∈ slots) :
    occupied slots (update s i (.live a)) = insert i (occupied slots s) := by
  ext j
  simp only [mem_occupied,update_eq_live,Finset.mem_insert]
  by_cases hji : j = i
  · subst hji
    simp [hi]
  · simp [hji]

theorem occupied_update_deleted :
    occupied slots (update s i .deleted) = (occupied slots s).erase i := by
  ext j
  simp only [mem_occupied,update_eq_live,Finset.mem_erase]
  by_cases hji : j = i <;> simp [hji]

theorem occupied_insert (hi : i ∈ slots) (hfree : ∀ a, s i ≠ .live a) :
    (occupied slots (update s i (.live a))).card = (occupied slots s).card + 1 := by
  rw [occupied_update_live hi,Finset.card_insert_of_notMem]
  rw [mem_occupied]
  rintro ⟨-,b,hb⟩
  exact hfree b hb

theorem occupied_delete (hi : i ∈ slots) (hlive : s i = .live a) :
    (occupied slots (update s i .deleted)).card = (occupied slots s).card - 1 := by
  rw [occupied_update_deleted,Finset.card_erase_of_mem (mem_occupied.mpr ⟨hi,a,hlive⟩)]

theorem occupied_overwrite {b : α} (hi : i ∈ slots) (hlive : s i = .live a) :
    occupied slots (update s i (.live b)) = occupied slots s := by
  rw [occupied_update_live hi,Finset.insert_eq_of_mem (mem_occupied.mpr ⟨hi,a,hlive⟩)]

end

variable [DecidableEq K]

def scan (key : α → K) (s : I → Slot α) (k : K) : Option I → List I → Place I
  | first, [] => .room first
  | first, i :: is =>
    match s i with
    | .free => .room (first.or (some i))
    | .deleted => scan key s k (first.or (some i)) is
    | .live a => if key a = k then .hit i else scan key s k first is

section

variable {key : α → K} {s : I → Slot α} {k : K} {i : I} {a : α} {is : List I} {first : Option I}

theorem scan_reaches {p q : List I} (hp : ∀ j ∈ p, s j ≠ .free)
    (hk : ∀ j ∈ p, ∀ b, s j = .live b → key b = k → j = i) (hi : s i = .live a) (ha : key a = k)
    (first : Option I) : scan key s k first (p ++ i :: q) = .hit i := by
  induction p generalizing first with
  | nil => simp [scan,hi,ha]
  | cons j p ih =>
    have hrest := ih (fun l hl => hp l (.tail _ hl)) (fun l hl => hk l (.tail _ hl))
    cases hj : s j with
    | free => exact absurd hj (hp j (.head _))
    | deleted => simpa [scan,hj] using hrest _
    | live b =>
      by_cases hb : key b = k
      · obtain rfl := hk j (.head _) b hj hb
        simp [scan,hj,hb]
      · simpa [scan,hj,hb] using hrest first

theorem scan_hit (h : scan key s k first is = .hit i) : ∃ a, s i = .live a ∧ key a = k := by
  induction is generalizing first with
  | nil => cases h
  | cons j is ih =>
    cases hj : s j with
    | free => simp [scan,hj] at h
    | deleted =>
      simp only [scan,hj] at h
      exact ih h
    | live b =>
      simp only [scan,hj] at h
      split at h
      · cases h
        exact ⟨b,hj,by assumption⟩
      · exact ih h

theorem scan_full (h : scan key s k first is = .room none) :
    first = none ∧ ∀ j ∈ is, ∃ a, s j = .live a := by
  induction is generalizing first with
  | nil =>
    simp only [scan,Place.room.injEq] at h
    exact ⟨h,by simp⟩
  | cons j is ih =>
    cases hj : s j with
    | free => simp [scan,hj] at h
    | deleted =>
      simp only [scan,hj] at h
      simpa using (ih h).1
    | live b =>
      simp only [scan,hj] at h
      split at h
      · cases h
      · obtain ⟨h1,h2⟩ := ih h
        exact ⟨h1,List.forall_mem_cons.mpr ⟨⟨b,hj⟩,h2⟩⟩

def RoomAt (s : I → Slot α) (i : I) (is : List I) : Prop :=
  ∃ p q, is = p ++ i :: q ∧ (∀ j ∈ p, s j ≠ .free) ∧ ∀ a, s i ≠ .live a

theorem scan_room (h : scan key s k first is = .room (some i)) :
    first = some i ∨ RoomAt s i is := by
  induction is generalizing first with
  | nil =>
    simp only [scan,Place.room.injEq] at h
    exact .inl h
  | cons j is ih =>
    have here (hf : first.or (some j) = some i) (hj : ∀ a, s j ≠ .live a) :
        first = some i ∨ RoomAt s i (j :: is) := by
      cases first with
      | some f => exact .inl (by simpa using hf)
      | none =>
        obtain rfl : j = i := by simpa using hf
        exact .inr ⟨[],is,rfl,by simp,hj⟩
    have there (hj : s j ≠ .free) (hr : RoomAt s i is) : RoomAt s i (j :: is) := by
      obtain ⟨p,q,rfl,hp,hi⟩ := hr
      exact ⟨j :: p,q,rfl,List.forall_mem_cons.mpr ⟨hj,hp⟩,hi⟩
    cases hj : s j with
    | free =>
      simp only [scan,hj,Place.room.injEq] at h
      exact here h (by simp [hj])
    | deleted =>
      simp only [scan,hj] at h
      rcases ih h with hf | hr
      · exact here hf (by simp [hj])
      · exact .inr (there (by simp [hj]) hr)
    | live b =>
      simp only [scan,hj] at h
      split at h
      · cases h
      · rcases ih h with hf | hr
        · exact .inl hf
        · exact .inr (there (by simp [hj]) hr)

end

def lookup (key : α → K) (probes : K → List I) (s : I → Slot α) (k : K) : Option α :=
  match scan key s k none (probes k) with
  | .room _ => none
  | .hit i =>
    match s i with
    | .live a => some a
    | _ => none

section

variable {key : α → K} {probes : K → List I} {s : I → Slot α} {k : K} {i : I} {a : α}

section

variable (hs : Sound key probes s)
include hs

theorem scan_eq_hit (hi : s i = .live a) (ha : key a = k) :
    scan key s k none (probes k) = .hit i := by
  obtain ⟨p,q,hpq,hp⟩ := hs.reached i a hi
  rw [← ha,hpq]
  refine scan_reaches hp ?_ hi rfl none
  intro j _ b hj hb
  exact hs.unique j i b a hj hi hb

theorem lookup_eq_some : lookup key probes s k = some a ↔ ∃ i, s i = .live a ∧ key a = k := by
  constructor
  · intro h
    unfold lookup at h
    split at h
    · cases h
    rename_i i hscan
    obtain ⟨b,hi,hb⟩ := scan_hit hscan
    rw [hi] at h
    cases h
    exact ⟨i,hi,hb⟩
  · rintro ⟨i,hi,ha⟩
    simp [lookup,scan_eq_hit hs hi ha,hi]

theorem lookup_eq_none : lookup key probes s k = none ↔ ∀ i a, s i = .live a → key a ≠ k := by
  rw [← not_iff_not,← ne_eq,Option.ne_none_iff_exists']
  simp only [lookup_eq_some hs,not_forall,not_not]
  constructor
  · rintro ⟨a,i,hi,ha⟩
    exact ⟨i,a,hi,ha⟩
  · rintro ⟨i,a,hi,ha⟩
    exact ⟨a,i,hi,ha⟩

theorem ncard_lookup {slots : Finset I} (hslots : ∀ i a, s i = .live a → i ∈ slots) :
    {k | lookup key probes s k ≠ none}.ncard = (occupied slots s).card := by
  let keyAt (i : I) : Option K :=
    match s i with
    | .live a => some (key a)
    | _ => none
  have himage : (some '' {k | lookup key probes s k ≠ none}) = keyAt '' (occupied slots s) := by
    ext x
    simp only [Set.mem_image,Set.mem_ofPred_eq,Finset.mem_coe,mem_occupied]
    constructor
    · rintro ⟨k,hk,rfl⟩
      obtain ⟨a,ha⟩ := Option.ne_none_iff_exists'.mp hk
      obtain ⟨i,hi,rfl⟩ := (lookup_eq_some hs).mp ha
      exact ⟨i,⟨hslots i a hi,a,hi⟩,by simp [keyAt,hi]⟩
    rintro ⟨i,⟨_,a,hi⟩,rfl⟩
    refine ⟨key a,?_,by simp [keyAt,hi]⟩
    rw [(lookup_eq_some hs).mpr ⟨i,hi,rfl⟩]
    simp
  have hinj : Set.InjOn keyAt (occupied slots s) := by
    intro i hi j hj hij
    obtain ⟨_,a,ha⟩ := mem_occupied.mp (Finset.mem_coe.mp hi)
    obtain ⟨_,b,hb⟩ := mem_occupied.mp (Finset.mem_coe.mp hj)
    refine hs.unique i j a b ha hb ?_
    simpa [keyAt,ha,hb] using hij
  rw [← Set.ncard_image_of_injective _ (Option.some_injective K),himage,
    hinj.ncard_image,Set.ncard_coe_finset]

end

theorem lookup_of_room {r : Option I} (h : scan key s k none (probes k) = .room r) :
    lookup key probes s k = none := by
  simp [lookup,h]

theorem occupied_full {slots : Finset I} (h : scan key s k none (probes k) = .room none)
    (hcover : ∀ i ∈ slots, i ∈ probes k) : occupied slots s = slots := by
  ext i
  rw [mem_occupied]
  exact ⟨fun hi => hi.1,fun hi => ⟨hi,(scan_full h).2 i (hcover i hi)⟩⟩

end

section

variable [DecidableEq I] {key : α → K} {probes : K → List I} {s : I → Slot α} {k : K} {i : I}
  {a b : α}

variable (hs : Sound key probes s)
include hs

theorem lookup_update {x : Slot α} (hs' : Sound key probes (update s i x))
    (hx : ∀ b, x = .live b → key b = k) (hk : ∀ j b, s j = .live b → (j = i ↔ key b = k)) :
    lookup key probes (update s i x) =
      update (lookup key probes s) k (match x with | .live b => some b | _ => none) := by
  funext l
  apply Option.ext
  intro c
  rw [lookup_eq_some hs']
  simp only [update_eq_live]
  by_cases hl : l = k
  · subst hl
    constructor
    · rintro ⟨j,⟨rfl,rfl⟩ | ⟨hji,hj⟩,hc⟩
      · simp
      · exact absurd ((hk j c hj).mpr hc) hji
    intro h
    cases x with
    | live d =>
      simp only [update_self,Option.some.injEq] at h
      subst h
      exact ⟨i,.inl ⟨rfl,rfl⟩,hx d rfl⟩
    | _ => simp at h
  rw [update_of_ne hl,lookup_eq_some hs]
  constructor
  · rintro ⟨j,⟨rfl,rfl⟩ | ⟨_,hj⟩,hc⟩
    · exact absurd (hc.symm.trans (hx c rfl)) hl
    · exact ⟨j,hj,hc⟩
  rintro ⟨j,hj,hc⟩
  refine ⟨j,.inr ⟨?_,hj⟩,hc⟩
  rintro rfl
  exact hl (hc.symm.trans ((hk j c hj).mp rfl))

theorem lookup_overwrite (hi : s i = .live a) (hab : key b = key a) :
    lookup key probes (update s i (.live b)) = update (lookup key probes s) (key a) (some b) := by
  refine lookup_update hs (sound_overwrite hs hi hab) ?_ (live_iff hs hi)
  rintro c ⟨⟩
  exact hab

theorem lookup_delete (hi : s i = .live a) : lookup key probes (update s i .deleted) =
      update (lookup key probes s) (key a) none :=
  lookup_update hs (sound_delete hs i) nofun (live_iff hs hi)

theorem sound_insert (h : scan key s (key a) none (probes (key a)) = .room (some i)) :
    Sound key probes (update s i (.live a)) := by
  obtain hf | ⟨p,q,hpq,hp,_⟩ := scan_room h
  · cases hf
  refine sound_update hs nofun ?_
  rintro c ⟨⟩
  refine ⟨⟨p,q,hpq,hp⟩,fun j c hj hc => ?_⟩
  exact absurd hc ((lookup_eq_none hs).mp (lookup_of_room h) j c hj)

theorem lookup_insert (h : scan key s (key a) none (probes (key a)) = .room (some i)) :
    lookup key probes (update s i (.live a)) = update (lookup key probes s) (key a) (some a) := by
  obtain hf | ⟨_,_,_,_,hi⟩ := scan_room h
  · cases hf
  refine lookup_update hs (sound_insert hs h) ?_ ?_
  · rintro c ⟨⟩
    rfl
  intro j c hj
  constructor
  · rintro rfl
    exact absurd hj (hi c)
  · intro hc
    exact absurd hc ((lookup_eq_none hs).mp (lookup_of_room h) j c hj)

end

section

variable {n g i h : Nat}

def stride (n g i : Nat) : Nat := if i ≤ g then n + i - g else i - g

theorem stride_modEq (hg : g < n) : stride n g i + g ≡ i [MOD n] := by
  unfold stride
  split
  · have hn : n + i - g + g = i + n := by omega
    rw [hn]
    exact Nat.add_modulus_modEq_iff.mpr rfl
  · have hn : i - g + g = i := by omega
    rw [hn]

theorem iterate_stride_modEq (hg : g < n) (k : Nat) : (stride n g)^[k] h + k * g ≡ h [MOD n] := by
  induction k with
  | zero => simp [Nat.ModEq.refl]
  | succ k ih =>
    rw [iterate_succ_apply',Nat.succ_mul,Nat.add_comm (k * g) g,← Nat.add_assoc]
    exact ((stride_modEq hg).add_right (k * g)).trans ih

theorem eq_of_modEq (hi : i ∈ Finset.Icc 1 n) (hh : h ∈ Finset.Icc 1 n) (he : i ≡ h [MOD n]) :
    i = h := by
  rw [Finset.mem_Icc] at hi hh
  have hmod : ∀ x, 1 ≤ x → x ≤ n → x % n = if x = n then 0 else x := by
    intro x h1 h2
    split
    · simp_all
    · exact Nat.mod_eq_of_lt (by omega)
  have he' : i % n = h % n := he
  rw [hmod i hi.1 hi.2,hmod h hh.1 hh.2] at he'
  split at he' <;> split at he' <;> omega

section

variable (hg : 1 ≤ g ∧ g < n)
include hg

theorem stride_mem (hi : i ∈ Finset.Icc 1 n) : stride n g i ∈ Finset.Icc 1 n := by
  rw [Finset.mem_Icc] at hi ⊢
  unfold stride
  split <;> omega

theorem iterate_stride_mem (hh : h ∈ Finset.Icc 1 n) (k : Nat) :
    (stride n g)^[k] h ∈ Finset.Icc 1 n := by
  induction k with
  | zero => exact hh
  | succ k ih =>
    rw [iterate_succ_apply']
    exact stride_mem hg ih

theorem iterate_stride_period (hh : h ∈ Finset.Icc 1 n) : (stride n g)^[n] h = h := by
  refine eq_of_modEq (iterate_stride_mem hg hh n) hh ?_
  have hmod := iterate_stride_modEq (h := h) hg.2 n
  have hng : (stride n g)^[n] h + n * g ≡ (stride n g)^[n] h [MOD n] := by
    simp [Nat.ModEq]
  exact hng.symm.trans hmod

theorem iterate_stride_inj (hn : n.Prime) {k l : Nat} (hkl : k < l) (hl : l < n) :
    (stride n g)^[k] h ≠ (stride n g)^[l] h := by
  intro he
  have hk := iterate_stride_modEq (h := h) hg.2 k
  have hl' := iterate_stride_modEq (h := h) hg.2 l
  rw [he] at hk
  have hmul : k * g ≡ l * g [MOD n] := Nat.ModEq.add_left_cancel' _ (hk.trans hl'.symm)
  have hdvd : n ∣ l * g - k * g := (Nat.modEq_iff_dvd' (Nat.mul_le_mul_right g hkl.le)).mp hmul
  rw [← Nat.sub_mul] at hdvd
  rcases hn.dvd_mul.mp hdvd with hd | hd <;> exact absurd (Nat.le_of_dvd (by omega) hd) (by omega)

theorem iterate_stride_covers (hn : n.Prime) (hh : h ∈ Finset.Icc 1 n) (hi : i ∈ Finset.Icc 1 n) :
    i ∈ List.iterate (stride n g) h n := by
  have hmaps : ∀ k ∈ Finset.range n, (stride n g)^[k] h ∈ Finset.Icc 1 n :=
    fun k _ => iterate_stride_mem hg hh k
  have hinj : Set.InjOn (fun k => (stride n g)^[k] h) (Finset.range n) := by
    intro k hk l hl he
    simp only [Finset.coe_range,Set.mem_Iio] at hk hl
    by_contra hne
    rcases Nat.lt_or_gt_of_ne hne with hlt | hlt
    · exact iterate_stride_inj hg hn hlt hl he
    · exact iterate_stride_inj hg hn hlt hk he.symm
  obtain ⟨k,hk,rfl⟩ := Finset.surj_on_of_inj_on_of_card_le
    (fun k _ => (stride n g)^[k] h) hmaps (fun k l hk hl he => hinj hk hl he) (by simp) i hi
  exact List.mem_iterate.mpr ⟨k,Finset.mem_range.mp hk,rfl⟩

end

end

end FuzzingTargets.Probing
