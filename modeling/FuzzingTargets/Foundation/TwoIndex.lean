import Mathlib.Data.List.Sort

namespace FuzzingTargets.TwoIndex
open List Function

structure Table (K R : Type) where
  list : List Nat
  hash : K → Option Nat
  heap : Nat → R
  next : Nat

variable {K O R : Type}

namespace Table

def Has (t : Table K R) (x : R) : Prop := ∃ r ∈ t.list, t.heap r = x

structure Consistent (key : R → K) (owner : R → O) (t : Table K R) : Prop where
  nodup : t.list.Nodup
  hash_iff : ∀ k r, t.hash k = some r ↔ r ∈ t.list ∧ key (t.heap r) = k
  owners : ∀ r ∈ t.list, ∀ r' ∈ t.list, owner (t.heap r) = owner (t.heap r') → r = r'
  fresh : ∀ r ∈ t.list, r < t.next

section

variable {key : R → K} {owner : R → O} {t : Table K R} {r : Nat} {k : K} {x y : R}

variable (h : Consistent key owner t)
include h

theorem Consistent.keys {r r' : Nat} (hr : r ∈ t.list) (hr' : r' ∈ t.list)
    (hkey : key (t.heap r) = key (t.heap r')) : r = r' := by
  have hhash := (h.hash_iff (key (t.heap r')) r).mpr ⟨hr,hkey⟩
  have hhash' := (h.hash_iff (key (t.heap r')) r').mpr ⟨hr',rfl⟩
  exact Option.some.inj (hhash.symm.trans hhash')

theorem Consistent.eq_of_key (hx : t.Has x) (hy : t.Has y) (hkey : key x = key y) : x = y := by
  obtain ⟨r,hr,rfl⟩ := hx
  obtain ⟨r',hr',rfl⟩ := hy
  rw [h.keys hr hr' hkey]

theorem Consistent.eq_of_owner (hx : t.Has x) (hy : t.Has y)
    (howner : owner x = owner y) : x = y := by
  obtain ⟨r,hr,rfl⟩ := hx
  obtain ⟨r',hr',rfl⟩ := hy
  rw [h.owners r hr r' hr' howner]

theorem Consistent.hash_none : t.hash k = none ↔ ∀ y, t.Has y → key y ≠ k := by
  constructor
  · rintro hnone y ⟨r,hr,rfl⟩ hkey
    have := (h.hash_iff k r).mpr ⟨hr,hkey⟩
    rw [hnone] at this
    cases this
  intro hy
  refine Option.eq_none_iff_forall_ne_some.mpr fun r hr => ?_
  obtain ⟨hmem,hkey⟩ := (h.hash_iff k r).mp hr
  exact hy _ ⟨r,hmem,rfl⟩ hkey

theorem Consistent.hash_some (hr : t.hash k = some r) : t.Has (t.heap r) ∧ key (t.heap r) = k := by
  obtain ⟨hmem,hkey⟩ := (h.hash_iff k r).mp hr
  exact ⟨⟨r,hmem,rfl⟩,hkey⟩

end

variable [DecidableEq K]

def detach (t : Table K R) (r : Nat) (k : K) : Table K R :=
  { t with list := t.list.erase r, hash := update t.hash k none }

def place (before : R → R → Prop) [DecidableRel before] (heap : Nat → R) (r : Nat)
    (list : List Nat) : List Nat :=
  list.orderedInsert (fun a b => before (heap a) (heap b)) r

def attach (before : R → R → Prop) [DecidableRel before] (t : Table K R) (r : Nat) (k : K)
    (x : R) : Table K R :=
  { t with
    list := place before (update t.heap r x) r t.list
    hash := update t.hash k (some r)
    heap := update t.heap r x }

def replace (before : R → R → Prop) [DecidableRel before] (t : Table K R) (r : Nat) (x : R) :
    Table K R :=
  { t with
    list := place before (update t.heap r x) r (t.list.erase r)
    heap := update t.heap r x }

section

variable {key : R → K} {owner : R → O} {t : Table K R} {before : R → R → Prop}
  [DecidableRel before] {r : Nat} {k : K} {x y : R}

theorem mem_place {heap : Nat → R} {list : List Nat} {a : Nat} :
    a ∈ place before heap r list ↔ a = r ∨ a ∈ list := mem_orderedInsert _

theorem place_nodup {heap : Nat → R} {list : List Nat} (hl : list.Nodup) (hr : r ∉ list) :
    (place before heap r list).Nodup :=
  (perm_orderedInsert _ r list).nodup_iff.mpr (nodup_cons.mpr ⟨hr,hl⟩)

theorem has_attach (hr : r ∉ t.list) : (t.attach before r k x).Has y ↔ y = x ∨ t.Has y := by
  constructor
  · rintro ⟨r',hr',rfl⟩
    rcases mem_place.mp hr' with rfl | hmem
    · exact .inl (update_self _ _ _)
    · have hne : r' ≠ r := fun heq => hr (heq ▸ hmem)
      exact .inr ⟨r',hmem,(update_of_ne hne _ _).symm⟩
  rintro (rfl | ⟨r',hr',rfl⟩)
  · exact ⟨r,mem_place.mpr (.inl rfl),update_self _ _ _⟩
  · have hne : r' ≠ r := fun heq => hr (heq ▸ hr')
    exact ⟨r',mem_place.mpr (.inr hr'),update_of_ne hne _ _⟩

variable (h : Consistent key owner t)
include h

theorem has_detach (hr : r ∈ t.list) : (t.detach r k).Has x ↔ t.Has x ∧ x ≠ t.heap r := by
  constructor
  · rintro ⟨r',hr',rfl⟩
    obtain ⟨hne,hmem⟩ := h.nodup.mem_erase_iff.mp hr'
    refine ⟨⟨r',hmem,rfl⟩,fun heq => hne ?_⟩
    exact h.keys hmem hr (congrArg key heq)
  · rintro ⟨⟨r',hr',rfl⟩,hne⟩
    refine ⟨r',h.nodup.mem_erase_iff.mpr ⟨fun heq => hne ?_,hr'⟩,rfl⟩
    exact congrArg t.heap heq

theorem detach_consistent (hr : r ∈ t.list)
    (hk : key (t.heap r) = k) : Consistent key owner (t.detach r k) := by
  have hmem : ∀ {a}, a ∈ (t.detach r k).list ↔ a ≠ r ∧ a ∈ t.list := h.nodup.mem_erase_iff
  constructor
  · exact h.nodup.erase r
  · intro k' r'
    change update t.hash k none k' = some r' ↔ _ ∧ key (t.heap r') = k'
    rw [hmem]
    by_cases hk' : k' = k
    · subst hk'
      simp only [update_self,reduceCtorEq,false_iff]
      rintro ⟨⟨hne,hr'⟩,hkey⟩
      exact hne (h.keys hr' hr (hkey.trans hk.symm))
    rw [update_of_ne hk',h.hash_iff]
    constructor
    · rintro ⟨hr',rfl⟩
      exact ⟨⟨fun heq => hk' (by rw [heq,hk]),hr'⟩,rfl⟩
    · rintro ⟨⟨-,hr'⟩,hkey⟩
      exact ⟨hr',hkey⟩
  · intro a ha b hb
    exact h.owners a (hmem.mp ha).2 b (hmem.mp hb).2
  · intro a ha
    exact h.fresh a (hmem.mp ha).2

theorem attach_consistent (hr : r ∉ t.list) (hlt : r < t.next) (hkey : ∀ y, t.Has y → key y ≠ key x)
    (howner : ∀ y, t.Has y → owner y ≠ owner x) :
    Consistent key owner (t.attach before r (key x) x) := by
  have hself : (t.attach before r (key x) x).heap r = x := update_self _ _ _
  have hother : ∀ {a}, a ∈ t.list → (t.attach before r (key x) x).heap a = t.heap a := by
    intro a ha
    have hne : a ≠ r := fun heq => hr (heq ▸ ha)
    exact update_of_ne hne _ _
  constructor
  · exact place_nodup h.nodup hr
  · intro k' r'
    change update t.hash (key x) (some r) k' = some r' ↔ r' ∈ place _ _ _ _ ∧ _
    rw [mem_place]
    by_cases hk' : k' = key x
    · subst hk'
      rw [update_self]
      constructor
      · rintro ⟨⟩
        exact ⟨.inl rfl,congrArg key hself⟩
      rintro ⟨rfl | hr',heq⟩
      · rfl
      · rw [hother hr'] at heq
        exact absurd heq (hkey _ ⟨r',hr',rfl⟩)
    rw [update_of_ne hk',h.hash_iff]
    constructor
    · rintro ⟨hr',heq⟩
      exact ⟨.inr hr',by rw [hother hr',heq]⟩
    rintro ⟨rfl | hr',heq⟩
    · rw [hself] at heq
      exact absurd heq.symm hk'
    · rw [hother hr'] at heq
      exact ⟨hr',heq⟩
  · intro a ha b hb heq
    rcases mem_place.mp ha with rfl | ha' <;> rcases mem_place.mp hb with rfl | hb'
    · rfl
    · rw [hself,hother hb'] at heq
      exact absurd heq.symm (howner _ ⟨b,hb',rfl⟩)
    · rw [hself,hother ha'] at heq
      exact absurd heq (howner _ ⟨a,ha',rfl⟩)
    · rw [hother ha',hother hb'] at heq
      exact h.owners a ha' b hb' heq
  intro a ha
  rcases mem_place.mp ha with rfl | ha'
  · exact hlt
  · exact h.fresh a ha'

theorem has_replace (hr : r ∈ t.list) :
    (t.replace before r x).Has y ↔ y = x ∨ t.Has y ∧ y ≠ t.heap r := by
  have hnot : r ∉ (t.detach r (key (t.heap r))).list := fun hmem =>
    (h.nodup.mem_erase_iff.mp hmem).1 rfl
  rw [← @has_detach K O R _ key owner t r (key (t.heap r)) y h hr,
    ← @has_attach K R _ (t.detach r (key (t.heap r))) before _ r (key (t.heap r)) x y hnot]
  rfl

theorem replace_consistent (hr : r ∈ t.list) (hkey : key x = key (t.heap r))
    (howner : owner x = owner (t.heap r)) : Consistent key owner (t.replace before r x) := by
  have hdetach := detach_consistent h hr rfl
  have hnot : r ∉ (t.detach r (key (t.heap r))).list := fun hmem =>
    (h.nodup.mem_erase_iff.mp hmem).1 rfl
  have hattach := @attach_consistent K O R _ key owner _ before _ r x hdetach hnot (h.fresh r hr)
    (fun y hy heq => by
      obtain ⟨hy,hne⟩ := (has_detach h hr).mp hy
      exact hne (h.eq_of_key hy ⟨r,hr,rfl⟩ (heq.trans hkey)))
    (fun y hy heq => by
      obtain ⟨hy,hne⟩ := (has_detach h hr).mp hy
      exact hne (h.eq_of_owner hy ⟨r,hr,rfl⟩ (heq.trans howner)))
  have hhash : update (update t.hash (key (t.heap r)) none) (key x) (some r) =
      t.hash := by
    rw [hkey,update_idem]
    exact update_eq_self_iff.mpr ((h.hash_iff _ r).mpr ⟨hr,rfl⟩).symm
  have heq : (t.detach r (key (t.heap r))).attach before r (key x) x = t.replace before r x := by
    simp only [attach,detach,replace,hhash]
  exact heq ▸ hattach

end

section

variable {α : Type} [LinearOrder α] {rank : R → α} {t : Table K R} {before : R → R → Prop}
  [DecidableRel before] {heap : Nat → R} {list : List Nat} {r : Nat} {k : K} {x : R}

def Descending (rank : R → α) (heap : Nat → R) (list : List Nat) : Prop :=
  list.Pairwise fun a b => rank (heap b) ≤ rank (heap a)

theorem place_descending (h : Descending rank heap list)
    (hagree : ∀ a ∈ list, before (heap r) (heap a) ↔ rank (heap a) ≤ rank (heap r)) :
    Descending rank heap (place before heap r list) := by
  induction list with
  | nil => exact pairwise_singleton _ _
  | cons b list ih =>
    obtain ⟨hb,hlist⟩ := pairwise_cons.mp h
    have hfirst := hagree b mem_cons_self
    unfold place
    rw [List.orderedInsert]
    split
    · rename_i hbefore
      refine pairwise_cons.mpr ⟨fun a ha => ?_,h⟩
      rcases mem_cons.mp ha with rfl | ha
      · exact hfirst.mp hbefore
      · exact (hb a ha).trans (hfirst.mp hbefore)
    rename_i hafter
    refine pairwise_cons.mpr ⟨fun a ha => ?_,ih hlist ?_⟩
    · rcases (mem_orderedInsert _).mp ha with rfl | ha
      · exact (lt_of_not_ge (mt hfirst.mpr hafter)).le
      · exact hb a ha
    · exact fun a ha => hagree a (.tail _ ha)

theorem update_descending (hr : r ∉ list) (h : Descending rank heap list) :
    Descending rank (update heap r x) list := by
  refine Pairwise.imp_of_mem (fun ha hb hle => ?_) h
  rw [update_of_ne (ne_of_mem_of_not_mem ha hr),
    update_of_ne (ne_of_mem_of_not_mem hb hr)]
  exact hle

theorem placed_descending (hr : r ∉ list) (h : Descending rank heap list)
    (hagree : ∀ a ∈ list, before x (heap a) ↔ rank (heap a) ≤ rank x) :
    Descending rank (update heap r x) (place before (update heap r x) r list) := by
  refine place_descending (update_descending hr h) fun a ha => ?_
  rw [update_self,update_of_ne (ne_of_mem_of_not_mem ha hr)]
  exact hagree a ha

end

end Table

end FuzzingTargets.TwoIndex
