import FuzzingTargets.UBoot.HashTable.Table
import Mathlib.Tactic.Linarith

namespace FuzzingTargets.UBoot.HashTable

open Probing

def GoodSize (size : Nat) : Prop := size < 2 ^ 32 ∧ (size = 1 ∨ (size.Prime ∧ 5 ≤ size))

theorem minFac_ge_next {number div : Nat} (hodd : number % 2 = 1) (hdiv : div % 2 = 1)
    (hmin : div ≤ number.minFac) (hrem : number % div ≠ 0) : div + 2 ≤ number.minFac := by
  have hne : number.minFac ≠ div := by
    intro h
    exact hrem (Nat.mod_eq_zero_of_dvd (h ▸ number.minFac_dvd))
  have hminOdd : number.minFac % 2 ≠ 0 := by
    intro h
    have := Nat.mod_eq_zero_of_dvd ((Nat.dvd_of_mod_eq_zero h).trans number.minFac_dvd)
    omega
  omega

theorem prime_of_square {number div : Nat} (hlt : number < 2 ^ 32) (hone : 1 < number)
    (hmin : div ≤ number.minFac) (hrem : number % div ≠ 0)
    (hsquare : ¬div * div % 2 ^ 32 < number) : number.Prime := by
  by_contra hcomposite
  have hsq : number.minFac ^ 2 ≤ number := Nat.minFac_sq_le_self (by omega) hcomposite
  have hne : number.minFac ≠ div := by
    intro h
    exact hrem (Nat.mod_eq_zero_of_dvd (h ▸ number.minFac_dvd))
  have hlt' : div < number.minFac := by omega
  have hdd : div * div < number := by nlinarith
  rw [Nat.mod_eq_of_lt (by omega)] at hsquare
  exact hsquare hdd

theorem isprimeLoop_spec {number : Nat} (hodd : number % 2 = 1) (hone : 1 < number)
    (hlt : number < 2 ^ 32) (fuel : Nat) : ∀ div, div % 2 = 1 → div ≤ number.minFac →
    number < div + 2 * fuel → ∃ b, isprimeLoop number fuel div = some b ∧
      (b = true → number.Prime) := by
  have hle : number.minFac ≤ number := Nat.minFac_le (by omega)
  induction fuel with
  | zero =>
    intro div _ hmin hfuel
    omega
  | succ fuel ih =>
    intro div hdiv hmin hfuel
    unfold isprimeLoop
    split
    · rename_i h
      have hnext := minFac_ge_next hodd hdiv hmin h.2
      rw [Nat.mod_eq_of_lt (by omega)]
      exact ih (div + 2) (by omega) hnext (by omega)
    rename_i h
    refine ⟨_,rfl,?_⟩
    intro hb
    have hrem : number % div ≠ 0 := by simpa using hb
    exact prime_of_square hlt hone hmin hrem fun hsq => h ⟨hsq,hrem⟩

theorem isprime_spec (number : Nat) (hodd : number % 2 = 1) (hlt : number < 2 ^ 32) :
    ∃ b, isprime number = some b ∧ (b = true → GoodSize number) := by
  by_cases h1 : number = 1
  · subst h1
    exact ⟨true,by decide,fun _ => ⟨hlt,.inl rfl⟩⟩
  by_cases h3 : number = 3
  · subst h3
    exact ⟨false,by decide,nofun⟩
  have hmin : 3 ≤ number.minFac := by
    have htwo := (Nat.minFac_prime h1).two_le
    have hne : number.minFac ≠ 2 := by
      intro h
      have := Nat.mod_eq_zero_of_dvd (h ▸ number.minFac_dvd)
      omega
    omega
  obtain ⟨b,hb,hprime⟩ :=
    isprimeLoop_spec hodd (by omega) hlt (2 ^ 31) 3 (by decide) hmin (by omega)
  exact ⟨b,hb,fun h => ⟨hlt,.inr ⟨hprime h,by omega⟩⟩⟩

theorem hcreateLoop_spec (fuel : Nat) : ∀ nel k, nel % 2 = 1 → k < fuel →
    (nel + 2 * k) % 2 ^ 32 = 1 → ∃ size, hcreateLoop fuel nel = some size ∧ GoodSize size := by
  induction fuel with
  | zero =>
    intro nel k _ hk
    omega
  | succ fuel ih =>
    intro nel k hodd hk hone
    obtain ⟨b,hb,hgood⟩ := isprime_spec (nel % 2 ^ 32) (by omega) (by omega)
    cases b with
    | true => exact ⟨nel % 2 ^ 32,by simp only [hcreateLoop,hb],hgood rfl⟩
    | false =>
      simp only [hcreateLoop,hb]
      cases k with
      | zero =>
        have : nel % 2 ^ 32 = 1 := by simpa using hone
        rw [this] at hb
        exact absurd hb (by decide)
      | succ k => exact ih _ k (by omega) (by omega) (by omega)

theorem hcreateR_spec (nel : Nat) :
    ∃ size, hcreateR nel = some ⟨size,0,fun _ => .free⟩ ∧ GoodSize size := by
  have hodd : (nel ||| 1) % 2 = 1 := by simp
  obtain ⟨size,hsize,hgood⟩ := hcreateLoop_spec (2 ^ 31) (nel ||| 1)
    ((2 ^ 32 + 1 - (nel ||| 1) % 2 ^ 32) / 2 % 2 ^ 31) hodd (by omega) (by omega)
  exact ⟨size,by rw [hcreateR,hsize,Option.map_some],hgood⟩

open Probing List

def keyOf (used : Used) : CString := used.entry.key

def probes (size : Nat) (key : CString) : List Nat :=
  List.iterate (nextIdx size (secondHash size (firstHash size key))) (firstHash size key) size

section

variable {size : Nat}

theorem firstHash_mem (hsize : GoodSize size) (key : CString) :
    firstHash size key ∈ Finset.Icc 1 size := by
  have hpos : 0 < size := by
    obtain ⟨_,h | h⟩ := hsize <;> omega
  have hmod : hashKey key % size < size := Nat.mod_lt _ hpos
  rw [Finset.mem_Icc]
  simp only [firstHash]
  split <;> omega

theorem secondHash_range (hlt : size < 2 ^ 32) (hfive : 5 ≤ size) (hval : Nat) :
    1 ≤ secondHash size hval ∧ secondHash size hval < size := by
  have hsub : wrapSub size 2 = size - 2 := if_pos (by omega)
  have hmod : hval % (size - 2) < size - 2 := Nat.mod_lt _ (by omega)
  simp only [secondHash,hsub]
  omega

theorem nextIdx_eq_stride (hlt : size < 2 ^ 32) {hval2 : Nat} (hg : 1 ≤ hval2 ∧ hval2 < size)
    (idx : Nat) : nextIdx size hval2 idx = stride size hval2 idx := by
  rw [nextIdx,stride]
  by_cases h : idx ≤ hval2
  · rw [if_pos h,if_pos h,wrapSub]
    split <;> omega
  · rw [if_neg h,if_neg h]

theorem iterate_nextIdx (hlt : size < 2 ^ 32) {hval2 hval : Nat} (hg : 1 ≤ hval2 ∧ hval2 < size)
    (k : Nat) : (nextIdx size hval2)^[k] hval = (stride size hval2)^[k] hval := by
  induction k with
  | zero => rw [Function.iterate_zero_apply,Function.iterate_zero_apply]
  | succ k ih =>
    rw [Function.iterate_succ_apply',Function.iterate_succ_apply',ih,nextIdx_eq_stride hlt hg]

theorem mem_probes (hsize : GoodSize size) (key : CString) (i : Nat) :
    i ∈ probes size key ↔ i ∈ Finset.Icc 1 size := by
  have hh := firstHash_mem hsize key
  obtain ⟨hlt,rfl | ⟨hprime,hfive⟩⟩ := hsize
  · rw [Finset.mem_Icc] at hh ⊢
    have : firstHash 1 key = 1 := by omega
    simp only [probes,iterate,mem_singleton,this]
    omega
  have hg := secondHash_range hlt hfive (firstHash size key)
  constructor
  · intro hi
    obtain ⟨k,_,rfl⟩ := mem_iterate.mp hi
    rw [iterate_nextIdx hlt hg]
    exact iterate_stride_mem hg hh k
  · intro hi
    obtain ⟨k,hk,rfl⟩ := mem_iterate.mp (iterate_stride_covers hg hprime hh hi)
    exact mem_iterate.mpr ⟨k,hk,(iterate_nextIdx hlt hg k).symm⟩

end

section

variable {ρ : Type} {table : Nat → Slot Used} {compare : Nat → Option ρ} {size hval hval2 : Nat}
  {key : CString}

def firstPlace (firstDeleted : Nat) : Option Nat :=
  if firstDeleted = 0 then none else some firstDeleted

theorem firstPlace_or {firstDeleted j : Nat} (hj : j ≠ 0) :
    (firstPlace firstDeleted).or (some j) =
      firstPlace (if firstDeleted = 0 then j else firstDeleted) := by
  by_cases h : firstDeleted = 0
  · simp [firstPlace,h,hj]
  · simp [firstPlace,h]

def Settles (compare : Nat → Option ρ) (place : Place Nat) (out : Option (ρ ⊕ (Nat × Nat))) :
    Prop :=
  match place with
  | .hit i => ∃ r, compare i = some r ∧ out = some (.inl r)
  | .room o => ∃ idx firstDeleted, out = some (.inr (idx,firstDeleted)) ∧
      ∀ i, o = some i → (if firstDeleted ≠ 0 then firstDeleted else idx) = i

theorem settles_room {i firstDeleted : Nat} (o : Option Nat)
    (ho : ∀ j, o = some j → firstPlace firstDeleted = some j ∨ (firstDeleted = 0 ∧ i = j)) :
    Settles compare (.room o) (some (.inr (i,firstDeleted))) := by
  refine ⟨i,firstDeleted,rfl,?_⟩
  intro j hj
  rcases ho j hj with hf | ⟨hf,hij⟩
  · unfold firstPlace at hf
    split at hf
    · cases hf
    · rename_i hne
      rw [if_pos hne]
      exact Option.some.inj hf
  · simp [hf,hij]

theorem probeLoop_settles (hhit : ∀ i u, table i = .live u → u.entry.key = key → (compare i).isSome)
    (hmiss : ∀ i, (∀ u, table i = .live u → u.entry.key ≠ key) → compare i = none) (m : Nat) :
    ∀ fuel idx firstDeleted, m < fuel →
    (∀ j ∈ iterate (nextIdx size hval2) (nextIdx size hval2 idx) m, j ≠ hval ∧ j ≠ 0) →
    ((nextIdx size hval2)^[m + 1] idx = hval ∨ table ((nextIdx size hval2)^[m + 1] idx) = .free) →
    Settles compare (scan keyOf table key (firstPlace firstDeleted)
        (iterate (nextIdx size hval2) (nextIdx size hval2 idx) m))
      (probeLoop table compare size hval hval2 fuel idx firstDeleted) := by
  induction m with
  | zero =>
    intro fuel idx firstDeleted hfuel _ hlast
    obtain _ | fuel := fuel
    · omega
    simp only [zero_add,Function.iterate_one] at hlast
    simp only [iterate,scan,probeLoop]
    by_cases hback : nextIdx size hval2 idx = hval
    · rw [if_pos hback]
      exact settles_room _ fun j hj => .inl hj
    have hfree := hlast.resolve_left hback
    have hcompare : compare (nextIdx size hval2 idx) = none :=
      hmiss _ fun u hu => by rw [hfree] at hu; cases hu
    simp only [if_neg hback,hcompare,hfree]
    exact settles_room _ fun j hj => .inl (by simpa using hj)
  | succ m ih =>
    intro fuel idx firstDeleted hfuel hne hlast
    obtain _ | fuel := fuel
    · omega
    simp only [iterate] at hne ⊢
    obtain ⟨⟨hj,hj0⟩,hrest⟩ := forall_mem_cons.mp hne
    have hnext := fun d => ih fuel (nextIdx size hval2 idx) d (by omega) hrest hlast
    simp only [probeLoop,if_neg hj,scan]
    cases htable : table (nextIdx size hval2 idx) with
    | free =>
      have hcompare := hmiss (nextIdx size hval2 idx) fun u hu => by rw [htable] at hu; cases hu
      simp only [hcompare]
      refine settles_room _ ?_
      intro j hj'
      by_cases hd : firstDeleted = 0
      · exact .inr ⟨by simp [hd],by simpa [firstPlace,hd] using hj'⟩
      · exact .inl (by simpa [firstPlace,hd] using hj')
    | deleted =>
      have hcompare := hmiss (nextIdx size hval2 idx) fun u hu => by rw [htable] at hu; cases hu
      simp only [hcompare,true_and]
      rw [firstPlace_or hj0]
      exact hnext _
    | live u =>
      by_cases hkey : u.entry.key = key
      · obtain ⟨r,hr⟩ := Option.isSome_iff_exists.mp (hhit _ u htable hkey)
        simp only [keyOf,hkey,hr,if_true]
        exact ⟨r,hr,rfl⟩
      have hcompare := hmiss (nextIdx size hval2 idx) fun v hv => by
        rw [htable] at hv
        cases hv
        exact hkey
      simp only [keyOf,hkey,hcompare]
      simpa using hnext firstDeleted

end

def advance (size : Nat) (key : CString) : Nat → Nat :=
  nextIdx size (secondHash size (firstHash size key))

def later (size : Nat) (key : CString) : List Nat :=
  iterate (advance size key) (advance size key (firstHash size key)) (size - 1)

section

variable {size : Nat} (hsize : GoodSize size) (key : CString)
include hsize key

theorem probes_eq_cons : probes size key = firstHash size key :: later size key := by
  have hpos : size = size - 1 + 1 := by
    obtain ⟨_,h | h⟩ := hsize <;> omega
  unfold probes
  rw [hpos,iterate,← hpos]
  rfl

theorem loop_avoids_start (j : Nat) (hj : j ∈ later size key) : j ≠ firstHash size key ∧ j ≠ 0 := by
  have hh := firstHash_mem hsize key
  obtain ⟨hlt,rfl | ⟨hprime,hfive⟩⟩ := hsize
  · cases hj
  have hg := secondHash_range hlt hfive (firstHash size key)
  obtain ⟨k,hk,rfl⟩ := mem_iterate.mp hj
  rw [← Function.iterate_succ_apply,advance,iterate_nextIdx hlt hg]
  constructor
  · exact (iterate_stride_inj hg hprime (k := 0) (by omega) (by omega)).symm
  · exact Nat.pos_iff_ne_zero.mp (Finset.mem_Icc.mp (iterate_stride_mem hg hh (k + 1))).1

theorem loop_ends : (advance size key)^[size - 1 + 1] (firstHash size key) = firstHash size key ∨
      (advance size key)^[size - 1 + 1] (firstHash size key) = 0 := by
  have hh := firstHash_mem hsize key
  obtain ⟨hlt,rfl | ⟨hprime,hfive⟩⟩ := hsize
  · have hone : firstHash 1 key = 1 := by
      have := Finset.mem_Icc.mp hh
      omega
    rw [advance,hone]
    exact .inr (by decide)
  have hg := secondHash_range hlt hfive (firstHash size key)
  have hsucc : size - 1 + 1 = size := by omega
  rw [hsucc,advance,iterate_nextIdx hlt hg]
  exact .inl (iterate_stride_period hg hh)

end

structure Valid (htab : HsearchData) : Prop where
  size : GoodSize htab.size
  sound : Sound keyOf (probes htab.size) htab.table
  hashed : ∀ i u, htab.table i = .live u → u.hval = firstHash htab.size u.entry.key
  inside : ∀ i u, htab.table i = .live u → i ∈ Finset.Icc 1 htab.size
  zero : htab.table 0 = .free
  filled : htab.filled = (occupied (Finset.Icc 1 htab.size) htab.table).card

theorem Valid.bounds {htab : HsearchData} (hv : Valid htab) {i : Nat} {u : Used}
    (hi : htab.table i = .live u) : 1 ≤ i ∧ i ≤ htab.size :=
  Finset.mem_Icc.mp (hv.inside i u hi)

theorem Valid.hval_bounds {htab : HsearchData} (hv : Valid htab) {i : Nat} {u : Used}
    (hi : htab.table i = .live u) : 1 ≤ u.hval ∧ u.hval ≤ htab.size := by
  rw [hv.hashed i u hi]
  exact Finset.mem_Icc.mp (firstHash_mem hv.size u.entry.key)

def place (htab : HsearchData) (key : CString) : Place Nat :=
  scan keyOf htab.table key none (probes htab.size key)

section

variable {htab : HsearchData} {policy : Policy} {key : CString} {action : Action} {flag : Nat}

theorem compare_miss {hval i : Nat} (h : ∀ u, htab.table i = .live u → u.entry.key ≠ key) :
    compareAndOverwriteEntry policy key action htab flag hval i = none := by
  unfold compareAndOverwriteEntry
  split
  · rfl
  · rfl
  rename_i u hu
  rw [if_neg]
  rintro ⟨_,hkey⟩
  exact h u hu hkey.symm

theorem compare_hit (policy : Policy) (action : Action) (flag : Nat) (hv : Valid htab) {i : Nat}
    {u : Used} (hi : htab.table i = .live u) (hkey : u.entry.key = key) :
    (compareAndOverwriteEntry policy key action htab flag (firstHash htab.size key) i).isSome := by
  have hval := hv.hashed i u hi
  rw [hkey] at hval
  unfold compareAndOverwriteEntry
  rw [hi]
  dsimp only
  rw [if_pos ⟨hval,hkey.symm⟩]
  cases action with
  | find => rfl
  | enter data =>
    dsimp only
    split
    · rfl
    · split <;> rfl

def Answers (policy : Policy) (key : CString) (action : Action) (htab : HsearchData) (flag : Nat)
    (out : Except Fault (Answer × HsearchData)) : Place Nat → Prop
  | .hit i => ∃ r, compareAndOverwriteEntry policy key action htab flag
      (firstHash htab.size key) i = some r ∧ out = .ok r
  | .room o => ∃ idx firstDeleted,
      out = .ok (createEntry policy key action htab flag (firstHash htab.size key) idx
        firstDeleted) ∧
      ∀ i, o = some i → (if firstDeleted ≠ 0 then firstDeleted else idx) = i

theorem hsearchR_loop (policy : Policy) (key : CString) (action : Action) (flag : Nat)
    (hv : Valid htab) (firstDeleted : Nat) :
    Settles (compareAndOverwriteEntry policy key action htab flag (firstHash htab.size key))
      (scan keyOf htab.table key (firstPlace firstDeleted) (later htab.size key))
      (probeLoop htab.table
        (compareAndOverwriteEntry policy key action htab flag (firstHash htab.size key))
        htab.size (firstHash htab.size key) (secondHash htab.size (firstHash htab.size key))
        htab.size (firstHash htab.size key) firstDeleted) := by
  have hstart := Finset.mem_Icc.mp (firstHash_mem hv.size key)
  refine probeLoop_settles ?_ ?_ (htab.size - 1) htab.size _ firstDeleted (by omega)
    (loop_avoids_start hv.size key) ?_
  · intro i u hi hkey
    exact compare_hit policy action flag hv hi hkey
  · intro i hi
    exact compare_miss hi
  refine (loop_ends hv.size key).imp_right ?_
  intro h
  exact (congrArg htab.table h).trans hv.zero

theorem answers_of_settles (place : Place Nat) (out : Option ((Answer × HsearchData) ⊕ (Nat × Nat))) :
    Settles (compareAndOverwriteEntry policy key action htab flag (firstHash htab.size key))
      place out →
    Answers policy key action htab flag
      (match out with
      | none => .error .endless
      | some (.inl r) => .ok r
      | some (.inr (idx,firstDeleted)) =>
        .ok (createEntry policy key action htab flag (firstHash htab.size key) idx firstDeleted))
      place := by
  intro h
  cases place with
  | hit i =>
    obtain ⟨r,hr,rfl⟩ := h
    exact ⟨r,hr,rfl⟩
  | room o =>
    obtain ⟨idx,firstDeleted,rfl,ho⟩ := h
    exact ⟨idx,firstDeleted,rfl,ho⟩

theorem hsearchR_answers (policy : Policy) (key : CString) (action : Action) (flag : Nat)
    (hv : Valid htab) : Answers policy key action htab flag (hsearchR policy key action htab flag)
      (place htab key) := by
  have hstart := Finset.mem_Icc.mp (firstHash_mem hv.size key)
  have hne : firstHash htab.size key ≠ 0 := by omega
  rw [place,probes_eq_cons hv.size]
  unfold scan hsearchR
  dsimp only
  cases hslot : htab.table (firstHash htab.size key) with
  | free =>
    exact ⟨_,_,rfl,fun i hi => by simpa using hi⟩
  | deleted =>
    rw [if_neg (by simp),compare_miss fun u hu => by rw [hslot] at hu; cases hu]
    have hplace : firstPlace (firstHash htab.size key) = some (firstHash htab.size key) :=
      if_neg hne
    have hloop := answers_of_settles _ _
      (hsearchR_loop policy key action flag hv (firstHash htab.size key))
    rw [hplace] at hloop
    exact hloop
  | live u =>
    by_cases hkey : u.entry.key = key
    · obtain ⟨r,hr⟩ := Option.isSome_iff_exists.mp
        (compare_hit policy action flag hv hslot hkey)
      rw [hr]
      simp only [keyOf,hkey,if_true]
      exact ⟨r,hr,rfl⟩
    · rw [compare_miss fun v hv => by rw [hslot] at hv; cases hv; exact hkey]
      simp only [keyOf,hkey,if_false,reduceCtorEq]
      exact answers_of_settles _ _ (hsearchR_loop policy key action flag hv 0)

end

end FuzzingTargets.UBoot.HashTable
