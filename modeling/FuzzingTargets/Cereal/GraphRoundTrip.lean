import FuzzingTargets.Cereal.SharedPointers
import Mathlib.Data.List.Forall2
import Mathlib.Data.List.Perm.Subperm

namespace FuzzingTargets.Cereal.PointerGraph
open List

variable {C V : Type}

inductive Ownership where
  | shared
  | weak
  deriving DecidableEq

inductive Kind (C : Type) where
  | value
  | pointer (own : Ownership) (cls : C)
  deriving DecidableEq

inductive Field (V : Type) where
  | value (v : V)
  | pointer (own : Ownership) (target : Option Nat)
  deriving DecidableEq

structure Object (C V : Type) where
  addr : Nat
  cls : C
  fields : List (Field V)
  deriving DecidableEq

def lock (objects : List (Object C V)) (own : Ownership) (target : Option Nat) : Option Nat :=
  match own with
  | .shared => target
  | .weak => target.filter (· < objects.length)

def addrOf (objects : List (Object C V)) (o : Nat) : Nat :=
  match objects[o]? with
  | none => 0
  | some x => x.addr

def fieldsOf (objects : List (Object C V)) (o : Nat) : List (Field V) :=
  match objects[o]? with
  | none => []
  | some x => x.fields

inductive Fits (objects : List (Object C V)) : Kind C → Field V → Prop
  | value (v : V) : Fits objects .value (.value v)
  | pointer (own : Ownership) (cls : C) (target : Option Nat)
      (typed : ∀ o ∈ lock objects own target, ∃ x, objects[o]? = some x ∧ x.cls = cls) :
      Fits objects (.pointer own cls) (.pointer own target)

structure Graph (C V : Type) (layout : C → List (Kind C)) where
  objects : List (Object C V)
  addressed : ∀ x ∈ objects, x.addr ≠ 0
  separate : (objects.map Object.addr).Nodup
  typed : ∀ x ∈ objects, List.Forall₂ (Fits objects) (layout x.cls) x.fields
  count : objects.length < 2 ^ 31

inductive Token (V : Type) where
  | id (id : UInt32)
  | value (v : V)
  deriving DecidableEq

def saveFields (objects : List (Object C V)) :
    Nat → List (Field V) → OutputArchive → Option (List (Token V) × OutputArchive)
  | 0, _, _ => none
  | _ + 1, [], ar => some ([],ar)
  | fuel + 1, .value v :: fields, ar => do
    let (tokens,ar) ← saveFields objects fuel fields ar
    some (.value v :: tokens,ar)
  | fuel + 1, .pointer own target :: fields, ar =>
    match lock objects own target with
    | none => do
      let (id,ar) := ar.registerSharedPointer 0
      let (tokens,ar) ← saveFields objects fuel fields ar
      some (.id id :: tokens,ar)
    | some o =>
      let (id,ar) := ar.registerSharedPointer (addrOf objects o)
      if isNew id then do
        let (data,ar) ← saveFields objects fuel (fieldsOf objects o) ar
        let (tokens,ar) ← saveFields objects fuel fields ar
        some (.id id :: (data ++ tokens),ar)
      else do
        let (tokens,ar) ← saveFields objects fuel fields ar
        some (.id id :: tokens,ar)

structure Loaded (C V : Type) where
  cls : C
  fields : List (Field V)
  deriving DecidableEq

structure Loader (C V : Type) where
  archive : InputArchive
  objects : List (Loaded C V)
  deriving DecidableEq

def Loader.start : Loader C V := ⟨⟨[]⟩,[]⟩

def Loader.construct (l : Loader C V) (id : UInt32) (x : Loaded C V) : Loader C V :=
  ⟨l.archive.registerSharedPointer id l.objects.length,l.objects ++ [x]⟩

def Loader.fill (l : Loader C V) (k : Nat) (x : Loaded C V) : Loader C V :=
  { l with objects := l.objects.set k x }

def streamError : String := "Failed to read from input stream!"

def loadFields (layout : C → List (Kind C)) (initial : C → List (Field V)) :
    Nat → List (Kind C) → List (Token V) → Loader C V →
      Except String (List (Field V) × List (Token V) × Loader C V)
  | 0, _, _, _ => .error streamError
  | _ + 1, [], tokens, l => .ok ([],tokens,l)
  | fuel + 1, .value :: kinds, .value v :: tokens, l => do
    let (fields,tokens,l) ← loadFields layout initial fuel kinds tokens l
    .ok (.value v :: fields,tokens,l)
  | fuel + 1, .pointer own cls :: kinds, .id id :: tokens, l =>
    if isNew id then do
      let (data,tokens,l') ← loadFields layout initial fuel (layout cls) tokens
        (l.construct id ⟨cls,initial cls⟩)
      let (fields,tokens,l') ← loadFields layout initial fuel kinds tokens
        (l'.fill l.objects.length ⟨cls,data⟩)
      .ok (.pointer own (some l.objects.length) :: fields,tokens,l')
    else do
      let pointer ← l.archive.getSharedPointer id
      let (fields,tokens,l) ← loadFields layout initial fuel kinds tokens l
      .ok (.pointer own pointer :: fields,tokens,l)
  | _ + 1, _ :: _, _, _ => .error streamError

def Points (visited : List Nat) : Option Nat → Option Nat → Prop
  | none, k => k = none
  | some o, k => ∃ i, k = some i ∧ visited[i]? = some o

inductive Matches (objects : List (Object C V)) (visited : List Nat) : Field V → Field V → Prop
  | value (v : V) : Matches objects visited (.value v) (.value v)
  | pointer (own : Ownership) (target k : Option Nat)
      (points : Points visited (lock objects own target) k) :
      Matches objects visited (.pointer own target) (.pointer own k)

structure Visited (objects : List (Object C V)) (visited : List Nat) (ar : OutputArchive) : Prop where
  nodup : visited.Nodup
  inside : ∀ o ∈ visited, o < objects.length
  numbers : Numbers (visited.map (addrOf objects)) ar

structure Ready (visited : List Nat) (l : Loader C V) : Prop where
  resolves : Resolves visited.length l.archive
  length : l.objects.length = visited.length

def LoadedAs (objects : List (Object C V)) (visited : List Nat) (o : Nat) (y : Loaded C V) : Prop :=
  ∃ x, objects[o]? = some x ∧ y.cls = x.cls ∧
    List.Forall₂ (Matches objects visited) x.fields y.fields

structure Reads (objects : List (Object C V)) (visited visited' : List Nat) (fields : List (Field V))
    (read : List (Field V)) (l l' : Loader C V) : Prop where
  ready : Ready visited' l'
  fields : List.Forall₂ (Matches objects visited') fields read
  kept : ∀ k, k < visited.length → l'.objects[k]? = l.objects[k]?
  filled : ∀ k o, visited.length ≤ k → visited'[k]? = some o →
    ∃ y, l'.objects[k]? = some y ∧ LoadedAs objects visited' o y

section

variable {objects : List (Object C V)} {visited visited' : List Nat}

variable (h : visited <+: visited')
include h

theorem points_grows {o k : Option Nat} (hp : Points visited o k) : Points visited' o k := by
  cases o with
  | none => exact hp
  | some o =>
    obtain ⟨i,rfl,hi⟩ := hp
    exact ⟨i,rfl,getElem?_grows h hi⟩

theorem matches_grows {f g : Field V}
    (hm : Matches objects visited f g) : Matches objects visited' f g := by
  cases hm with
  | value v => exact .value v
  | pointer own target k points => exact .pointer own target k (points_grows h points)

theorem loadedAs_grows {o : Nat} {y : Loaded C V}
    (hy : LoadedAs objects visited o y) : LoadedAs objects visited' o y := by
  obtain ⟨x,hx,hcls,hfields⟩ := hy
  exact ⟨x,hx,hcls,hfields.imp fun _ _ => matches_grows h⟩

end

variable {C V : Type} {layout : C → List (Kind C)}

section

variable {g : Graph C V layout} {visited : List Nat} {ar : OutputArchive} {o : Nat}
  {objects : List (Object C V)}

theorem addrOf_eq {x : Object C V} (h : objects[o]? = some x) : addrOf objects o = x.addr := by
  rw [addrOf,h]

theorem addrOf_ne_zero (g : Graph C V layout) (ho : o < g.objects.length) :
    addrOf g.objects o ≠ 0 := by
  rw [addrOf_eq (getElem?_eq_getElem ho)]
  exact g.addressed _ (getElem_mem ho)

theorem addrOf_inj (g : Graph C V layout) {p : Nat} (ho : o < g.objects.length)
    (hp : p < g.objects.length) (h : addrOf g.objects o = addrOf g.objects p) : o = p := by
  rw [addrOf_eq (getElem?_eq_getElem ho),addrOf_eq (getElem?_eq_getElem hp)] at h
  apply (getElem?_inj (by simpa using ho) g.separate).mp
  simp [ho,hp,h]

variable (hv : Visited g.objects visited ar)
include hv

theorem addr_mem_visited (ho : o < g.objects.length)
    (h : addrOf g.objects o ∈ visited.map (addrOf g.objects)) : o ∈ visited := by
  obtain ⟨p,hp,heq⟩ := mem_map.mp h
  rwa [← addrOf_inj g (hv.inside p hp) ho heq]

theorem visited_length_le : visited.length ≤ g.objects.length := by
  have hsub : visited ⊆ range g.objects.length := fun o ho =>
    mem_range.mpr (hv.inside o ho)
  simpa using (hv.nodup.subperm hsub).length_le

theorem register_visited {k : Nat} (hk : visited[k]? = some o) :
    ar.registerSharedPointer (addrOf g.objects o) = (pointerId k,ar) := by
  apply register_known hv.numbers (addrOf_ne_zero g (hv.inside o (mem_of_getElem? hk)))
  rw [getElem?_map,hk]
  rfl

theorem register_unvisited (ho : o < g.objects.length) (hnew : o ∉ visited) :
    ∃ ar', ar.registerSharedPointer (addrOf g.objects o) =
        (pointerId visited.length ||| msb32,ar') ∧ Visited g.objects (visited ++ [o]) ar' := by
  obtain ⟨ar',hreg,hnumbers⟩ := register_fresh hv.numbers (addrOf_ne_zero g ho)
    fun h => hnew (addr_mem_visited hv ho h)
  rw [length_map] at hreg
  refine ⟨ar',hreg,?_,?_,by simpa using hnumbers⟩
  · rw [← concat_eq_append]
    exact Nodup.concat hnew hv.nodup
  intro p hp
  rcases mem_append.mp hp with hp | hp
  · exact hv.inside p hp
  · rwa [mem_singleton.mp hp]

end

def RoundTrips (g : Graph C V layout) (initial : C → List (Field V)) (visited : List Nat)
    (ar : OutputArchive) (kinds : List (Kind C)) (fields : List (Field V)) : Prop :=
  ∃ bound tokens ar' visited', visited <+: visited' ∧ Visited g.objects visited' ar' ∧
    (∀ fuel, bound ≤ fuel → saveFields g.objects fuel fields ar = some (tokens,ar')) ∧
    ∀ l rest, Ready visited l → ∃ read l',
      (∀ fuel, bound ≤ fuel →
        loadFields layout initial fuel kinds (tokens ++ rest) l = .ok (read,rest,l')) ∧
      Reads g.objects visited visited' fields read l l'

section

variable {g : Graph C V layout} {initial : C → List (Field V)} {visited : List Nat}
  {ar : OutputArchive} {kinds : List (Kind C)} {fields : List (Field V)} {own : Ownership} {cls : C}
  {target : Option Nat} {o : Nat} {l : Loader C V}

section

variable (h : RoundTrips g initial visited ar kinds fields)
include h

theorem trips_value (v : V) :
    RoundTrips g initial visited ar (.value :: kinds) (.value v :: fields) := by
  obtain ⟨bound,tokens,ar',visited',hpre,hv,hsave,hload⟩ := h
  refine ⟨bound + 1,.value v :: tokens,ar',visited',hpre,hv,?_,fun l rest hl => ?_⟩
  · rintro (_ | fuel) hfuel
    · omega
    · rw [saveFields,hsave fuel (by omega)]
      rfl
  obtain ⟨read,l',hread,hall⟩ := hload l rest hl
  refine ⟨.value v :: read,l',?_,hall.ready,.cons (.value v) hall.fields,hall.kept,
    hall.filled⟩
  rintro (_ | fuel) hfuel
  · omega
  · rw [cons_append,loadFields,hread fuel (by omega)]
    rfl

theorem trips_reference (id : UInt32) (pointer : Option Nat)
    (hreg : ∀ fuel, saveFields g.objects (fuel + 1) (.pointer own target :: fields) ar =
      (saveFields g.objects fuel fields ar).map fun r => (.id id :: r.1,r.2))
    (hold : isNew id = false)
    (hget : ∀ l : Loader C V, Ready visited l → l.archive.getSharedPointer id = .ok pointer)
    (hpoints : Points visited (lock g.objects own target) pointer) :
    RoundTrips g initial visited ar (.pointer own cls :: kinds) (.pointer own target :: fields) := by
  obtain ⟨bound,tokens,ar',visited',hpre,hv,hsave,hload⟩ := h
  refine ⟨bound + 1,.id id :: tokens,ar',visited',hpre,hv,?_,fun l rest hl => ?_⟩
  · rintro (_ | fuel) hfuel
    · omega
    · rw [hreg,hsave fuel (by omega)]
      rfl
  obtain ⟨read,l',hread,hall⟩ := hload l rest hl
  refine ⟨.pointer own pointer :: read,l',?_,hall.ready,
    .cons (.pointer own target pointer (points_grows hpre hpoints)) hall.fields,hall.kept,
    hall.filled⟩
  rintro (_ | fuel) hfuel
  · omega
  · rw [cons_append,loadFields,hold,hget l hl]
    rw [hread fuel (by omega)]
    rfl

theorem trips_null (hlock : lock g.objects own target = none) :
    RoundTrips g initial visited ar (.pointer own cls :: kinds) (.pointer own target :: fields) := by
  apply trips_reference h 0 none
  · intro fuel
    rw [saveFields,hlock]
    cases hs : saveFields g.objects fuel fields ar <;>
      simp [OutputArchive.registerSharedPointer,hs]
  · rfl
  · intro l hl
    rfl
  · rw [hlock]
    rfl

end

theorem construct_ready (hl : Ready visited l) (x : Loaded C V) (hcap : visited.length + 1 < 2 ^ 31) :
    Ready (visited ++ [o]) (l.construct (pointerId visited.length ||| msb32) x) := by
  constructor
  · rw [length_append,Loader.construct,hl.length]
    exact resolves_register hl.resolves hcap
  · simp [Loader.construct,hl.length]

theorem reads_object {objects : List (Object C V)} {visited2 visited3 : List Nat} {x : Object C V}
    {data read : List (Field V)} {l2 l3 : Loader C V} {id : UInt32} {start : Loaded C V}
    (hl : Ready visited l) (hx : objects[o]? = some x) (hlock : lock objects own target = some o)
    (hpre2 : visited ++ [o] <+: visited2) (hpre3 : visited2 <+: visited3)
    (hdata : Reads objects (visited ++ [o]) visited2 x.fields data (l.construct id start) l2)
    (hrest : Reads objects visited2 visited3 fields read
      (l2.fill l.objects.length ⟨x.cls,data⟩) l3) :
    Reads objects visited visited3 (.pointer own target :: fields)
      (.pointer own (some l.objects.length) :: read) l l3 := by
  have hlen := hl.length
  have hgrow2 : visited.length + 1 ≤ visited2.length := by simpa using hpre2.length_le
  have hown : visited3[visited.length]? = some o := by
    obtain ⟨later,rfl⟩ := hpre2.trans hpre3
    simp
  have hinside : l2.objects.length = visited2.length := hdata.ready.length
  refine ⟨hrest.ready,.cons (.pointer own target _ ?_) hrest.fields,fun k hk => ?_,
    fun k p hk hp => ?_⟩
  · rw [hlock]
    exact ⟨_,rfl,hlen ▸ hown⟩
  · rw [hrest.kept k (by omega),Loader.fill,getElem?_set_ne (by omega),
      hdata.kept k (by rw [length_append]; omega),Loader.construct,
      getElem?_append_left (by omega)]
  rcases Nat.lt_trichotomy k visited2.length with hlt | rfl | hgt
  · obtain ⟨later,rfl⟩ := hpre3
    rw [getElem?_append_left hlt] at hp
    rcases Nat.eq_or_lt_of_le hk with rfl | hk
    · rw [getElem?_append_left hlt,hp] at hown
      cases hown
      refine ⟨⟨x.cls,data⟩,?_,x,hx,rfl,hdata.fields.imp fun _ _ =>
        matches_grows (prefix_append _ _)⟩
      rw [hrest.kept _ hlt,Loader.fill,hlen,getElem?_set_self (by omega)]
    · obtain ⟨y,hy,hloaded⟩ := hdata.filled k p (by rwa [length_append]) hp
      refine ⟨y,?_,loadedAs_grows (prefix_append _ _) hloaded⟩
      rw [hrest.kept _ hlt,Loader.fill,getElem?_set_ne (by omega),hy]
  · exact hrest.filled _ p (le_refl _) hp
  · exact hrest.filled _ p hgt.le hp

section

variable (hv : Visited g.objects visited ar)
include hv

theorem trips_nil : RoundTrips g initial visited ar [] [] := by
  refine ⟨1,[],ar,visited,prefix_refl _,hv,?_,fun l rest hl => ⟨[],l,?_,?_⟩⟩
  · rintro (_ | fuel) hfuel
    · omega
    · rfl
  · rintro (_ | fuel) hfuel
    · omega
    · rfl
  · refine ⟨hl,.nil,fun _ _ => rfl,fun k o hk ho => ?_⟩
    have := (List.getElem?_eq_some_iff.mp ho).1
    omega

theorem trips_known (hlock : lock g.objects own target = some o) {k : Nat}
    (hk : visited[k]? = some o) (h : RoundTrips g initial visited ar kinds fields) :
    RoundTrips g initial visited ar (.pointer own cls :: kinds) (.pointer own target :: fields) := by
  have hlt : k < visited.length := (List.getElem?_eq_some_iff.mp hk).1
  have hid : k + 1 < 2 ^ 31 := by
    have hle := visited_length_le hv
    have hcount := g.count
    omega
  apply trips_reference h (pointerId k) (some k)
  · intro fuel
    rw [saveFields,hlock]
    cases hs : saveFields g.objects fuel fields ar <;>
      simp [register_visited hv hk,isNew_pointerId hid,hs]
  · exact isNew_pointerId hid
  · intro l hl
    exact get_known hl.resolves hlt hid
  · rw [hlock]
    exact ⟨k,rfl,hk⟩

theorem trips_fresh (hlock : lock g.objects own target = some o) (hnew : o ∉ visited)
    {x : Object C V} (hx : g.objects[o]? = some x)
    (hdata : ∀ ar1, Visited g.objects (visited ++ [o]) ar1 → RoundTrips g initial (visited ++ [o]) ar1 (layout x.cls) x.fields)
    (hrest : ∀ visited2 ar2, visited ++ [o] <+: visited2 → Visited g.objects visited2 ar2 → RoundTrips g initial visited2 ar2 kinds fields) :
    RoundTrips g initial visited ar (.pointer own x.cls :: kinds)
      (.pointer own target :: fields) := by
  obtain ⟨ar1,hreg,hv1⟩ := register_unvisited hv (List.getElem?_eq_some_iff.mp hx).1 hnew
  obtain ⟨bound1,data,ar2,visited2,hpre2,hv2,hsave1,hload1⟩ := hdata ar1 hv1
  obtain ⟨bound2,tokens,ar3,visited3,hpre3,hv3,hsave2,hload2⟩ := hrest visited2 ar2 hpre2 hv2
  have hcap : visited.length + 1 < 2 ^ 31 := by
    have hle := visited_length_le hv1
    have hcount := g.count
    rw [length_append] at hle
    exact hle.trans_lt hcount
  refine ⟨max bound1 bound2 + 1,.id (pointerId visited.length ||| msb32) :: (data ++ tokens),ar3,
    visited3,((prefix_append _ _).trans hpre2).trans hpre3,hv3,?_,fun l rest hl => ?_⟩
  · rintro (_ | fuel) hfuel
    · omega
    rw [saveFields,hlock]
    simp only [hreg,isNew_mask,if_true,fieldsOf,hx,hsave1 fuel (by omega)]
    change (do let r ← saveFields g.objects fuel fields ar2; some _) = _
    rw [hsave2 fuel (by omega)]
    rfl
  obtain ⟨read1,l2,hread1,hall1⟩ := hload1 _ (tokens ++ rest)
    (construct_ready hl ⟨x.cls,initial x.cls⟩ hcap)
  obtain ⟨read2,l3,hread2,hall2⟩ := hload2 (l2.fill l.objects.length ⟨x.cls,read1⟩) rest
    ⟨hall1.ready.resolves,length_set.trans hall1.ready.length⟩
  refine ⟨_,l3,?_,reads_object hl hx hlock hpre2 hpre3 hall1 hall2⟩
  rintro (_ | fuel) hfuel
  · omega
  rw [cons_append,loadFields,isNew_mask,append_assoc]
  simp only [if_true,hread1 fuel (by omega)]
  change (do let r ← loadFields layout initial fuel kinds (tokens ++ rest) _; Except.ok _) = _
  rw [hread2 fuel (by omega)]
  rfl

end

theorem graph_trips (g : Graph C V layout) (initial : C → List (Field V)) (budget : Nat)
    (hv : Visited g.objects visited ar) (hbudget : g.objects.length - visited.length ≤ budget)
    (hfits : Forall₂ (Fits g.objects) kinds fields) :
    RoundTrips g initial visited ar kinds fields := by
  induction budget using Nat.strong_induction_on generalizing visited ar kinds fields with
  | _ budget ih =>
    induction hfits generalizing visited ar with
    | nil => exact trips_nil hv
    | @cons kind field kinds fields hfit hfits ihfields =>
      cases hfit with
      | value v => exact trips_value (ihfields hv hbudget) v
      | pointer own cls target typed =>
        cases hlock : lock g.objects own target with
        | none => exact trips_null (ihfields hv hbudget) hlock
        | some o =>
          obtain ⟨x,hx,rfl⟩ := typed o hlock
          by_cases ho : o ∈ visited
          · obtain ⟨k,hk⟩ := mem_iff_getElem?.mp ho
            exact trips_known hv hlock hk (ihfields hv hbudget)
          refine trips_fresh hv hlock ho hx (fun ar1 hv1 => ?_) fun visited2 ar2 hpre hv2 => ?_
          · have hle := visited_length_le hv1
            rw [length_append,length_singleton] at hle
            refine ih (budget - 1) (by omega) hv1 ?_ (g.typed x (mem_of_getElem? hx))
            rw [length_append,length_singleton]
            omega
          · have hle := hpre.length_le
            rw [length_append,length_singleton] at hle
            exact ihfields hv2 (by omega)

end

inductive Kept (roots : List (Field V)) (fieldsAt : Nat → List (Field V)) : Nat → Prop
  | root {k : Nat} (h : .pointer .shared (some k) ∈ roots) : Kept roots fieldsAt k
  | member {j k : Nat} (hj : Kept roots fieldsAt j) (h : .pointer .shared (some k) ∈ fieldsAt j) :
      Kept roots fieldsAt k

def loadedFields (loaded : List (Loaded C V)) (k : Nat) : List (Field V) :=
  match loaded[k]? with
  | none => []
  | some y => y.fields

structure Isomorphic (g : Graph C V layout) (roots read : List (Field V))
    (loaded : List (Loaded C V)) (visited : List Nat) : Prop where
  nodup : visited.Nodup
  length : loaded.length = visited.length
  roots : List.Forall₂ (Matches g.objects visited) roots read
  objects : ∀ k o : Nat, visited[k]? = some o →
    ∃ y, loaded[k]? = some y ∧ LoadedAs g.objects visited o y

inductive Corresponds (g : Graph C V layout) (roots read : List (Field V))
    (loaded : List (Loaded C V)) (visited : List Nat) : Field V → Field V → Prop
  | root {f f' : Field V} (h : (f,f') ∈ roots.zip read) :
      Corresponds g roots read loaded visited f f'
  | member {k o : Nat} {x : Object C V} {y : Loaded C V} {f f' : Field V}
      (hk : visited[k]? = some o) (hx : g.objects[o]? = some x) (hy : loaded[k]? = some y)
      (h : (f,f') ∈ x.fields.zip y.fields) : Corresponds g roots read loaded visited f f'

open Classical in
noncomputable def afterArchive (kept : Nat → Prop) (own : Ownership) (pointer : Option Nat) :
    Option Nat :=
  match own with
  | .shared => pointer
  | .weak => pointer.filter fun k => kept k

def KeptAlive (g : Graph C V layout) (roots : List (Field V)) (own : Ownership)
    (target : Option Nat) : Prop :=
  own = .weak → ∀ o ∈ lock g.objects own target, Kept roots (fieldsOf g.objects) o

section

variable {g : Graph C V layout} {roots read : List (Field V)} {loaded : List (Loaded C V)}
  {visited : List Nat} {fs fs' : List (Field V)}

theorem exists_shared {o : Nat} (h : Forall₂ (Matches g.objects visited) fs fs')
    (hf : .pointer .shared (some o) ∈ fs) :
    ∃ k, visited[k]? = some o ∧ .pointer .shared (some k) ∈ fs' := by
  obtain ⟨f',hzip⟩ := exists_zip_of_mem h.length_eq hf
  obtain ⟨-,hf'⟩ := of_mem_zip hzip
  have hm := (forall₂_iff_zip.mp h).2 hzip
  cases hm with
  | pointer own target k points =>
    obtain ⟨i,rfl,hi⟩ := points
    exact ⟨i,hi,hf'⟩

section

variable (h : Isomorphic g roots read loaded visited)
include h

theorem kept_loaded {o : Nat} (ho : Kept roots (fieldsOf g.objects) o) :
    ∃ k, visited[k]? = some o ∧ Kept read (loadedFields loaded) k := by
  induction ho with
  | root hmem =>
    obtain ⟨k,hk,hshared⟩ := exists_shared h.roots hmem
    exact ⟨k,hk,.root hshared⟩
  | member _ hmem ih =>
    obtain ⟨j,hj,hkept⟩ := ih
    obtain ⟨y,hy,x,hx,-,hfields⟩ := h.objects j _ hj
    rw [fieldsOf,hx] at hmem
    obtain ⟨k,hk,hshared⟩ := exists_shared hfields hmem
    exact ⟨k,hk,.member hkept (by rwa [loadedFields,hy])⟩

theorem corresponds_matches {f f' : Field V} (hf : Corresponds g roots read loaded visited f f') :
    Matches g.objects visited f f' := by
  cases hf with
  | root hmem => exact (forall₂_iff_zip.mp h.roots).2 hmem
  | member hk hx hy hmem =>
    obtain ⟨y',hy',x',hx',-,hfields⟩ := h.objects _ _ hk
    rw [hy] at hy'
    rw [hx] at hx'
    cases hy'
    cases hx'
    exact (forall₂_iff_zip.mp hfields).2 hmem

theorem afterArchive_eq {own : Ownership} {target pointer : Option Nat}
    (hp : Points visited (lock g.objects own target) pointer)
    (hkept : KeptAlive g roots own target) :
    afterArchive (Kept read (loadedFields loaded)) own pointer = pointer := by
  cases own with
  | shared => rfl
  | weak =>
    cases hlock : lock g.objects .weak target with
    | none =>
      rw [hlock] at hp
      obtain rfl : pointer = none := hp
      rfl
    | some o =>
      rw [hlock] at hp
      obtain ⟨i,rfl,hi⟩ := hp
      obtain ⟨k,hk,hloaded⟩ := kept_loaded h (hkept rfl o hlock)
      have heq : i = k :=
        (getElem?_inj (List.getElem?_eq_some_iff.mp hi).1 h.nodup).mp (hi.trans hk.symm)
      subst heq
      simp [afterArchive,hloaded]

end

theorem points_unique (hn : visited.Nodup) {o o' k k' : Option Nat} (h : Points visited o k)
    (h' : Points visited o' k') : k = k' ↔ o = o' := by
  match o, o', h, h' with
  | none, none, rfl, rfl | none, some _, rfl, ⟨_,rfl,_⟩ | some _, none, ⟨_,rfl,_⟩, rfl => simp
  | some o, some o', ⟨i,rfl,hi⟩, ⟨j,rfl,hj⟩ =>
    rw [Option.some.injEq,Option.some.injEq,
      ← getElem?_inj (List.getElem?_eq_some_iff.mp hi).1 hn,hi,hj,Option.some.injEq]

end

theorem graph_survives (g : Graph C V layout) (initial : C → List (Field V))
    (kinds : List (Kind C)) (roots : List (Field V))
    (hroots : List.Forall₂ (Fits g.objects) kinds roots) :
    ∃ bound tokens ar read l visited,
      (∀ fuel, bound ≤ fuel → saveFields g.objects fuel roots .start = some (tokens,ar)) ∧
      (∀ fuel, bound ≤ fuel →
        loadFields layout initial fuel kinds tokens .start = .ok (read,[],l)) ∧
      Isomorphic g roots read l.objects visited ∧
      ∀ own target pointer own' target' pointer',
        Corresponds g roots read l.objects visited (.pointer own target) (.pointer own pointer) →
        Corresponds g roots read l.objects visited (.pointer own' target')
          (.pointer own' pointer') →
        KeptAlive g roots own target → KeptAlive g roots own' target' →
        (afterArchive (Kept read (loadedFields l.objects)) own pointer =
            afterArchive (Kept read (loadedFields l.objects)) own' pointer' ↔
          lock g.objects own target = lock g.objects own' target') := by
  have hstart : Visited g.objects [] .start := ⟨nodup_nil,by simp,numbers_start⟩
  have hready : Ready [] (Loader.start : Loader C V) := ⟨resolves_zero,rfl⟩
  obtain ⟨bound,tokens,ar,visited,-,hv,hsave,hload⟩ :=
    graph_trips g initial g.objects.length hstart (by simp) hroots
  obtain ⟨read,l,hread,hall⟩ := hload .start [] hready
  have hiso : Isomorphic g roots read l.objects visited :=
    ⟨hv.nodup,hall.ready.length,hall.fields,fun k o hk => hall.filled k o (Nat.zero_le k) hk⟩
  refine ⟨bound,tokens,ar,read,l,visited,hsave,by simpa using hread,hiso,?_⟩
  intro own target pointer own' target' pointer' h h' hkept hkept'
  cases corresponds_matches hiso h with
  | pointer _ _ _ points =>
    cases corresponds_matches hiso h' with
    | pointer _ _ _ points' =>
      rw [afterArchive_eq hiso points hkept,afterArchive_eq hiso points' hkept',
        points_unique hiso.nodup points points']

def cycleLayout (_ : Unit) : List (Kind Unit) :=
  [.value,.pointer .weak (),.pointer .shared ()]

def cycleGraph : Graph Unit Nat cycleLayout where
  objects := [⟨16,(),[.value 7,.pointer .weak (some 0),.pointer .shared (some 1)]⟩,
    ⟨32,(),[.value 8,.pointer .weak (some 5),.pointer .shared (some 0)]⟩]
  addressed := by decide
  separate := by decide
  typed := by
    intro x hx
    simp only [mem_cons,not_mem_nil,or_false] at hx
    rcases hx with rfl | rfl
    · exact .cons (.value 7) (.cons (.pointer _ _ _ (by simp [lock])) (.cons (.pointer _ _ _
        (by simp [lock])) .nil))
    · exact .cons (.value 8) (.cons (.pointer _ _ _ (by simp [lock])) (.cons (.pointer _ _ _
        (by simp [lock])) .nil))
  count := by decide

theorem cycleGraph_survives :
    ∃ bound tokens ar read l,
      saveFields cycleGraph.objects bound [.pointer .shared (some 0)] .start = some (tokens,ar) ∧
      loadFields cycleLayout (fun _ => []) bound [.pointer .shared ()] tokens .start =
        .ok (read,[],l) := by
  obtain ⟨bound,tokens,ar,read,l,visited,hsave,hload,-,-⟩ :=
    graph_survives cycleGraph (fun _ => []) [.pointer .shared ()] [.pointer .shared (some 0)]
      (.cons (.pointer _ _ _ (by simp [lock,cycleGraph])) .nil)
  exact ⟨bound,tokens,ar,read,l,hsave bound (le_refl _),hload bound (le_refl _)⟩

end FuzzingTargets.Cereal.PointerGraph
