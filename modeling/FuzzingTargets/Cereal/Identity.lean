import FuzzingTargets.Cereal.SharedPointers
import Mathlib.Data.Finset.Card
import Mathlib.Data.List.Forall2

namespace FuzzingTargets.Cereal.Identity
open List

variable {V : Type}

structure Object (V : Type) where
  addr : Nat
  value : V
  live : Bool
  deriving DecidableEq

inductive Op (V : Type) where
  | allocate (addr : Nat) (value : V)
  | assign (object : Nat) (value : V)
  | release (object : Nat)
  | save (target : Option Nat)
  deriving DecidableEq

structure Snapshot (V : Type) where
  object : Nat
  addr : Nat
  value : V
  deriving DecidableEq

def Free (heap : List (Object V)) (addr : Nat) : Prop :=
  ∀ x ∈ heap, x.live = true → x.addr ≠ addr

instance (heap : List (Object V)) (addr : Nat) : Decidable (Free heap addr) :=
  inferInstanceAs (Decidable (∀ x ∈ heap, x.live = true → x.addr ≠ addr))

def liveAt (heap : List (Object V)) (object : Nat) : Option (Object V) :=
  heap[object]?.filter Object.live

def execute : List (Op V) → List (Object V) → Option (List (Option (Snapshot V)))
  | [], _ => some []
  | .allocate addr value :: ops, heap =>
    if addr ≠ 0 ∧ Free heap addr then execute ops (heap ++ [⟨addr,value,true⟩]) else none
  | .assign object value :: ops, heap =>
    match liveAt heap object with
    | none => none
    | some x => execute ops (heap.set object { x with value := value })
  | .release object :: ops, heap =>
    match liveAt heap object with
    | none => none
    | some x => execute ops (heap.set object { x with live := false })
  | .save none :: ops, heap => (execute ops heap).map (none :: ·)
  | .save (some object) :: ops, heap =>
    match liveAt heap object with
    | none => none
    | some x => (execute ops heap).map (some ⟨object,x.addr,x.value⟩ :: ·)

structure Record (V : Type) where
  id : UInt32
  data : Option V
  deriving DecidableEq

def pointee (target : Option (Snapshot V)) : Nat :=
  match target with
  | none => 0
  | some s => s.addr

def savePointer (target : Option (Snapshot V)) (ar : OutputArchive) : Record V × OutputArchive :=
  let (id,ar) := ar.registerSharedPointer (pointee target)
  (⟨id,if isNew id then target.map Snapshot.value else none⟩,ar)

def saveAll : List (Option (Snapshot V)) → OutputArchive → List (Record V)
  | [], _ => []
  | target :: targets, ar =>
    let (record,ar) := savePointer target ar
    record :: saveAll targets ar

structure Loader (V : Type) where
  archive : InputArchive
  objects : List V
  deriving DecidableEq

def Loader.start : Loader V := ⟨⟨[]⟩,[]⟩

def loadPointer (record : Record V) (l : Loader V) : Except String (Option Nat × Loader V) :=
  if isNew record.id then
    match record.data with
    | none => .error "Failed to read from input stream!"
    | some value => .ok (some l.objects.length,
        ⟨l.archive.registerSharedPointer record.id l.objects.length,l.objects ++ [value]⟩)
  else do
    let pointer ← l.archive.getSharedPointer record.id
    .ok (pointer,l)

def loadAll : List (Record V) → Loader V → Except String (List (Option Nat) × List V)
  | [], l => .ok ([],l.objects)
  | record :: records, l => do
    let (pointer,l) ← loadPointer record l
    let (pointers,objects) ← loadAll records l
    .ok (pointer :: pointers,objects)

section

variable {heap : List (Object V)}

theorem liveAt_some {object : Nat} {x : Object V} (h : liveAt heap object = some x) :
    heap[object]? = some x :=
  Option.eq_some_of_filter_eq_some h

theorem set_addrs {object : Nat} {x y : Object V} (h : heap[object]? = some x)
    (hy : y.addr = x.addr) : (heap.set object y).map Object.addr = heap.map Object.addr := by
  obtain ⟨hlt,rfl⟩ := List.getElem?_eq_some_iff.mp h
  rw [map_set,hy,← map_set,set_getElem_self]

theorem execute_addrs {ops : List (Op V)} {saves : List (Option (Snapshot V))}
    (h : execute ops heap = some saves) :
    ∃ addrs, heap.map Object.addr <+: addrs ∧ (0 ∉ heap.map Object.addr → 0 ∉ addrs) ∧
      ∀ s, some s ∈ saves → addrs[s.object]? = some s.addr := by
  induction ops generalizing heap saves with
  | nil =>
    cases h
    exact ⟨_,prefix_refl _,id,by simp⟩
  | cons op ops ih =>
    cases op with
    | allocate addr value =>
      rw [execute] at h
      split at h
      · rename_i hfree
        obtain ⟨addrs,hpre,hzero,hsaves⟩ := ih h
        rw [map_append] at hpre hzero
        refine ⟨addrs,(prefix_append _ _).trans hpre,fun h0 => hzero ?_,hsaves⟩
        simpa [h0] using hfree.1.symm
      · cases h
    | assign object value =>
      rw [execute] at h
      split at h
      · cases h
      rename_i x hx
      obtain ⟨addrs,hall⟩ := ih h
      rw [set_addrs (y := { x with value := value }) (liveAt_some hx) rfl] at hall
      exact ⟨addrs,hall⟩
    | release object =>
      rw [execute] at h
      split at h
      · cases h
      rename_i x hx
      obtain ⟨addrs,hall⟩ := ih h
      rw [set_addrs (y := { x with live := false }) (liveAt_some hx) rfl] at hall
      exact ⟨addrs,hall⟩
    | save target =>
      cases target with
      | none =>
        obtain ⟨rest,hrest,rfl⟩ := Option.map_eq_some_iff.mp h
        obtain ⟨addrs,hpre,hzero,hsaves⟩ := ih hrest
        exact ⟨addrs,hpre,hzero,by simpa using hsaves⟩
      | some object =>
        rw [execute] at h
        split at h
        · cases h
        rename_i x hx
        obtain ⟨rest,hrest,rfl⟩ := Option.map_eq_some_iff.mp h
        obtain ⟨addrs,hpre,hzero,hsaves⟩ := ih hrest
        refine ⟨addrs,hpre,hzero,fun s hs => ?_⟩
        rcases mem_cons.mp hs with heq | hs
        · cases heq
          obtain ⟨later,rfl⟩ := hpre
          have hat := liveAt_some hx
          have hlt := (List.getElem?_eq_some_iff.mp hat).1
          rw [getElem?_append_left (by simpa using hlt),getElem?_map,hat]
          rfl
        · exact hsaves s hs

end

def see (seen : List (Snapshot V)) (target : Option (Snapshot V)) : List (Snapshot V) :=
  match target with
  | none => seen
  | some s => if s.addr ∈ seen.map Snapshot.addr then seen else seen ++ [s]

def seenAfter (seen : List (Snapshot V)) (targets : List (Option (Snapshot V))) :
    List (Snapshot V) :=
  targets.foldl see seen

section

variable {seen : List (Snapshot V)} {target : Option (Snapshot V)}
  {targets : List (Option (Snapshot V))} {s f : Snapshot V}

theorem prefix_see : seen <+: see seen target := by
  unfold see
  split
  · exact prefix_refl _
  split
  · exact prefix_refl _
  · exact prefix_append _ _

theorem prefix_seenAfter : seen <+: seenAfter seen targets := by
  induction targets generalizing seen with
  | nil => exact prefix_refl _
  | cons target targets ih => exact prefix_see.trans ih

theorem mem_see_addrs {addr : Nat} : addr ∈ (see seen target).map Snapshot.addr ↔
      addr ∈ seen.map Snapshot.addr ∨ ∃ s, target = some s ∧ s.addr = addr := by
  cases target with
  | none => simp [see]
  | some s =>
    by_cases hs : s.addr ∈ seen.map Snapshot.addr
    · simp only [see,if_pos hs,Option.some.injEq,exists_eq_left']
      exact ⟨.inl,fun h => h.elim id fun heq => heq ▸ hs⟩
    · simp only [see,if_neg hs,map_append,mem_append,map_singleton,
        mem_singleton,Option.some.injEq,exists_eq_left',eq_comm]

theorem mem_seenAfter_addrs {addr : Nat} : addr ∈ (seenAfter seen targets).map Snapshot.addr ↔
      addr ∈ seen.map Snapshot.addr ∨ ∃ s, some s ∈ targets ∧ s.addr = addr := by
  induction targets generalizing seen with
  | nil => simp [seenAfter]
  | cons target targets ih =>
    change addr ∈ (seenAfter (see seen target) targets).map Snapshot.addr ↔ _
    rw [ih,mem_see_addrs,or_assoc]
    simp only [mem_cons,or_and_right,exists_or,@eq_comm _ target]

theorem seenAfter_first (h : f ∈ seenAfter [] targets) :
    ∃ before after, targets = before ++ some f :: after ∧
      ∀ g, some g ∈ before → g.addr ≠ f.addr := by
  induction targets using List.reverseRecOn with
  | nil => simp [seenAfter] at h
  | append_singleton targets target ih =>
    rw [seenAfter,foldl_append] at h
    change f ∈ see (seenAfter [] targets) target at h
    have hold : f ∈ seenAfter [] targets → ∃ before after,
        targets ++ [target] = before ++ some f :: after ∧
          ∀ g, some g ∈ before → g.addr ≠ f.addr := by
      intro hf
      obtain ⟨before,after,rfl,hbefore⟩ := ih hf
      exact ⟨before,after ++ [target],by simp,hbefore⟩
    cases target with
    | none => exact hold h
    | some s =>
      rw [see] at h
      split at h
      · exact hold h
      rename_i hnew
      rcases mem_append.mp h with hf | hf
      · exact hold hf
      · obtain rfl := mem_singleton.mp hf
        refine ⟨targets,[],rfl,fun g hg heq => hnew ?_⟩
        exact mem_seenAfter_addrs.mpr (.inr ⟨g,hg,heq⟩)

end

structure Saved (seen : List (Snapshot V)) (s : Snapshot V) (record : Record V) (k : Nat) : Prop where
  known : s.addr ∈ seen.map Snapshot.addr → record = ⟨pointerId k,none⟩ ∧ k < seen.length
  fresh : s.addr ∉ seen.map Snapshot.addr →
    record = ⟨pointerId k ||| msb32,some s.value⟩ ∧ k = seen.length

section

variable {seen : List (Snapshot V)} {ar : OutputArchive} {s : Snapshot V}
  {targets : List (Option (Snapshot V))} {l : Loader V}

theorem savePointer_spec (hn : Numbers (seen.map Snapshot.addr) ar) (h0 : s.addr ≠ 0)
    (hcap : (see seen (some s)).length < 2 ^ 31) :
    ∃ record ar' k f, savePointer (some s) ar = (record,ar') ∧
      Numbers ((see seen (some s)).map Snapshot.addr) ar' ∧ Saved seen s record k ∧
      (see seen (some s))[k]? = some f ∧ f.addr = s.addr := by
  by_cases hs : s.addr ∈ seen.map Snapshot.addr
  · obtain ⟨k,hk⟩ := mem_iff_getElem?.mp hs
    obtain ⟨f,hf,hfa⟩ := Option.map_eq_some_iff.mp (getElem?_map ▸ hk)
    have hlt : k < seen.length := (List.getElem?_eq_some_iff.mp hf).1
    have hgrow : seen.length ≤ (see seen (some s)).length := prefix_see.length_le
    refine ⟨⟨pointerId k,none⟩,ar,k,f,?_,?_,⟨fun _ => ⟨rfl,hlt⟩,absurd hs⟩,?_,hfa⟩
    · simp [savePointer,pointee,register_known hn h0 hk,isNew_pointerId (i := k) (by omega)]
    · rwa [see,if_pos hs]
    · rwa [see,if_pos hs]
  obtain ⟨ar',hreg,hn'⟩ := register_fresh hn h0 hs
  refine ⟨⟨pointerId seen.length ||| msb32,some s.value⟩,ar',seen.length,s,?_,?_,
    ⟨fun h => absurd h hs,fun _ => ⟨rfl,rfl⟩⟩,?_,rfl⟩
  · simp [savePointer,pointee,hreg,isNew_mask]
  · simpa [see,hs] using hn'
  · simp [see,hs]

def Identified (final : List (Snapshot V)) (target : Option (Snapshot V)) (record : Record V) :
    Prop :=
  ∀ s, target = some s →
    ∃ k f, final[k]? = some f ∧ f.addr = s.addr ∧ stripId record.id = pointerId k

def PointsTo (final : List (Snapshot V)) (target : Option (Snapshot V)) (pointer : Option Nat) :
    Prop :=
  match target with
  | none => pointer = none
  | some s => ∃ k f, pointer = some k ∧ final[k]? = some f ∧ f.addr = s.addr

theorem saved_stripId {record : Record V} {k : Nat} (h : Saved seen s record k)
    (hk : k + 1 < 2 ^ 31) : stripId record.id = pointerId k := by
  by_cases hs : s.addr ∈ seen.map Snapshot.addr
  · rw [(h.known hs).1]
    exact stripId_ofNat hk
  · rw [(h.fresh hs).1]
    exact stripId_new_pointerId hk

theorem loadPointer_saved {record : Record V} {k : Nat} (h : Saved seen s record k)
    (hr : Resolves seen.length l.archive) (ho : l.objects = seen.map Snapshot.value)
    (hcap : (see seen (some s)).length < 2 ^ 31) : ∃ l', loadPointer record l = .ok (some k,l') ∧
      Resolves (see seen (some s)).length l'.archive ∧
      l'.objects = (see seen (some s)).map Snapshot.value := by
  by_cases hs : s.addr ∈ seen.map Snapshot.addr
  · obtain ⟨rfl,hk⟩ := h.known hs
    rw [see,if_pos hs] at hcap ⊢
    refine ⟨l,?_,hr,ho⟩
    simp [loadPointer,isNew_pointerId (i := k) (by omega),get_known hr hk (by omega)]
    rfl
  obtain ⟨rfl,rfl⟩ := h.fresh hs
  rw [see,if_neg hs,length_append] at hcap
  rw [see,if_neg hs,length_append,map_append]
  refine ⟨⟨l.archive.registerSharedPointer (pointerId seen.length ||| msb32) seen.length,
    l.objects ++ [s.value]⟩,?_,resolves_register hr hcap,by rw [ho]; rfl⟩
  simp [loadPointer,isNew_mask,ho]

theorem saveAll_spec (hn : Numbers (seen.map Snapshot.addr) ar)
    (hr : Resolves seen.length l.archive) (ho : l.objects = seen.map Snapshot.value)
    (h0 : ∀ s, some s ∈ targets → s.addr ≠ 0) (hcap : (seenAfter seen targets).length < 2 ^ 31) :
    Forall₂ (Identified (seenAfter seen targets)) targets (saveAll targets ar) ∧
      ∃ pointers, loadAll (saveAll targets ar) l =
          .ok (pointers,(seenAfter seen targets).map Snapshot.value) ∧
        Forall₂ (PointsTo (seenAfter seen targets)) targets pointers := by
  induction targets generalizing seen ar l with
  | nil => exact ⟨.nil,[],by rw [saveAll,loadAll,ho]; rfl,.nil⟩
  | cons target targets ih =>
    have hlater : ∀ s, some s ∈ targets → s.addr ≠ 0 := fun s hs =>
      h0 s (.tail _ hs)
    have hpre : see seen target <+: seenAfter (see seen target) targets := prefix_seenAfter
    have hsee : (see seen target).length < 2 ^ 31 := hpre.length_le.trans_lt hcap
    cases target with
    | none =>
      obtain ⟨hids,pointers,hload,hpoints⟩ := ih hn hr ho hlater hcap
      simp only [saveAll,savePointer,pointee,OutputArchive.registerSharedPointer,if_pos,isNew]
      refine ⟨.cons (by rintro t ⟨⟩) hids,none :: pointers,?_,.cons rfl hpoints⟩
      rw [loadAll]
      simp only [loadPointer,isNew,InputArchive.getSharedPointer]
      change (do let r ← loadAll _ l; Except.ok (none :: r.1,r.2)) = _
      rw [hload]
      rfl
    | some s =>
      obtain ⟨record,ar',k,f,hsave,hn',hsaved,hk,hf⟩ :=
        savePointer_spec hn (h0 s mem_cons_self) hsee
      obtain ⟨l',hloaded,hr',ho'⟩ := loadPointer_saved hsaved hr ho hsee
      obtain ⟨hids,pointers,hload,hpoints⟩ := ih hn' hr' ho' hlater hcap
      have hfinal := getElem?_grows hpre hk
      have hlt : k < (see seen (some s)).length := (List.getElem?_eq_some_iff.mp hk).1
      rw [saveAll,hsave]
      refine ⟨.cons ?_ hids,some k :: pointers,?_,.cons ⟨k,f,rfl,hfinal,hf⟩ hpoints⟩
      · rintro t ⟨⟩
        exact ⟨k,f,hfinal,hf,saved_stripId hsaved (by omega)⟩
      change (do let p ← loadPointer record l; let r ← loadAll (saveAll targets ar') p.2
                 Except.ok (p.1 :: r.1,r.2)) = _
      rw [hloaded]
      change (do let r ← loadAll (saveAll targets ar') l'; Except.ok (some k :: r.1,r.2)) = _
      rw [hload]
      rfl

theorem saveAll_written {before after : List (Option (Snapshot V))}
    (hn : Numbers (seen.map Snapshot.addr) ar)
    (h0 : ∀ t, some t ∈ before ++ some s :: after → t.addr ≠ 0)
    (hcap : (seenAfter seen (before ++ some s :: after)).length < 2 ^ 31) :
    ∃ record, (saveAll (before ++ some s :: after) ar)[before.length]? = some record ∧
      (record.data.isSome ↔ s.addr ∉ (seenAfter seen before).map Snapshot.addr) := by
  induction before generalizing seen ar with
  | nil =>
    have hpre : see seen (some s) <+: seenAfter seen (some s :: after) := prefix_seenAfter
    obtain ⟨record,ar',k,f,hsave,-,hsaved,-,-⟩ :=
      savePointer_spec hn (h0 s (by simp)) (hpre.length_le.trans_lt hcap)
    refine ⟨record,by rw [nil_append,saveAll,hsave]; rfl,?_⟩
    change _ ↔ s.addr ∉ seen.map Snapshot.addr
    by_cases hs : s.addr ∈ seen.map Snapshot.addr
    · simp [(hsaved.known hs).1,hs]
    · simp only [(hsaved.fresh hs).1,Option.isSome_some,hs,not_false_eq_true]
  | cons target before ih =>
    have hlater : ∀ t, some t ∈ before ++ some s :: after → t.addr ≠ 0 := fun t ht =>
      h0 t (.tail _ ht)
    cases target with
    | none =>
      exact ih hn hlater hcap
    | some t =>
      have hpre : see seen (some t) <+: seenAfter seen (some t :: before ++ some s :: after) :=
        prefix_seenAfter
      obtain ⟨record,ar',k,f,hsave,hn',-,-,-⟩ :=
        savePointer_spec hn (h0 t (by simp)) (hpre.length_le.trans_lt hcap)
      rw [cons_append,saveAll,hsave]
      exact ih hn' hlater hcap

end

def FirstSave (saves : List (Option (Snapshot V))) (f : Snapshot V) : Prop :=
  ∃ before after, saves = before ++ some f :: after ∧
    ∀ g, some g ∈ before → g.object ≠ f.object

structure KeepsIdentity (saves : List (Option (Snapshot V))) : Prop where
  same : ∀ s t r q, (some s,r) ∈ saves.zip (saveAll saves .start) →
    (some t,q) ∈ saves.zip (saveAll saves .start) →
    (stripId r.id = stripId q.id ↔ s.object = t.object)
  once : ∀ before s after, saves = before ++ some s :: after →
    ∃ r, (saveAll saves .start)[before.length]? = some r ∧
      (r.data.isSome ↔ ∀ g, some g ∈ before → g.object ≠ s.object)
  loaded : ∃ pointers values, loadAll (saveAll saves .start) .start = .ok (pointers,values) ∧
    pointers.length = saves.length ∧ ∀ target pointer, (target,pointer) ∈ saves.zip pointers →
      (target = none → pointer = none) ∧ ∀ s, target = some s →
        ∃ k f, pointer = some k ∧ values[k]? = some f.value ∧ f.object = s.object ∧
          FirstSave saves f

def savedAddrs (saves : List (Option (Snapshot V))) : Finset Nat :=
  (saves.filterMap (Option.map Snapshot.addr)).toFinset

def AddressesIdentify (saves : List (Option (Snapshot V))) : Prop :=
  ∀ s t, some s ∈ saves → some t ∈ saves → s.addr = t.addr → s.object = t.object

section

variable {saves : List (Option (Snapshot V))} {seen : List (Snapshot V)}

theorem seenAfter_length (h : ((seenAfter [] saves).map Snapshot.addr).Nodup) :
    (seenAfter [] saves).length = (savedAddrs saves).card := by
  have hset : ((seenAfter [] saves).map Snapshot.addr).toFinset = savedAddrs saves := by
    ext addr
    rw [mem_toFinset,mem_seenAfter_addrs,savedAddrs,mem_toFinset,mem_filterMap]
    simp
  rw [← hset,toFinset_card_of_nodup h,length_map]

theorem see_nodup {target : Option (Snapshot V)} (h : (seen.map Snapshot.addr).Nodup) :
    ((see seen target).map Snapshot.addr).Nodup := by
  unfold see
  split
  · exact h
  split
  · exact h
  · rename_i s hnew
    rw [map_append,map_singleton,← concat_eq_append]
    exact Nodup.concat hnew h

theorem seenAfter_nodup (h : (seen.map Snapshot.addr).Nodup) :
    ((seenAfter seen saves).map Snapshot.addr).Nodup := by
  induction saves generalizing seen with
  | nil => exact h
  | cons target saves ih => exact ih (see_nodup h)

theorem position_unique {xs : List (Snapshot V)} (h : (xs.map Snapshot.addr).Nodup) {i j : Nat}
    {f g : Snapshot V} (hi : xs[i]? = some f) (hj : xs[j]? = some g) : i = j ↔ f.addr = g.addr := by
  have hlt : i < (xs.map Snapshot.addr).length := by
    simpa using (List.getElem?_eq_some_iff.mp hi).1
  rw [← getElem?_inj hlt h,getElem?_map,getElem?_map,hi,hj]
  exact Option.some_inj

end

theorem addresses_identify_iff (program : List (Op V)) (saves : List (Option (Snapshot V)))
    (hrun : execute program [] = some saves) (hcap : (savedAddrs saves).card < 2 ^ 31) :
    KeepsIdentity saves ↔ AddressesIdentify saves := by
  obtain ⟨addrs,-,hzero,haddrs⟩ := execute_addrs hrun
  have h0 : ∀ s, some s ∈ saves → s.addr ≠ 0 := fun s hs heq =>
    hzero (by simp) (heq ▸ mem_of_getElem? (haddrs s hs))
  have hfixed : ∀ s t, some s ∈ saves → some t ∈ saves → s.object = t.object →
      s.addr = t.addr := by
    intro s t hs ht heq
    have hst := haddrs s hs
    rw [heq,haddrs t ht] at hst
    exact (Option.some.inj hst).symm
  have hnodup : ((seenAfter [] saves).map Snapshot.addr).Nodup :=
    seenAfter_nodup (by simp)
  have hcount : (seenAfter [] saves).length < 2 ^ 31 := by rwa [seenAfter_length hnodup]
  obtain ⟨hids,pointers,hload,hpoints⟩ := @saveAll_spec V [] .start saves .start numbers_start
    resolves_zero rfl h0 hcount
  have hsame : ∀ s t r q, (some s,r) ∈ saves.zip (saveAll saves .start) →
      (some t,q) ∈ saves.zip (saveAll saves .start) →
      (stripId r.id = stripId q.id ↔ s.addr = t.addr) := by
    intro s t r q hs ht
    obtain ⟨i,f,hi,hf,hr⟩ := (forall₂_iff_zip.mp hids).2 hs s rfl
    obtain ⟨j,g,hj,hg,hq⟩ := (forall₂_iff_zip.mp hids).2 ht t rfl
    have hilt := (List.getElem?_eq_some_iff.mp hi).1
    have hjlt := (List.getElem?_eq_some_iff.mp hj).1
    rw [hr,hq,pointerId_inj (by omega) (by omega),position_unique hnodup hi hj,hf,hg]
  constructor
  · intro hkeeps s t hs ht heq
    obtain ⟨r,hr⟩ := exists_zip_of_mem hids.length_eq hs
    obtain ⟨q,hq⟩ := exists_zip_of_mem hids.length_eq ht
    exact (hkeeps.same s t r q hr hq).mp ((hsame s t r q hr hq).mpr heq)
  intro hidentify
  have hobject : ∀ s t, some s ∈ saves → some t ∈ saves →
      (s.addr = t.addr ↔ s.object = t.object) := fun s t hs ht =>
    ⟨hidentify s t hs ht,hfixed s t hs ht⟩
  constructor
  · intro s t r q hs ht
    rw [hsame s t r q hs ht,hobject s t (of_mem_zip hs).1 (of_mem_zip ht).1]
  · rintro before s after rfl
    obtain ⟨r,hr,hdata⟩ := @saveAll_written V [] .start s before after numbers_start h0 hcount
    refine ⟨r,hr,hdata.trans ?_⟩
    rw [mem_seenAfter_addrs]
    constructor
    · intro hnew g hg heq
      exact hnew (.inr ⟨g,hg,(hobject g s (by simp [hg]) (by simp)).mpr heq⟩)
    · rintro hnew (hnil | ⟨g,hg,heq⟩)
      · cases hnil
      · exact hnew g hg ((hobject g s (by simp [hg]) (by simp)).mp heq)
  refine ⟨pointers,_,hload,hpoints.length_eq.symm,fun target pointer hmem => ?_⟩
  have hpoint := (forall₂_iff_zip.mp hpoints).2 hmem
  refine ⟨fun hnone => by subst hnone; exact hpoint,fun s hs => ?_⟩
  subst hs
  obtain ⟨k,f,rfl,hk,hf⟩ := hpoint
  obtain ⟨before,after,hsplit,hfirst⟩ := seenAfter_first (mem_of_getElem? hk)
  have hmemf : some f ∈ saves := by simp [hsplit]
  refine ⟨k,f,rfl,by rw [getElem?_map,hk]; rfl,
    (hobject f s hmemf (of_mem_zip hmem).1).mp hf,before,after,hsplit,?_⟩
  intro g hg heq
  have hmemg : some g ∈ saves := by simp [hsplit,hg]
  exact hfirst g hg ((hobject g f hmemg hmemf).mpr heq)

def keptProgram : List (Op Nat) :=
  [.allocate 16 10,.save (some 0),.allocate 32 20,.save none,.assign 0 11,.save (some 1),
    .save (some 0)]

theorem keptProgram_identity :
    KeepsIdentity [some ⟨0,16,10⟩,none,some ⟨1,32,20⟩,some ⟨0,16,11⟩] :=
  (addresses_identify_iff keptProgram _ (by decide) (by decide)).mpr (by
    intro s t hs ht
    simp only [mem_cons,Option.some.injEq,reduceCtorEq,not_mem_nil,or_false,false_or] at hs ht
    rcases hs with rfl | rfl | rfl <;> rcases ht with rfl | rfl | rfl <;> decide)

def reusedAddress : List (Op Nat) :=
  [.allocate 16 10,.save (some 0),.release 0,.allocate 16 20,.save (some 1)]

theorem reusedAddress_confuses_objects :
    execute reusedAddress [] = some [some ⟨0,16,10⟩,some ⟨1,16,20⟩] ∧
      saveAll [some ⟨0,16,10⟩,some ⟨1,16,20⟩] .start = [⟨0x80000001,some 10⟩,⟨1,none⟩] ∧
      loadAll [⟨0x80000001,some 10⟩,⟨1,none⟩] .start = .ok ([some 0,some 0],[10]) ∧
      ¬ KeepsIdentity [some ⟨0,16,10⟩,some ⟨1,16,20⟩] := by
  refine ⟨by decide,by decide,by rfl,fun h => ?_⟩
  have hsame := h.same ⟨0,16,10⟩ ⟨1,16,20⟩ ⟨0x80000001,some 10⟩ ⟨1,none⟩ (by decide) (by decide)
  exact absurd (hsame.mp (by decide)) (by decide)

end FuzzingTargets.Cereal.Identity
