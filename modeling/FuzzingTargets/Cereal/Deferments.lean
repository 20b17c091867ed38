import FuzzingTargets.Foundation.Checked

namespace FuzzingTargets.Cereal.Deferments
open List
open FuzzingTargets.Checked (bind_eq_ok ok_of_bind)

inductive Part where
  | scalar (location : Nat)
  | nothing
  | both (head tail : Part)
  | deferred (value : Part)
  deriving DecidableEq

structure Archive (σ : Type) where
  device : σ
  itsDeferments : List Part
  capacity : Nat
  storage : Nat
  called : List Nat
  deriving DecidableEq

inductive Stop where
  | exhausted
  | invalidIterator
  deriving DecidableEq

def Archive.fresh {σ : Type} (device : σ) : Archive σ := ⟨device,[],0,0,[]⟩

def emplaceBack {σ : Type} (grow : Nat → Nat) (v : Part) (ar : Archive σ) : Archive σ :=
  let size := ar.itsDeferments.length
  let ar := { ar with itsDeferments := ar.itsDeferments ++ [v] }
  if size < ar.capacity then ar
  else { ar with capacity := size + 1 + grow size, storage := ar.storage + 1 }

inductive Call where
  | archive (value : Part)
  | serializeDeferments
  deriving DecidableEq

section

variable {σ : Type} (scalar : σ → Nat → Except Stop σ) (grow : Nat → Nat)

def process : Part → Archive σ → Except Stop (Archive σ)
  | .scalar location, ar => do
    let device ← scalar ar.device location
    return { ar with device := device }
  | .nothing, ar => return ar
  | .both head tail, ar => do
    let ar ← process head ar
    process tail ar
  | .deferred v, ar => return emplaceBack grow v ar

def callDeferments (storage : Nat) : Nat → List Part → Archive σ → Except Stop (Archive σ)
  | _, [], ar => return ar
  | i, deferment :: rest, ar => do
    let ar ← process scalar grow deferment { ar with called := ar.called ++ [i] }
    if ar.storage = storage then callDeferments storage (i + 1) rest ar
    else throw .invalidIterator

def serializeDeferments (ar : Archive σ) : Except Stop (Archive σ) :=
  callDeferments scalar grow ar.storage 0 ar.itsDeferments ar

def perform (ar : Archive σ) : Call → Except Stop (Archive σ)
  | .archive v => process scalar grow v ar
  | .serializeDeferments => serializeDeferments scalar grow ar

def run (calls : List Call) (ar : Archive σ) : Except Stop (Archive σ) :=
  calls.foldlM (perform scalar grow) ar

end

def saveScalar (source : Nat → UInt64) (stream : List UInt64) (location : Nat) :
    Except Stop (List UInt64) :=
  return stream ++ [source location]

structure Loader where
  stream : List UInt64
  target : Nat → UInt64

def loadScalar (loader : Loader) (location : Nat) : Except Stop Loader :=
  match loader.stream with
  | [] => throw .exhausted
  | v :: stream => return ⟨stream,Function.update loader.target location v⟩

def save (grow : Nat → Nat) (source : Nat → UInt64) (calls : List Call) :
    Except Stop (Archive (List UInt64)) :=
  run (saveScalar source) grow calls (.fresh [])

def load (grow : Nat → Nat) (loader : Loader) (calls : List Call) : Except Stop (Archive Loader) :=
  run loadScalar grow calls (.fresh loader)

def Part.direct : Part → List Nat
  | .scalar location => [location]
  | .nothing => []
  | .both head tail => head.direct ++ tail.direct
  | .deferred _ => []

def Part.delayed : Part → List Part
  | .scalar _ => []
  | .nothing => []
  | .both head tail => head.delayed ++ tail.delayed
  | .deferred v => [v]

def Part.weight : Part → Nat
  | .scalar _ => 1
  | .nothing => 1
  | .both head tail => head.weight + tail.weight
  | .deferred v => v.weight + 1

def total : List Part → Nat
  | [] => 0
  | d :: ds => d.weight + total ds

theorem total_append (ds es : List Part) : total (ds ++ es) = total ds + total es := by
  induction ds with
  | nil => exact (Nat.zero_add _).symm
  | cons d ds ih => rw [cons_append,total,total,ih,Nat.add_assoc]

theorem total_delayed (v : Part) : total v.delayed < v.weight := by
  induction v with
  | scalar location | nothing => exact Nat.one_pos
  | both head tail ihead itail =>
    rw [Part.delayed,Part.weight,total_append]
    omega
  | deferred v _ => exact Nat.lt_succ_self _

def drained : List Part → List Nat
  | [] => []
  | d :: ds => d.direct ++ drained (ds ++ d.delayed)
  termination_by ds => total ds
  decreasing_by
    have := total_delayed d
    rw [total_append,total]
    omega

def ordered : List Part → List Call → List Nat
  | _, [] => []
  | pending, .archive v :: calls => v.direct ++ ordered (pending ++ v.delayed) calls
  | pending, .serializeDeferments :: calls => drained pending ++ ordered [] calls

structure Saved (source : Nat → UInt64) (calls : List Call) (ar : Archive (List UInt64)) : Prop where
  once : ar.called = range ar.itsDeferments.length
  written : ar.device = (ordered [] calls).map source

structure Loaded (source : Nat → UInt64) (calls : List Call) (rest : List UInt64)
    (target : Nat → UInt64) (ar : Archive Loader) : Prop where
  once : ar.called = range ar.itsDeferments.length
  consumed : ar.device.stream = rest
  restored : ∀ l ∈ ordered [] calls, ar.device.target l = source l
  kept : ∀ l ∉ ordered [] calls, ar.device.target l = target l

def DeferredOnce (grow : Nat → Nat) (calls : List Call) : Prop :=
  ∀ source, ∃ ar, save grow source calls = .ok ar ∧ Saved source calls ar ∧
    ∀ rest target, ∃ ar', load grow ⟨ar.device ++ rest,target⟩ calls = .ok ar' ∧
      Loaded source calls rest target ar'

def Flat (parts : List Part) : Prop := ∀ d ∈ parts, d.delayed = []

def Undisturbed : List Call → Prop
  | [] => True
  | .serializeDeferments :: calls => Undisturbed calls
  | .archive v :: calls =>
    Flat v.delayed ∧ (v.delayed ≠ [] → .serializeDeferments ∉ calls) ∧ Undisturbed calls

theorem saveScalar_all (source : Nat → UInt64) (locations : List Nat) (stream : List UInt64) :
    locations.foldlM (saveScalar source) stream = .ok (stream ++ locations.map source) := by
  induction locations generalizing stream with
  | nil => simp [pure,Except.pure]
  | cons location rest ih =>
    rw [foldlM_cons]
    refine (ih _).trans ?_
    simp

theorem loadScalar_all (source : Nat → UInt64) (locations : List Nat) : ∀ target rest, ∃ loader,
    locations.foldlM loadScalar ⟨locations.map source ++ rest,target⟩ = .ok loader ∧
      loader.stream = rest ∧ (∀ l ∈ locations, loader.target l = source l) ∧
        ∀ l ∉ locations, loader.target l = target l := by
  induction locations with
  | nil => exact fun target rest => ⟨⟨rest,target⟩,rfl,rfl,by simp,fun _ _ => rfl⟩
  | cons location locations ih =>
    intro target rest
    obtain ⟨loader,hload,hrest,hsame,hother⟩ :=
      ih (Function.update target location (source location)) rest
    refine ⟨loader,hload,hrest,?_,?_⟩
    · intro l hl
      by_cases hin : l ∈ locations
      · exact hsame l hin
      · obtain rfl : l = location := (mem_cons.mp hl).resolve_right hin
        rw [hother l hin,Function.update_self]
    · intro l hl
      rw [mem_cons,not_or] at hl
      rw [hother l hl.2,Function.update_of_ne hl.1]

section

variable {σ : Type} {scalar : σ → Nat → Except Stop σ} {grow : Nat → Nat}
  {ar ar' : Archive σ} {storage i : Nat}

structure Defers (scalar : σ → Nat → Except Stop σ) (ar ar' : Archive σ) (v : Part) : Prop where
  fed : v.direct.foldlM scalar ar.device = .ok ar'.device
  deferments : ar'.itsDeferments = ar.itsDeferments ++ v.delayed
  called : ar'.called = ar.called
  stays : v.delayed = [] → ar'.storage = ar.storage

theorem process_defers (v : Part) : ∀ {ar ar'}, process scalar grow v ar = .ok ar' →
    Defers scalar ar ar' v := by
  induction v with
  | scalar location =>
    intro ar ar' h
    obtain ⟨device,hdevice,hnext⟩ := bind_eq_ok h
    cases hnext
    exact ⟨ok_of_bind hdevice rfl,(append_nil _).symm,rfl,fun _ => rfl⟩
  | nothing =>
    intro ar ar' h
    cases h
    exact ⟨rfl,(append_nil _).symm,rfl,fun _ => rfl⟩
  | both head tail ihead itail =>
    intro ar ar' h
    obtain ⟨ar1,hhead,htail⟩ := bind_eq_ok h
    have hh := ihead hhead
    have ht := itail htail
    refine ⟨?_,?_,ht.called.trans hh.called,?_⟩
    · rw [Part.direct,foldlM_append]
      exact ok_of_bind hh.fed ht.fed
    · rw [ht.deferments,hh.deferments,append_assoc,Part.delayed]
    · intro hnone
      obtain ⟨hnone,hnone'⟩ := append_eq_nil_iff.mp hnone
      exact (ht.stays hnone').trans (hh.stays hnone)
  | deferred v _ =>
    intro ar ar' h
    cases h
    unfold emplaceBack
    dsimp only
    split <;> exact ⟨rfl,rfl,rfl,by simp [Part.delayed]⟩

theorem process_fed (v : Part) : ∀ {ar : Archive σ} {device},
    v.direct.foldlM scalar ar.device = .ok device → ∃ ar', process scalar grow v ar = .ok ar' := by
  induction v with
  | scalar location =>
    intro ar device h
    obtain ⟨device,hdevice,-⟩ := bind_eq_ok h
    exact ⟨_,ok_of_bind hdevice rfl⟩
  | nothing | deferred v _ => exact fun _ => ⟨_,rfl⟩
  | both head tail ihead itail =>
    intro ar device h
    rw [Part.direct,foldlM_append] at h
    obtain ⟨middle,hfirst,hsecond⟩ := bind_eq_ok h
    obtain ⟨ar1,hhead⟩ := ihead hfirst
    have hmiddle : ar1.device = middle :=
      Except.ok.inj ((process_defers head hhead).fed.symm.trans hfirst)
    obtain ⟨ar2,htail⟩ := itail (hmiddle ▸ hsecond)
    exact ⟨ar2,ok_of_bind hhead htail⟩

structure Calls (scalar : σ → Nat → Except Stop σ) (ar ar' : Archive σ) (i : Nat)
    (ds : List Part) : Prop where
  fed : (ds.flatMap Part.direct).foldlM scalar ar.device = .ok ar'.device
  deferments : ar'.itsDeferments = ar.itsDeferments ++ ds.flatMap Part.delayed
  called : ar'.called = ar.called ++ range' i ds.length

theorem callDeferments_calls (ds : List Part) : ∀ {i} {ar : Archive σ},
    callDeferments scalar grow storage i ds ar = .ok ar' → Calls scalar ar ar' i ds := by
  induction ds with
  | nil =>
    intro i ar h
    cases h
    exact ⟨rfl,(append_nil _).symm,(append_nil _).symm⟩
  | cons d ds ih =>
    intro i ar h
    obtain ⟨ar1,hd,hrest⟩ := bind_eq_ok h
    split at hrest
    · have hd := process_defers d hd
      have hds := ih hrest
      refine ⟨?_,?_,?_⟩
      · rw [flatMap_cons,foldlM_append]
        exact ok_of_bind hd.fed hds.fed
      · rw [hds.deferments,hd.deferments,flatMap_cons,append_assoc]
      · rw [hds.called,hd.called,length_cons,range'_succ,append_assoc]
        rfl
    · cases hrest

theorem callDeferments_flat {ds : List Part} (hflat : Flat ds) : ∀ {i} {ar : Archive σ} {device},
    ar.storage = storage → (ds.flatMap Part.direct).foldlM scalar ar.device = .ok device →
      ∃ ar', callDeferments scalar grow storage i ds ar = .ok ar' := by
  induction ds with
  | nil => exact fun _ _ => ⟨_,rfl⟩
  | cons d ds ih =>
    intro i ar device hstorage hfed
    obtain ⟨hd,hds⟩ := forall_mem_cons.mp hflat
    rw [flatMap_cons,foldlM_append] at hfed
    obtain ⟨middle,hfirst,hsecond⟩ := bind_eq_ok hfed
    obtain ⟨ar1,hprocess⟩ := @process_fed σ scalar grow d { ar with called := ar.called ++ [i] } _ hfirst
    have hdefers := process_defers d hprocess
    have hmiddle : ar1.device = middle := Except.ok.inj (hdefers.fed.symm.trans hfirst)
    have hsame : ar1.storage = storage := (hdefers.stays hd).trans hstorage
    obtain ⟨ar2,hrest⟩ := @ih hds (i + 1) ar1 device hsame (hmiddle ▸ hsecond)
    exact ⟨ar2,ok_of_bind hprocess ((if_pos hsame).trans hrest)⟩

theorem drained_flat {ds : List Part} (hflat : Flat ds) : drained ds = ds.flatMap Part.direct := by
  induction ds with
  | nil => rw [drained,flatMap_nil]
  | cons d ds ih =>
    obtain ⟨hd,hds⟩ := forall_mem_cons.mp hflat
    rw [drained,hd,append_nil,ih hds,flatMap_cons]

def Idle (ar : Archive σ) : Prop := ar.called = [] ∧ Flat ar.itsDeferments

theorem serializeDeferments_once (h : serializeDeferments scalar grow ar = .ok ar') :
    ar'.called = range ar'.itsDeferments.length ↔ Idle ar := by
  obtain ⟨-,hdeferments,hcalled⟩ := callDeferments_calls _ h
  rw [← range_eq_range'] at hcalled
  have hnested : ar.itsDeferments.flatMap Part.delayed = [] ↔ Flat ar.itsDeferments :=
    flatMap_eq_nil_iff
  rw [hdeferments,hcalled,length_append]
  constructor
  · intro hrange
    have hlen := congrArg List.length hrange
    rw [length_append,length_range,length_range] at hlen
    have hempty : ar.called = [] := by
      cases hds : ar.itsDeferments with
      | nil =>
        rw [hds] at hlen
        exact eq_nil_of_length_eq_zero (by simpa using hlen)
      | cons d ds =>
        have hpos : 0 < ar.itsDeferments.length := by simp [hds]
        have hat := congrArg (·[ar.called.length]?) hrange
        rw [getElem?_append_right (Nat.le_refl _),Nat.sub_self,getElem?_range hpos,
          getElem?_range (by omega)] at hat
        exact eq_nil_of_length_eq_zero (Option.some.inj hat).symm
    refine ⟨hempty,hnested.mp (eq_nil_of_length_eq_zero ?_)⟩
    rw [hempty] at hlen
    simpa using hlen.symm
  · rintro ⟨hempty,hflat⟩
    rw [hempty,hnested.mpr hflat]
    simp

def Quiet (ds : List Part) (calls : List Call) : Prop :=
  (ds ≠ [] → .serializeDeferments ∉ calls) ∧ Undisturbed calls

theorem quiet_archive {v : Part} {calls : List Call} {ds : List Part} :
    Quiet ds (.archive v :: calls) ↔ Flat v.delayed ∧ Quiet (ds ++ v.delayed) calls := by
  rw [Quiet,Quiet,Undisturbed]
  simp only [ne_eq,append_eq_nil_iff,mem_cons,reduceCtorEq,false_or]
  tauto

theorem quiet_serializeDeferments {calls : List Call} {ds : List Part} :
    Quiet ds (.serializeDeferments :: calls) ↔ ds = [] ∧ Undisturbed calls := by
  rw [Quiet,Undisturbed]
  simp

theorem idle_runs (calls : List Call) : ∀ {ar : Archive σ}, run scalar grow calls ar = .ok ar' →
    (Idle ar' ↔ Idle ar ∧ Quiet ar.itsDeferments calls) := by
  induction calls with
  | nil =>
    intro ar h
    cases h
    simp [Quiet,Undisturbed]
  | cons call calls ih =>
    intro ar h
    rw [run,foldlM_cons] at h
    obtain ⟨ar1,hcall,hrest⟩ := bind_eq_ok h
    rw [ih hrest]
    cases call with
    | archive v =>
      have hd := process_defers v hcall
      rw [quiet_archive,Idle,Idle,hd.called,hd.deferments,Flat,forall_mem_append]
      tauto
    | serializeDeferments =>
      obtain ⟨-,hdeferments,hcalled⟩ := callDeferments_calls _ hcall
      rw [quiet_serializeDeferments,Idle,Idle,Quiet,hdeferments,hcalled]
      cases hds : ar.itsDeferments with
      | nil => simp [Flat]
      | cons d ds => simp

theorem quiet_runs (calls : List Call) : ∀ {ar : Archive σ} {device}, Idle ar →
    Quiet ar.itsDeferments calls →
    (ordered ar.itsDeferments (calls ++ [.serializeDeferments])).foldlM scalar ar.device = .ok device →
      ∃ ar', run scalar grow (calls ++ [.serializeDeferments]) ar = .ok ar' ∧ ar'.device = device := by
  induction calls with
  | nil =>
    intro ar device hidle _ hfed
    rw [nil_append,ordered,drained_flat hidle.2,ordered,append_nil] at hfed
    obtain ⟨ar',hrun⟩ := @callDeferments_flat σ scalar grow _ _ hidle.2 0 ar device rfl hfed
    exact ⟨ar',ok_of_bind hrun rfl,
      Except.ok.inj ((callDeferments_calls _ hrun).fed.symm.trans hfed)⟩
  | cons call calls ih =>
    intro ar device hidle hquiet hfed
    cases call with
    | archive v =>
      obtain ⟨hflat,hquiet⟩ := quiet_archive.mp hquiet
      rw [cons_append,ordered,foldlM_append] at hfed
      obtain ⟨middle,hfirst,hsecond⟩ := bind_eq_ok hfed
      obtain ⟨ar1,hprocess⟩ := @process_fed σ scalar grow v ar _ hfirst
      obtain ⟨hdevice,hdeferments,hcalled,-⟩ := process_defers v hprocess
      obtain rfl : ar1.device = middle := Except.ok.inj (hdevice.symm.trans hfirst)
      rw [← hdeferments] at hquiet hsecond
      have hidle : Idle ar1 :=
        ⟨hcalled.trans hidle.1,hdeferments ▸ forall_mem_append.mpr ⟨hidle.2,hflat⟩⟩
      obtain ⟨ar',hrun,hend⟩ := ih hidle hquiet hsecond
      exact ⟨ar',ok_of_bind hprocess hrun,hend⟩
    | serializeDeferments =>
      obtain ⟨hnone,hrest⟩ := quiet_serializeDeferments.mp hquiet
      rw [cons_append,ordered,hnone,drained,nil_append] at hfed
      obtain ⟨ar',hrun,hend⟩ := ih hidle ⟨absurd hnone,hrest⟩ (hnone.symm ▸ hfed)
      refine ⟨ar',ok_of_bind ?_ hrun,hend⟩
      rw [perform,serializeDeferments,hnone]
      rfl

theorem last_once (calls : List Call)
    (h : run scalar grow (calls ++ [.serializeDeferments]) ar = .ok ar') :
    ar'.called = range ar'.itsDeferments.length ↔ Idle ar ∧ Quiet ar.itsDeferments calls := by
  rw [run,foldlM_append] at h
  obtain ⟨ar1,hcalls,hlast⟩ := bind_eq_ok h
  obtain ⟨ar2,hserialize,hend⟩ := bind_eq_ok hlast
  cases hend
  rw [serializeDeferments_once hserialize,idle_runs calls hcalls]

theorem fresh_quiet (device : σ) (calls : List Call) :
    Idle (.fresh device) ∧ Quiet (Archive.fresh device).itsDeferments calls ↔ Undisturbed calls := by
  simp [Idle,Quiet,Archive.fresh,Flat]

end

theorem deferred_once_iff (grow : Nat → Nat) (calls : List Call) :
    DeferredOnce grow (calls ++ [.serializeDeferments]) ↔ Undisturbed calls := by
  constructor
  · intro h
    obtain ⟨ar,hsave,hsaved,-⟩ := h fun _ => 0
    exact (fresh_quiet _ calls).mp ((last_once calls hsave).mp hsaved.once)
  · intro h source
    have hstart := (fresh_quiet ([] : List UInt64) calls).mpr h
    obtain ⟨ar,hsave,hwritten⟩ := @quiet_runs _ _ grow calls _ _ hstart.1 hstart.2
      (saveScalar_all source _ [])
    rw [nil_append,Archive.fresh] at hwritten
    refine ⟨ar,hsave,⟨(last_once calls hsave).mpr hstart,hwritten⟩,?_⟩
    intro rest target
    obtain ⟨loader,hfed,hrest,hsame,hother⟩ := loadScalar_all source
      (ordered [] (calls ++ [.serializeDeferments])) target rest
    rw [← hwritten] at hfed
    have hstart := (fresh_quiet (⟨ar.device ++ rest,target⟩ : Loader) calls).mpr h
    obtain ⟨ar',hload,hend⟩ := @quiet_runs _ _ grow calls _ _ hstart.1 hstart.2 hfed
    subst hend
    exact ⟨ar',hload,⟨(last_once calls hload).mpr hstart,hrest,hsame,hother⟩⟩

theorem deferred_written_twice :
    (save id (fun _ => 5) [.archive (.deferred (.scalar 7)),.serializeDeferments,
      .serializeDeferments]).map Archive.device = .ok [5,5] ∧
    (save id (fun _ => 5) [.archive (.deferred (.both (.scalar 7) (.deferred (.scalar 8)))),
      .serializeDeferments]).map Archive.device = .error .invalidIterator ∧
    ¬DeferredOnce id
      [.archive (.deferred (.scalar 7)),.serializeDeferments,.serializeDeferments] := by
  refine ⟨rfl,rfl,?_⟩
  intro h
  obtain ⟨ar,hsave,hsaved,-⟩ := h fun _ => 5
  cases hsave
  cases hsaved.once

end FuzzingTargets.Cereal.Deferments
