import FuzzingTargets.UBoot.HashTable.Searching

namespace FuzzingTargets.UBoot.HashTable

open Probing Checked Function

def entries (htab : HsearchData) (key : CString) : Option Entry :=
  (lookup keyOf (probes htab.size) htab.table key).map (·.entry)

def contents (htab : HsearchData) (key : CString) : Option CString :=
  (lookup keyOf (probes htab.size) htab.table key).map (·.entry.data)

def values (env : CString → Option Entry) (key : CString) : Option CString :=
  (env key).map (·.data)

theorem contents_eq (htab : HsearchData) : contents htab = values (entries htab) := by
  funext key
  rw [contents,values,entries,Option.map_map]
  rfl

theorem values_update (env : CString → Option Entry) (key : CString) (entry : Option Entry) :
    values (update env key entry) = update (values env) key (entry.map (·.data)) := by
  funext k
  by_cases hk : k = key
  · subst hk
    simp [values]
  · simp [values,hk]

noncomputable def liveKeys (env : CString → Option Entry) : Nat := {key | env key ≠ none}.ncard

section

variable {htab : HsearchData} {i filled : Nat} {u : Used} {key : CString}

theorem valid_create {size : Nat} (hsize : GoodSize size) : Valid ⟨size,0,fun _ => .free⟩ where
  size := hsize
  sound := sound_empty
  hashed := nofun
  inside := nofun
  zero := rfl
  filled := by
    symm
    rw [Finset.card_eq_zero,Finset.eq_empty_iff_forall_notMem]
    intro i hi
    obtain ⟨_,u,hu⟩ := mem_occupied.mp hi
    cases hu

theorem entries_of_room {o : Option Nat} (h : place htab key = .room o) :
    entries htab key = none := by
  simp [entries,lookup_of_room h]

variable (hv : Valid htab)
include hv

theorem valid_update {x : Slot Used} (hi : i ∈ Finset.Icc 1 htab.size)
    (hsound : Sound keyOf (probes htab.size) (update htab.table i x))
    (hx : ∀ u, x = .live u → u.hval = firstHash htab.size u.entry.key)
    (hfilled : filled =
      (occupied (Finset.Icc 1 htab.size) (update htab.table i x)).card) :
    Valid ⟨htab.size,filled,update htab.table i x⟩ where
  size := hv.size
  sound := hsound
  hashed := by
    intro j v hj
    rcases update_eq_live.mp hj with ⟨_,hxv⟩ | ⟨_,hj⟩
    · exact hx v hxv
    · exact hv.hashed j v hj
  inside := by
    intro j v hj
    rcases update_eq_live.mp hj with ⟨rfl,_⟩ | ⟨_,hj⟩
    · exact hi
    · exact hv.inside j v hj
  zero := by
    have hne : (0 : Nat) ≠ i := by
      have := Finset.mem_Icc.mp hi
      omega
    show update htab.table i x 0 = .free
    rw [update_of_ne hne,hv.zero]
  filled := hfilled

theorem filled_le : htab.filled ≤ htab.size := by
  rw [hv.filled]
  calc (occupied (Finset.Icc 1 htab.size) htab.table).card
      ≤ (Finset.Icc 1 htab.size).card := Finset.card_filter_le _ _
    _ = htab.size := by simp

theorem liveKeys_entries : liveKeys (entries htab) = htab.filled := by
  rw [hv.filled,← ncard_lookup hv.sound hv.inside,liveKeys]
  congr 1
  ext key
  simp [entries]

theorem ncard_contents : {key | contents htab key ≠ none}.ncard = htab.filled := by
  rw [← liveKeys_entries hv,contents_eq]
  simp [liveKeys,values]

section

variable (entry : Entry) (h : place htab entry.key = .room (some i))
include entry h

theorem valid_insert (hroom : htab.filled ≠ htab.size) : Valid
      { htab with
        table := update htab.table i (.live ⟨firstHash htab.size entry.key,entry⟩)
        filled := (htab.filled + 1) % 2 ^ 32 } := by
  obtain hf | ⟨p,q,hpq,_,hi⟩ := scan_room h
  · cases hf
  have hin : i ∈ Finset.Icc 1 htab.size := by
    rw [← mem_probes hv.size entry.key,hpq]
    simp
  have hle := filled_le hv
  have hlt := hv.size.1
  refine valid_update hv hin (sound_insert hv.sound h) ?_ ?_
  · rintro w ⟨⟩
    rfl
  · rw [occupied_insert hin hi,← hv.filled]
    omega

theorem entries_insert : entries
      { htab with
        table := update htab.table i (.live ⟨firstHash htab.size entry.key,entry⟩)
        filled := filled } =
      update (entries htab) entry.key (some entry) := by
  funext k
  have hlookup := lookup_insert (a := Used.mk (firstHash htab.size entry.key) entry) hv.sound h
  simp only [entries,hlookup,keyOf]
  by_cases hk : k = entry.key
  · simp [hk]
  · simp [hk,entries]

end

section

variable (hi : htab.table i = .live u)
include hi

theorem valid_overwrite {v : Used} (hval : v.hval = u.hval) (hkey : v.entry.key = u.entry.key) :
    Valid { htab with table := update htab.table i (.live v) } := by
  have hin := hv.inside i u hi
  refine valid_update hv hin (sound_overwrite hv.sound hi hkey) ?_ ?_
  · rintro w ⟨⟩
    rw [hval,hkey]
    exact hv.hashed i u hi
  · rw [occupied_overwrite hin hi]
    exact hv.filled

theorem entries_overwrite {v : Used} (hkey : v.entry.key = u.entry.key) :
    entries { htab with table := update htab.table i (.live v) } =
      update (entries htab) u.entry.key (some v.entry) := by
  funext k
  simp only [entries,lookup_overwrite hv.sound hi hkey,keyOf]
  by_cases hk : k = u.entry.key
  · simp [hk]
  · simp [hk,entries]

theorem filled_pos : 0 < htab.filled := by
  rw [hv.filled,Finset.card_pos]
  exact ⟨i,mem_occupied.mpr ⟨hv.inside i u hi,u,hi⟩⟩

theorem valid_delete : Valid (hdeleteEntry htab i) := by
  have hin := hv.inside i u hi
  have hpos := filled_pos hv hi
  refine valid_update hv hin (sound_delete hv.sound i) nofun ?_
  rw [occupied_delete hin hi,← hv.filled]
  exact if_pos hpos

theorem entries_delete :
    entries (hdeleteEntry htab i) = update (entries htab) u.entry.key none := by
  funext k
  simp only [entries,hdeleteEntry,lookup_delete hv.sound hi,keyOf]
  by_cases hk : k = u.entry.key
  · simp [hk]
  · simp [hk,entries]

theorem entries_of_live : entries htab u.entry.key = some u.entry := by
  have hlookup : lookup keyOf (probes htab.size) htab.table u.entry.key = some u :=
    (lookup_eq_some hv.sound).mpr ⟨i,hi,rfl⟩
  rw [entries,hlookup,Option.map_some]

theorem contents_of_live : contents htab u.entry.key = some u.entry.data := by
  rw [contents_eq,values,entries_of_live hv hi,Option.map_some]

end

theorem entries_of_hit (h : place htab key = .hit i) :
    ∃ u, htab.table i = .live u ∧ u.entry.key = key ∧ entries htab key = some u.entry := by
  obtain ⟨u,hi,hkey⟩ := scan_hit h
  exact ⟨u,hi,hkey,hkey ▸ entries_of_live hv hi⟩

theorem room_of_filled {o : Option Nat} (h : place htab key = .room o)
    (hroom : htab.filled ≠ htab.size) : ∃ i, o = some i := by
  cases o with
  | some i => exact ⟨i,rfl⟩
  | none =>
    have hfull := occupied_full h fun i hi => (mem_probes hv.size key i).mpr hi
    refine absurd ?_ hroom
    rw [hv.filled,hfull]
    simp

end

inductive Call where
  | find (key : CString) (flag : Nat)
  | enter (key data : CString) (flag : Nat)
  | delete (key : CString) (flag : Nat)
  | walk (visit : Entry → (Option Nat × Nat) × Int)

inductive Reply where
  | value (data : Option CString)
  | done
  | failed (errno : Errno)
  | walked (retval : Int)
  deriving DecidableEq

def replyOf (errno : Option Errno) : Reply :=
  match errno with
  | none => .done
  | some e => .failed e

def perform (policy : Policy) : Call → HsearchData → Except Fault (Reply × HsearchData)
  | .find key flag, htab => do
    let (answer,htab) ← hsearchR policy key .find htab flag
    return (.value (answer.retval.map (·.data)),htab)
  | .enter key data flag, htab => do
    let (answer,htab) ← hsearchR policy key (.enter data) htab flag
    return (replyOf answer.errno,htab)
  | .delete key flag, htab => do
    let ((_,errno),htab) ← hdeleteR policy key htab flag
    return (replyOf errno,htab)
  | .walk visit, htab => do
    let (retval,htab) ← hwalkR visit htab
    return (.walked retval,htab)

def created (policy : Policy) (key data : CString) : Entry :=
  ⟨key,data,policy.callbackInit key,policy.flagsInit key⟩

def refusal (policy : Policy) (entry : Entry) (value : Option CString) (op : EnvOp) (flag : Nat) :
    Option Errno :=
  if changeRejected policy entry value op flag then some .eperm
  else if callbackRejected policy entry.callback entry.key value op flag then some .einval
  else none

section

variable (size : Nat) (policy : Policy) (env : CString → Option Entry)

def settled (refused : Option Errno) (env' : CString → Option Entry) :
    Reply × (CString → Option Entry) :=
  match refused with
  | none => (.done,env')
  | some errno => (.failed errno,env)

open Classical in
noncomputable def entered (key data : CString) (flag : Nat) : Reply × (CString → Option Entry) :=
  match env key with
  | some entry => settled env (refusal policy entry (some data) .overwrite flag)
      (update env key (some { entry with data := data }))
  | none =>
    if liveKeys env = size then (.failed .enomem,env)
    else settled env (refusal policy (created policy key data) (some data) .create flag)
      (update env key (some (created policy key data)))

def deleted (key : CString) (flag : Nat) : Reply × (CString → Option Entry) :=
  match env key with
  | some entry => settled env (refusal policy entry none .delete flag) (update env key none)
  | none => (.failed .esrch,env)

def Serves (call : Call) (out : Reply × (CString → Option Entry)) : Prop :=
  match call with
  | .find key _ => out = (.value (values env key),env)
  | .enter key data flag => out = entered size policy env key data flag
  | .delete key flag => out = deleted policy env key flag
  | .walk _ => (∃ retval, out.1 = .walked retval) ∧
      values out.2 = values env

end

structure Step (htab : HsearchData) (policy : Policy) (call : Call)
    (out : Except Fault (Reply × HsearchData)) (reply : Reply) (htab' : HsearchData) : Prop where
  result : out = .ok (reply,htab')
  valid : Valid htab'
  size : htab'.size = htab.size
  serves : Serves htab.size policy (entries htab) call (reply,entries htab')

section

variable {htab : HsearchData} {policy : Policy} {key : CString} {flag : Nat} {htab' : HsearchData}

theorem hwalkLoop_keeps (visit : Entry → (Option Nat × Nat) × Int) (is : List Nat) :
    ∀ htab, Valid htab → Valid (hwalkLoop visit is htab).2 ∧
      (hwalkLoop visit is htab).2.size = htab.size ∧
      contents (hwalkLoop visit is htab).2 = contents htab := by
  induction is with
  | nil => exact fun htab hv => ⟨hv,rfl,rfl⟩
  | cons i is ih =>
    intro htab hv
    unfold hwalkLoop
    split
    · exact ih htab hv
    · exact ih htab hv
    rename_i u hi
    split
    · dsimp only
      generalize hentry : ({ u.entry with
        callback := (visit u.entry).1.1, flags := (visit u.entry).1.2 } : Entry) = entry
      have hkey : entry.key = u.entry.key := by rw [← hentry]
      have hdata : entry.data = u.entry.data := by rw [← hentry]
      have hv' := valid_overwrite hv hi (v := ⟨u.hval,entry⟩) rfl hkey
      have hcontents : contents { htab with table := update htab.table i (.live ⟨u.hval,entry⟩) } =
          contents htab := by
        rw [contents_eq,entries_overwrite hv hi (v := ⟨u.hval,entry⟩) hkey,values_update,
          Option.map_some,hdata,← contents_eq,← contents_of_live hv hi,update_eq_self]
      split
      · exact ⟨hv',rfl,hcontents⟩
      · obtain ⟨h1,h2,h3⟩ := ih _ hv'
        exact ⟨h1,h2,h3.trans hcontents⟩
    · exact ih htab hv

variable (hv : Valid htab)
include hv

theorem find_answer (policy : Policy) (key : CString) (flag : Nat) :
    (∃ i u, htab.table i = .live u ∧ u.entry.key = key ∧ entries htab key = some u.entry ∧
      hsearchR policy key .find htab flag = .ok (⟨int32 i,some u.entry,none⟩,htab)) ∨
    (entries htab key = none ∧
      hsearchR policy key .find htab flag = .ok (⟨0,none,some .esrch⟩,htab)) := by
  have h := hsearchR_answers policy key .find flag hv
  cases hscan : place htab key with
  | hit i =>
    rw [hscan] at h
    obtain ⟨r,hr,hout⟩ := h
    obtain ⟨u,hi,hkey,hentry⟩ := entries_of_hit hv hscan
    have hval := hv.hashed i u hi
    refine .inl ⟨i,u,hi,hkey,hentry,?_⟩
    rw [hout]
    simp only [compareAndOverwriteEntry,hi,hval,hkey,and_self,if_true,Option.some.injEq] at hr
    rw [hr]
  | room o =>
    rw [hscan] at h
    obtain ⟨idx,firstDeleted,hout,_⟩ := h
    exact .inr ⟨entries_of_room hscan,hout⟩

theorem find_step : ∃ reply htab',
    Step htab policy (.find key flag) (perform policy (.find key flag) htab) reply htab' := by
  rcases find_answer hv policy key flag with ⟨i,u,_,_,he,hout⟩ | ⟨he,hout⟩
  · exact ⟨_,_,by rw [perform,hout]; rfl,hv,rfl,by simp [Serves,values,he]⟩
  · exact ⟨_,_,by rw [perform,hout]; rfl,hv,rfl,by simp [Serves,values,he]⟩

theorem overwrite_step {i : Nat} {u : Used} (hi : htab.table i = .live u) (hkey : u.entry.key = key)
    (data : CString) {answer : Answer}
    (hr : compareAndOverwriteEntry policy key (.enter data) htab flag
      (firstHash htab.size key) i = some (answer,htab')) : Valid htab' ∧ htab'.size = htab.size ∧
      (replyOf answer.errno,entries htab') = settled (entries htab)
        (refusal policy u.entry (some data) .overwrite flag)
        (update (entries htab) key (some { u.entry with data := data })) := by
  subst hkey
  have hval := hv.hashed i u hi
  simp only [compareAndOverwriteEntry,hi,hval,and_self,if_true] at hr
  rw [refusal]
  split at hr
  · rename_i hchange
    cases hr
    rw [if_pos hchange]
    exact ⟨hv,rfl,rfl⟩
  rename_i hchange
  rw [if_neg hchange]
  split at hr
  · rename_i hcallback
    cases hr
    rw [if_pos hcallback]
    exact ⟨hv,rfl,rfl⟩
  rename_i hcallback
  cases hr
  rw [if_neg hcallback]
  exact ⟨valid_overwrite hv hi hval.symm rfl,rfl,congrArg _ (entries_overwrite hv hi rfl)⟩

theorem entries_rejected (entry : Entry) {i : Nat} (hscan : place htab entry.key = .room (some i))
    (hroom : htab.filled ≠ htab.size) (h : htab' = { htab with
      table := update htab.table i (.live ⟨firstHash htab.size entry.key,entry⟩)
      filled := (htab.filled + 1) % 2 ^ 32 }) :
    Valid (hdeleteEntry htab' i) ∧ entries (hdeleteEntry htab' i) = entries htab := by
  have hv' := valid_insert hv entry hscan hroom
  rw [← h] at hv'
  have hi : htab'.table i = .live ⟨firstHash htab.size entry.key,entry⟩ := by
    rw [h]
    exact update_self i _ _
  refine ⟨valid_delete hv' hi,?_⟩
  rw [entries_delete hv' hi,h,entries_insert hv entry hscan,update_idem,
    ← entries_of_room hscan,update_eq_self]

theorem create_step {o : Option Nat} (hscan : place htab key = .room o) (data : CString)
    {idx firstDeleted : Nat}
    (hplace : ∀ i, o = some i → (if firstDeleted ≠ 0 then firstDeleted else idx) = i)
    {answer : Answer}
    (hr : createEntry policy key (.enter data) htab flag (firstHash htab.size key) idx
      firstDeleted = (answer,htab')) :
    Valid htab' ∧ htab'.size = htab.size ∧
      (replyOf answer.errno,entries htab') =
        if htab.filled = htab.size then (.failed .enomem,entries htab)
        else settled (entries htab)
          (refusal policy (created policy key data) (some data) .create flag)
          (update (entries htab) key (some (created policy key data))) := by
  unfold createEntry at hr
  dsimp only at hr
  split at hr
  · rename_i hfull
    cases hr
    exact ⟨hv,rfl,(if_pos hfull).symm⟩
  rename_i hroom
  rw [if_neg hroom]
  obtain ⟨i,rfl⟩ := room_of_filled hv hscan hroom
  rw [hplace i rfl] at hr
  have hrejected := entries_rejected hv (created policy key data) hscan hroom rfl
  rw [refusal]
  split at hr
  · rename_i hchange
    cases hr
    rw [if_pos (by exact hchange)]
    exact ⟨hrejected.1,rfl,congrArg _ hrejected.2⟩
  rename_i hchange
  rw [if_neg (by exact hchange)]
  split at hr
  · rename_i hcallback
    cases hr
    rw [if_pos (by exact hcallback)]
    exact ⟨hrejected.1,rfl,congrArg _ hrejected.2⟩
  · rename_i hcallback
    cases hr
    rw [if_neg (by exact hcallback)]
    exact ⟨valid_insert hv (created policy key data) hscan hroom,rfl,
      congrArg _ (entries_insert hv (created policy key data) hscan)⟩

theorem enter_step (policy : Policy) (key data : CString) (flag : Nat) :
    ∃ reply htab', Step htab policy (.enter key data flag)
      (perform policy (.enter key data flag) htab) reply htab' := by
  have h := hsearchR_answers policy key (.enter data) flag hv
  cases hscan : place htab key with
  | hit i =>
    rw [hscan] at h
    obtain ⟨⟨answer,htab'⟩,hr,hout⟩ := h
    obtain ⟨u,hi,hkey,hentry⟩ := entries_of_hit hv hscan
    obtain ⟨hv',hsize,hentries⟩ := overwrite_step hv hi hkey data hr
    refine ⟨_,htab',by rw [perform,hout]; rfl,hv',hsize,?_⟩
    simp only [Serves,entered,hentry,hentries]
  | room o =>
    rw [hscan] at h
    obtain ⟨idx,firstDeleted,hout,hplace⟩ := h
    obtain ⟨answer,htab',hr⟩ : ∃ answer htab', createEntry policy key (.enter data) htab flag
        (firstHash htab.size key) idx firstDeleted = (answer,htab') := ⟨_,_,rfl⟩
    obtain ⟨hv',hsize,hentries⟩ := create_step hv hscan data hplace hr
    refine ⟨_,htab',by rw [perform,hout,hr]; rfl,hv',hsize,?_⟩
    simp only [Serves,entered,entries_of_room hscan,liveKeys_entries hv,hentries]

theorem hdeleteR_found {i : Nat} {u : Used} (hi : htab.table i = .live u)
    (hout : hsearchR policy key .find htab 0 = .ok (⟨int32 i,some u.entry,none⟩,htab)) :
    hdeleteR policy key htab flag =
      if changeRejected policy u.entry none .delete flag then .ok ((0,some .eperm),htab)
      else if 2 ^ 31 ≤ i then .error (.outside (int32 i))
      else if callbackRejected policy u.entry.callback key none .delete flag then
        .ok ((0,some .einval),htab)
      else .ok ((1,none),hdeleteEntry htab i) := by
  have hin := hv.bounds hi
  have hlt := hv.size.1
  have hcallback : callbackAt htab i = u.entry.callback := by rw [callbackAt,hi]
  rw [hdeleteR,hout,bind_ok]
  simp only [Option.any_some]
  by_cases hlarge : 2 ^ 31 ≤ i
  · have hneg : int32 i < 0 := by
      rw [int32,if_neg (by omega)]
      omega
    have hne : int32 i ≠ 0 := by omega
    have houtside : int32 i < 0 ∨ (htab.size : Int) < int32 i := .inl hneg
    simp only [if_neg hne,if_pos hlarge,if_pos houtside]
    split <;> rfl
  have hret : int32 i = i := if_pos (by omega)
  have hne : (i : Int) ≠ 0 := by omega
  have hinside : ¬((i : Int) < 0 ∨ (htab.size : Int) < i) := by omega
  simp only [hret,if_neg hne,if_neg hlarge,if_neg hinside,Int.toNat_natCast,hcallback]
  split
  · rfl
  · split <;> rfl

theorem delete_step :
    (∃ reply htab', Step htab policy (.delete key flag) (perform policy (.delete key flag) htab)
      reply htab') ∨
    (2 ^ 31 ≤ htab.size ∧ ∃ fault, perform policy (.delete key flag) htab = .error fault) := by
  rcases find_answer hv policy key 0 with ⟨i,u,hi,hkey,he,hout⟩ | ⟨he,hout⟩
  · have hin := hv.bounds hi
    have hserves : ∀ out, Serves htab.size policy (entries htab) (.delete key flag) out ↔
        out = settled (entries htab) (refusal policy u.entry none .delete flag)
          (update (entries htab) key none) := by
      intro out
      simp only [Serves,deleted,he]
    rw [perform,hdeleteR_found hv hi hout]
    split
    · rename_i hchange
      refine .inl ⟨_,_,rfl,hv,rfl,(hserves _).mpr ?_⟩
      rw [refusal,if_pos hchange]
      rfl
    rename_i hchange
    split
    · exact .inr ⟨by omega,_,rfl⟩
    rw [refusal,if_neg hchange,hkey] at hserves
    split
    · rename_i hcallback
      refine .inl ⟨_,_,rfl,hv,rfl,(hserves _).mpr ?_⟩
      rw [if_pos hcallback]
      rfl
    · rename_i hcallback
      refine .inl ⟨_,_,rfl,valid_delete hv hi,rfl,(hserves _).mpr ?_⟩
      rw [if_neg hcallback,entries_delete hv hi,hkey]
      rfl
  · refine .inl ⟨.failed .esrch,htab,?_,hv,rfl,by simp only [Serves,deleted,he]⟩
    rw [perform,hdeleteR,hout]
    rfl

theorem walk_step (visit : Entry → (Option Nat × Nat) × Int) :
    (∃ reply htab', Step htab policy (.walk visit) (perform policy (.walk visit) htab) reply htab') ∨
    (2 ^ 31 ≤ htab.size ∧ ∃ fault, perform policy (.walk visit) htab = .error fault) := by
  obtain ⟨hv',hsize,hcontents⟩ :=
    hwalkLoop_keeps visit (List.range' 1 (min htab.size (2 ^ 31 - 1))) htab hv
  have hserves : ∀ retval, Serves htab.size policy (entries htab) (.walk visit) (.walked retval,
      entries (hwalkLoop visit (List.range' 1 (min htab.size (2 ^ 31 - 1))) htab).2) := by
    rw [contents_eq,contents_eq] at hcontents
    exact fun retval => ⟨⟨retval,rfl⟩,hcontents⟩
  rw [perform,hwalkR]
  dsimp only
  split
  · exact .inl ⟨_,_,rfl,hv',hsize,hserves _⟩
  · split
    · exact .inl ⟨_,_,rfl,hv',hsize,hserves _⟩
    · exact .inr ⟨by omega,_,rfl⟩

theorem perform_step (policy : Policy) (call : Call) :
    (∃ reply htab', Step htab policy call (perform policy call htab) reply htab') ∨
    (2 ^ 31 ≤ htab.size ∧ ∃ fault, perform policy call htab = .error fault) := by
  cases call with
  | find key flag => exact .inl (find_step hv)
  | enter key data flag => exact .inl (enter_step hv policy key data flag)
  | delete key flag => exact delete_step hv
  | walk visit => exact walk_step hv visit

end

def run (htab : HsearchData) : List (Policy × Call) →
    Except Fault (List (Call × Reply) × HsearchData)
  | [] => .ok ([],htab)
  | (policy,call) :: calls => do
    let (reply,htab) ← perform policy call htab
    let (past,htab) ← run htab calls
    return ((call,reply) :: past,htab)

inductive Follows (size : Nat) : (CString → Option Entry) → List (Policy × Call) →
    List (Call × Reply) → (CString → Option Entry) → Prop where
  | nil {env : CString → Option Entry} : Follows size env [] [] env
  | cons {env mid env' : CString → Option Entry} {policy : Policy} {call : Call} {reply : Reply}
      {calls : List (Policy × Call)} {past : List (Call × Reply)} :
      Serves size policy env call (reply,mid) → Follows size mid calls past env' →
      Follows size env ((policy,call) :: calls) ((call,reply) :: past) env'

def record (stored : CString → Option CString) : Call → Reply → CString → Option CString
  | .enter key data _, .done => update stored key (some data)
  | .delete key _, .done => update stored key none
  | _, _ => stored

def accepted (past : List (Call × Reply)) : CString → Option CString :=
  past.foldl (fun stored entry => record stored entry.1 entry.2) fun _ => none

theorem run_keeps (calls : List (Policy × Call)) : ∀ {htab : HsearchData}, Valid htab →
    (∃ past htab', run htab calls = .ok (past,htab') ∧ Valid htab' ∧ htab'.size = htab.size ∧
      Follows htab.size (entries htab) calls past (entries htab')) ∨
    (2 ^ 31 ≤ htab.size ∧ ∃ fault, run htab calls = .error fault) := by
  induction calls with
  | nil => exact fun hv => .inl ⟨[],_,rfl,hv,rfl,.nil⟩
  | cons call calls ih =>
    intro htab hv
    obtain ⟨policy,call⟩ := call
    rcases perform_step hv policy call with ⟨reply,htab1,hstep⟩ | ⟨hlarge,fault,hfault⟩
    · rw [run,hstep.result,bind_ok]
      rcases ih hstep.valid with ⟨past,htab2,hrun,hv2,hsize,hfollows⟩ | ⟨hlarge,fault,hrun⟩
      · rw [hstep.size] at hfollows hsize
        refine .inl ⟨(call,reply) :: past,htab2,?_,hv2,hsize,.cons hstep.serves hfollows⟩
        dsimp only
        rw [hrun,bind_ok]
        rfl
      · refine .inr ⟨by rwa [← hstep.size],fault,?_⟩
        dsimp only
        rw [hrun,bind_error]
    · exact .inr ⟨hlarge,fault,by rw [run,hfault,bind_error]⟩

section

variable {size : Nat} {policy : Policy} {env env' : CString → Option Entry}

theorem settled_values {call : Call} {refused : Option Errno} {reply : Reply}
    {after : CString → Option Entry} (hafter : values after = record (values env) call .done)
    (hfailed : ∀ errno, record (values env) call (.failed errno) = values env)
    (h : (reply,env') = settled env refused after) :
    values env' = record (values env) call reply := by
  cases refused with
  | none =>
    cases h
    exact hafter
  | some errno =>
    cases h
    exact (hfailed errno).symm

theorem serves_values {call : Call} {reply : Reply} (h : Serves size policy env call (reply,env')) :
    values env' = record (values env) call reply := by
  cases call with
  | find key flag =>
    cases h
    rfl
  | enter key data flag =>
    simp only [Serves,entered] at h
    split at h
    · exact settled_values (values_update _ _ _) (fun _ => rfl) h
    · split at h
      · cases h
        rfl
      · exact settled_values (values_update _ _ _) (fun _ => rfl) h
  | delete key flag =>
    simp only [Serves,deleted] at h
    split at h
    · exact settled_values (values_update _ _ _) (fun _ => rfl) h
    · cases h
      rfl
  | walk visit => exact h.2

theorem follows_values {calls : List (Policy × Call)} {past : List (Call × Reply)}
    (h : Follows size env calls past env') :
    values env' = past.foldl (fun stored entry => record stored entry.1 entry.2) (values env) := by
  induction h with
  | nil => rfl
  | cons hserves _ ih => rw [ih,serves_values hserves,List.foldl_cons]

end

theorem entries_create (size : Nat) : entries ⟨size,0,fun _ => .free⟩ = fun _ => none := by
  funext key
  have hscan : ∀ is : List Nat, ∃ o, scan keyOf (fun _ => .free) key none is = .room o := by
    intro is
    cases is with
    | nil | cons i is => exact ⟨_,rfl⟩
  obtain ⟨o,ho⟩ := hscan (probes size key)
  exact entries_of_room ho

theorem calls_follow_finite_map {nel : Nat} {htab0 : HsearchData} (h0 : hcreateR nel = some htab0)
    (hsize : htab0.size < 2 ^ 31) (calls : List (Policy × Call)) :
    ∃ past htab, run htab0 calls = .ok (past,htab) ∧
      Follows htab0.size (fun _ => none) calls past (entries htab) ∧
      values (entries htab) = accepted past ∧ htab.filled = liveKeys (entries htab) := by
  obtain ⟨size,hcreate,hgood⟩ := hcreateR_spec nel
  obtain rfl : (⟨size,0,fun _ => .free⟩ : HsearchData) = htab0 :=
    Option.some.inj (hcreate.symm.trans h0)
  rcases run_keeps calls (valid_create hgood) with ⟨past,htab,hrun,hv,-,hfollows⟩ | ⟨hlarge,_⟩
  · rw [entries_create] at hfollows
    exact ⟨past,htab,hrun,hfollows,follows_values hfollows,(liveKeys_entries hv).symm⟩
  · exact absurd hsize (by omega)

def lenient : Policy where
  changeOk := none
  callback := fun _ _ _ _ _ => false
  callbackInit := fun _ => none
  flagsInit := fun _ => 0

def refusing : Policy := { lenient with changeOk := some fun _ _ _ _ => true }

def text (s : List UInt8) (h : 0 ∉ s) : CString := ⟨s,h⟩

theorem hcreateR_eq {nel size : Nat} (h : hcreateLoop (2 ^ 31) (nel ||| 1) = some size) :
    hcreateR nel = some ⟨size,0,fun _ => .free⟩ := by
  rw [hcreateR,h,Option.map_some]

theorem hcreateR_two : hcreateR 2 = some ⟨5,0,fun _ => .free⟩ := hcreateR_eq (by decide)

def settings : List (Policy × Call) :=
  [(lenient,.enter (text [97] (by decide)) (text [49,10,50] (by decide)) 0),
   (lenient,.enter (text [98,99] (by decide)) (text [120] (by decide)) 0),
   (lenient,.enter (text [98,99] (by decide)) (text [92,120] (by decide)) 0),
   (refusing,.enter (text [97] (by decide)) (text [51] (by decide)) 0),
   (lenient,.find (text [97] (by decide)) 0)]

def twoEntries : HsearchData :=
  ⟨5,2,update (update (update (fun _ => .free)
    3 (.live ⟨3,⟨text [97] (by decide),text [49,10,50] (by decide),none,0⟩⟩))
    4 (.live ⟨4,⟨text [98,99] (by decide),text [120] (by decide),none,0⟩⟩))
    4 (.live ⟨4,⟨text [98,99] (by decide),text [92,120] (by decide),none,0⟩⟩)⟩

theorem run_settings : ∃ past, run ⟨5,0,fun _ => .free⟩ settings = .ok (past,twoEntries) :=
  ⟨_,rfl⟩

theorem settings_follow_finite_map :
    ∃ past htab, run ⟨5,0,fun _ => .free⟩ settings = .ok (past,htab) ∧
      Follows 5 (fun _ => none) settings past (entries htab) ∧
      values (entries htab) = accepted past ∧ htab.filled = liveKeys (entries htab) := by
  exact calls_follow_finite_map hcreateR_two (by decide) settings

theorem hcreateR_large : hcreateR (2 ^ 31) = some ⟨2147483659,0,fun _ => .free⟩ :=
  hcreateR_eq (by decide +kernel)

theorem delete_outside_table :
    ∃ htab, hcreateR (2 ^ 31) = some htab ∧
      run htab
        [(lenient,.enter (text [97,98] (by decide)) (text [49] (by decide)) 0),
         (lenient,.enter (text [113,97] (by decide)) (text [50] (by decide)) 0),
         (lenient,.delete (text [113,97] (by decide)) 0)] =
        .error (.outside (-2147483638)) := by
  exact ⟨_,hcreateR_large,eq_error_of_failure (by decide +kernel)⟩

end FuzzingTargets.UBoot.HashTable
