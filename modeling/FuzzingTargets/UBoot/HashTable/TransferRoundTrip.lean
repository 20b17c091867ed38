import FuzzingTargets.UBoot.HashTable.Exporting

namespace FuzzingTargets.UBoot.HashTable

open Probing Checked Bytes List Function

def accepts (policy : Policy) (key data : CString) (flag : Nat) : Bool :=
  (refusal policy (created policy key data) (some data) .create flag).isNone

section

variable {htab : HsearchData} {policy : Policy} {key data : CString} {flag : Nat}

theorem enter_fresh (hv : Valid htab) (hnone : contents htab key = none)
    (hroom : htab.filled < htab.size) (policy : Policy) (data : CString) (flag : Nat) :
    ∃ answer htab', hsearchR policy key (.enter data) htab flag = .ok (answer,htab') ∧
      Valid htab' ∧ htab'.size = htab.size ∧
      contents htab' = if accepts policy key data flag then
        update (contents htab) key (some data) else contents htab := by
  obtain ⟨reply,htab',hout,hv',hsize,hserves⟩ := enter_step hv policy key data flag
  obtain ⟨⟨answer,htab'⟩,hr,h⟩ := bind_eq_ok hout
  cases h
  refine ⟨answer,htab',hr,hv',hsize,?_⟩
  rw [contents_eq] at hnone
  simp only [Serves,entered,Option.map_eq_none_iff.mp hnone,liveKeys_entries hv,
    if_neg (Nat.ne_of_lt hroom)] at hserves
  rw [contents_eq,contents_eq,accepts]
  generalize refusal policy (created policy key data) (some data) .create flag = refused at hserves
  cases refused with
  | none => exact (congrArg (fun out => values out.2) hserves).trans (values_update _ _ _)
  | some errno => exact congrArg (fun out => values out.2) hserves

theorem filled_update (hv : Valid htab) {htab' : HsearchData} (hv' : Valid htab')
    (h : contents htab' = update (contents htab) key (some data)) :
    htab'.filled ≤ htab.filled + 1 := by
  rw [← ncard_contents hv,← ncard_contents hv',h]
  have hinsert : {k | update (contents htab) key (some data) k ≠ none} =
      insert key {k | contents htab k ≠ none} := by
    ext k
    by_cases hk : k = key <;> simp [hk]
  rw [hinsert]
  exact Set.ncard_insert_le _ _

theorem enterAll_contents (policy : Policy) (flag : Nat) (es : List Entry) :
    ∀ {htab : HsearchData}, Valid htab → (es.map Entry.key).Nodup →
    (∀ e ∈ es, contents htab e.key = none) → htab.filled + es.length ≤ htab.size →
    ∃ htab', enterAll policy flag es htab = .ok htab' ∧
      ∀ k v, contents htab' k = some v ↔ contents htab k = some v ∨
        ∃ e ∈ es, e.key = k ∧ e.data = v ∧ accepts policy k v flag = true := by
  induction es with
  | nil => exact fun hv _ _ _ => ⟨_,rfl,by simp⟩
  | cons e es ih =>
    intro htab hv hnodup hnone hroom
    rw [map_cons,nodup_cons] at hnodup
    rw [length_cons] at hroom
    obtain ⟨answer,htab1,henter,hv1,hsize,hcontents⟩ :=
      enter_fresh hv (hnone e (.head _)) (by omega) policy e.data flag
    have hfilled : htab1.filled ≤ htab.filled + 1 := by
      by_cases ha : accepts policy e.key e.data flag
      · exact filled_update hv hv1 (by rw [hcontents,if_pos ha])
      · rw [← ncard_contents hv,← ncard_contents hv1,hcontents,if_neg ha]
        omega
    have hother : ∀ e' ∈ es, contents htab1 e'.key = none := by
      intro e' he'
      have hne : e'.key ≠ e.key := fun h => hnodup.1 (h ▸ mem_map_of_mem he')
      rw [hcontents]
      split
      · rw [update_of_ne hne]
        exact hnone e' (.tail _ he')
      · exact hnone e' (.tail _ he')
    obtain ⟨htab',hall,hall'⟩ := ih hv1 hnodup.2 hother (by omega)
    refine ⟨htab',by rwa [enterAll,henter],?_⟩
    intro k v
    rw [hall',hcontents]
    have hfirst := hnone e (.head _)
    constructor
    · rintro (hold | ⟨e',he',hrest⟩)
      · split at hold
        · rename_i ha
          by_cases hk : k = e.key
          · subst hk
            rw [update_self] at hold
            cases hold
            exact .inr ⟨e,.head _,rfl,rfl,ha⟩
          · rw [update_of_ne hk] at hold
            exact .inl hold
        · exact .inl hold
      · exact .inr ⟨e',.tail _ he',hrest⟩
    rintro (hold | ⟨e',he',rfl,rfl,ha⟩)
    · have hk : k ≠ e.key := by
        rintro rfl
        rw [hfirst] at hold
        cases hold
      refine .inl ?_
      split
      · rwa [update_of_ne hk]
      · exact hold
    rcases mem_cons.mp he' with rfl | he'
    · refine .inl ?_
      rw [if_pos ha,update_self]
    · exact .inr ⟨e',he',rfl,rfl,ha⟩

end

def importCapacity (len : Nat) : Nat :=
  match hcreateR (importEntries len) with
  | some htab => htab.size
  | none => 0

section

variable {policy : Policy} {target : Option HsearchData} {sep : UInt8} {flag : Nat}

theorem himportR_eq {env : List UInt8} {htab : HsearchData}
    (htarget : ∀ t, target = some t → t.size < 2 ^ 31) (hflag : flag.testBit 0 = false)
    (hcreate : hcreateR (importEntries env.length) = some htab) :
    himportR policy target env sep flag false [] =
      if env.length = 0 then .ok (1,htab)
      else importLoop policy sep flag env.length ((env ++ [0]).length + 1)
          ⟨env ++ [0],0,htab,[]⟩ >>= fun r =>
        if r.1 = false then .ok (0,r.2.htab)
        else deleteRemaining policy flag r.2.vars r.2.htab >>= fun htab => .ok (1,htab) := by
  have htable : importTable none env.length = .ok htab := by rw [importTable,hcreate]
  have hcleared : clearTable target flag [] = .ok none := by
    cases target with
    | none => rfl
    | some t =>
      have hlt := htarget t rfl
      rw [clearTable,if_pos ⟨hflag,rfl⟩,hdestroyR,if_neg (by omega)]
  unfold himportR
  rw [hcleared,bind_ok,htable,bind_ok]
  by_cases hsize : env.length = 0
  · rw [if_pos hsize,if_pos hsize]
    rfl
  · rw [if_neg hsize,if_neg hsize]
    simp only [hflag]
    rfl

theorem importLoop_zeros (policy : Policy) (sep : UInt8) (flag : Nat) {htab : HsearchData} (hv : Valid htab)
    (hempty : entries htab = fun _ => none) (size zeros fuel : Nat) :
    ∃ data, importLoop policy sep flag size (fuel + 1)
        ⟨replicate (zeros + 2) 0,0,htab,[]⟩ = .ok (true,⟨data,1,htab,[]⟩) := by
  have hbyte : byteAt (replicate (zeros + 2) 0) 0 = .ok 0 := rfl
  have hsecond : byteAt ((replicate (zeros + 2) 0).set 0 0) 1 = .ok 0 := rfl
  have hskip : skipBlank (replicate (zeros + 2) 0)
      ((replicate (zeros + 2) (0 : UInt8)).length + 1) 0 = .ok 0 := by
    rfl
  have hscan : scanName (replicate (zeros + 2) 0) sep
      ((replicate (zeros + 2) (0 : UInt8)).length + 1) 0 = .ok 0 := by
    rfl
  have hends : endsName (replicate (zeros + 2) 0) sep 0 = .ok true := by
    rfl
  have hdelete : ∀ key, hdeleteR policy key htab flag = .ok ((0,some .esrch),htab) := by
    intro key
    rcases find_answer hv policy key 0 with ⟨i,u,_,_,hsome,_⟩ | ⟨_,hout⟩
    · rw [hempty] at hsome
      cases hsome
    · rw [hdeleteR,hout]
      rfl
  have hstep : importStep policy sep flag ⟨replicate (zeros + 2) 0,0,htab,[]⟩ =
      .ok (true,⟨(replicate (zeros + 2) 0).set 0 0,1,htab,[]⟩) := by
    rw [importStep]
    rw [hskip,bind_ok,hbyte,bind_ok,if_neg (by decide),hscan,bind_ok,hbyte,bind_ok,
      hends,bind_ok,if_pos rfl,importDelete,if_neg (by decide)]
    dsimp only
    rw [hdelete]
    rfl
  refine ⟨(replicate (zeros + 2) 0).set 0 0,?_⟩
  rw [importLoop,hstep,bind_ok]
  dsimp only
  rw [if_neg (by decide),hsecond,bind_ok]
  split <;> rfl

theorem himportR_text (policy : Policy) (hsep : sep ≠ 92) (hequals : sep ≠ 61)
    (htarget : ∀ t, target = some t → t.size < 2 ^ 31) (hflag : flag.testBit 0 = false)
    {es : List Entry} (hgood : ∀ e ∈ es, Exportable sep e.key ∧ e.data.1 ≠ [])
    (hnodup : (es.map Entry.key).Nodup) {zeros len : Nat}
    (hlen : len = (es.flatMap (exportLine sep)).length + zeros)
    (hroom : es.length ≤ importCapacity len) :
    ∃ htab', himportR policy target (es.flatMap (exportLine sep) ++ replicate zeros 0) sep
        flag false [] = .ok (1,htab') ∧ ∀ k v, contents htab' k = some v ↔
        ∃ e ∈ es, e.key = k ∧ e.data = v ∧ accepts policy k v flag = true := by
  have henv : (es.flatMap (exportLine sep) ++ replicate zeros 0).length = len := by
    rw [length_append,length_replicate,hlen]
  obtain ⟨size,hcreate,hgoodSize⟩ := hcreateR_spec (importEntries len)
  have hv := valid_create hgoodSize
  have hempty := entries_create size
  have hnone : contents ⟨size,0,fun _ => .free⟩ = fun _ => none := by
    rw [contents_eq,hempty]
    rfl
  rw [importCapacity,hcreate] at hroom
  obtain ⟨htab',hall,hcontents⟩ := enterAll_contents policy flag es hv hnodup
    (fun e _ => by rw [hnone]) (by simpa using hroom)
  rw [hnone] at hcontents
  simp only [reduceCtorEq,false_or] at hcontents
  rw [himportR_eq htarget hflag (by rwa [henv]),henv]
  refine ⟨htab',?_,hcontents⟩
  cases es with
  | nil =>
    cases hall
    cases zeros with
    | zero =>
      rw [if_pos (by simpa using hlen)]
    | succ zeros =>
      rw [if_neg (by simp at hlen; omega)]
      have hdata : ([] : List Entry).flatMap (exportLine sep) ++ replicate (zeros + 1) 0 ++
          [0] = replicate (zeros + 2) 0 := by
        rw [flatMap_nil,nil_append,← replicate_succ']
      obtain ⟨data,hloop⟩ := importLoop_zeros policy sep flag hv hempty len zeros
        (replicate (zeros + 2) (0 : UInt8)).length
      rw [hdata,hloop,bind_ok]
      rfl
  | cons e es =>
    have hpos := exportLine_length sep e
    rw [if_neg (by rw [hlen,flatMap_cons,length_append]; omega)]
    have hdata : (e :: es).flatMap (exportLine sep) ++ replicate zeros 0 ++ [0] =
        [] ++ (e :: es).flatMap (exportLine sep) ++ replicate (zeros + 1) 0 := by
      rw [nil_append,append_assoc,← replicate_succ']
    have hfuel : es.length < ((e :: es).flatMap (exportLine sep) ++ replicate zeros 0 ++
        [0]).length + 1 := by
      have hle : es.length ≤ (es.flatMap (exportLine sep)).length := by
        rw [length_flatMap]
        calc es.length = (es.map fun _ => 1).sum := by simp
          _ ≤ _ := sum_le_sum fun e _ => by rw [exportLine_length]; omega
      simp only [flatMap_cons,length_append]
      omega
    obtain ⟨st,hloop,hst,hvars⟩ := importLoop_lines (A := []) hsep hequals len zeros hgood hall
      hfuel (by rw [hlen,length_nil]; omega)
    rw [← hdata,length_nil] at hloop
    rw [hloop,bind_ok]
    dsimp only
    rw [if_neg (by decide),hvars,hst]
    rfl

end

def RoundTrips (policy : Policy) (target : Option HsearchData) (htab : HsearchData) (sep : UInt8)
    (exportFlag importFlag size len : Nat) : Prop :=
  ∃ buffer htab', hexportR htab sep exportFlag size none = .ok (some buffer) ∧
    himportR policy target (buffer.take len) sep importFlag false [] = .ok (1,htab') ∧
    contents htab' = contents htab

theorem reached_valid {nel : Nat} {htab0 htab : HsearchData} {calls : List (Policy × Call)}
    {past : List (Call × Reply)} (h0 : hcreateR nel = some htab0)
    (hrun : run htab0 calls = .ok (past,htab)) : Valid htab := by
  obtain ⟨size,hcreate,hgood⟩ := hcreateR_spec nel
  obtain rfl : (⟨size,0,fun _ => .free⟩ : HsearchData) = htab0 :=
    Option.some.inj (hcreate.symm.trans h0)
  rcases run_keeps calls (valid_create hgood) with ⟨past',htab',hrun',hv,_⟩ | ⟨_,fault,hrun'⟩
  · rw [hrun] at hrun'
    cases hrun'
    exact hv
  · rw [hrun] at hrun'
    cases hrun'

section

variable {policy : Policy} {target : Option HsearchData} {htab : HsearchData} {sep : UInt8}
  {exportFlag importFlag size len : Nat}

theorem import_of_export (policy : Policy) (hv : Valid htab) (hlt : htab.size < 2 ^ 31) (hsep : sep = 10 ∨ sep = 0)
    (hgood : ∀ k v, contents htab k = some v → Exportable sep k ∧ v.1 ≠ [])
    (hexport : exportFlag.testBit 3 = false) (himport : importFlag.testBit 0 = false)
    (hlen : (exportedText htab sep exportFlag none).length ≤ len) (hle : len ≤ size)
    (hroom : htab.filled ≤ importCapacity len) (htarget : ∀ t, target = some t → t.size < 2 ^ 31) :
    ∃ htab', himportR policy target ((exportedText htab sep exportFlag none ++
        replicate (size - (exportedText htab sep exportFlag none).length) 0).take len) sep
        importFlag false [] = .ok (1,htab') ∧ ∀ k v, contents htab' k = some v ↔
        contents htab k = some v ∧ accepts policy k v importFlag = true := by
  have hperm := qsort_perm cmpkey (exportedEntries htab exportFlag none)
  have htake : (exportedText htab sep exportFlag none ++
      replicate (size - (exportedText htab sep exportFlag none).length) 0).take len =
      exportedText htab sep exportFlag none ++
        replicate (len - (exportedText htab sep exportFlag none).length) 0 := by
    rw [take_append,take_of_length_le hlen,take_replicate]
    congr 2
    omega
  rw [htake]
  have hslash : sep ≠ 92 := by rcases hsep with rfl | rfl <;> decide
  have hequals : sep ≠ 61 := by rcases hsep with rfl | rfl <;> decide
  have hgood' : ∀ e ∈ qsort cmpkey (exportedEntries htab exportFlag none),
      Exportable sep e.key ∧ e.data.1 ≠ [] := by
    intro e he
    exact hgood e.key e.data
      ((exportedEntries_contents hv hlt hexport).mpr ⟨e,hperm.mem_iff.mp he,rfl,rfl⟩)
  have hnodup := (hperm.map Entry.key).nodup_iff.mpr (exportedEntries_nodup hv hlt hexport)
  have hsplit : len = (exportedText htab sep exportFlag none).length +
      (len - (exportedText htab sep exportFlag none).length) := by omega
  rw [← exportedEntries_length hv hlt hexport,← hperm.length_eq] at hroom
  obtain ⟨htab',himported,hcontents⟩ :=
    himportR_text policy hslash hequals htarget himport hgood' hnodup hsplit hroom
  refine ⟨htab',himported,?_⟩
  intro k v
  rw [hcontents,exportedEntries_contents hv hlt hexport]
  constructor
  · rintro ⟨e,he,hk,hv,ha⟩
    exact ⟨⟨e,hperm.mem_iff.mp he,hk,hv⟩,ha⟩
  · rintro ⟨⟨e,he,hk,hv⟩,ha⟩
    exact ⟨e,hperm.mem_iff.mpr he,hk,hv,ha⟩

theorem export_import_round_trip_iff {nel : Nat} {htab0 : HsearchData}
    {calls : List (Policy × Call)} {past : List (Call × Reply)}
    (h0 : hcreateR nel = some htab0) (hrun : run htab0 calls = .ok (past,htab))
    (hsep : sep = 10 ∨ sep = 0)
    (hgood : ∀ k v, contents htab k = some v → Exportable sep k ∧ v.1 ≠ [])
    (hexport : exportFlag.testBit 3 = false) (himport : importFlag.testBit 0 = false)
    (hsize : (exportedText htab sep exportFlag none).length < size)
    (hlen : (exportedText htab sep exportFlag none).length ≤ len) (hle : len ≤ size)
    (hroom : htab.filled ≤ importCapacity len) :
    RoundTrips policy target htab sep exportFlag importFlag size len ↔
      htab.size < 2 ^ 31 ∧ (∀ t, target = some t → t.size < 2 ^ 31) ∧
        ∀ k v, contents htab k = some v → accepts policy k v importFlag = true := by
  have hv := reached_valid h0 hrun
  constructor
  · rintro ⟨buffer,htab',hbuffer,himported,hsame⟩
    have hlt : htab.size < 2 ^ 31 := by
      by_contra hlarge
      rw [hexportR,if_pos (by omega)] at hbuffer
      cases hbuffer
    have htarget : ∀ t, target = some t → t.size < 2 ^ 31 := by
      rintro t rfl
      by_contra hlarge
      rw [himportR,clearTable,if_pos ⟨himport,rfl⟩,hdestroyR,if_pos (by omega)] at himported
      cases himported
    refine ⟨hlt,htarget,?_⟩
    rw [hexportR_eq hlt hsize] at hbuffer
    cases hbuffer
    obtain ⟨htab'',himported',hcontents⟩ := import_of_export policy hv hlt hsep hgood hexport himport hlen hle hroom htarget
    rw [himported] at himported'
    cases himported'
    intro k v hk
    rw [← hsame,hcontents] at hk
    exact hk.2
  rintro ⟨hlt,htarget,haccepts⟩
  obtain ⟨htab',himported,hcontents⟩ := import_of_export policy hv hlt hsep hgood hexport himport hlen hle hroom htarget
  refine ⟨_,htab',hexportR_eq hlt hsize,himported,?_⟩
  funext k
  apply Option.ext
  intro v
  rw [hcontents]
  exact ⟨fun h => h.1,fun h => ⟨h,haccepts k v h⟩⟩

end

theorem twoEntries_exportable (k v : CString) (h : contents twoEntries k = some v) :
    Exportable 10 k ∧ v.1 ≠ [] := by
  obtain ⟨past,hrun⟩ := run_settings
  have hlist : exportedEntries twoEntries 0 none =
      [⟨text [97] (by decide),text [49,10,50] (by decide),none,0⟩,
        ⟨text [98,99] (by decide),text [92,120] (by decide),none,0⟩] := by decide
  have hflag : Nat.testBit 0 3 = false := by decide
  obtain ⟨e,he,rfl,rfl⟩ :=
    (exportedEntries_contents (reached_valid hcreateR_two hrun) (by decide) hflag).mp h
  rw [hlist] at he
  obtain rfl | he := mem_cons.mp he
  · exact ⟨⟨by decide,by decide,by decide,by rintro c ⟨⟩; decide⟩,by decide⟩
  · obtain rfl := mem_singleton.mp he
    exact ⟨⟨by decide,by decide,by decide,by rintro c ⟨⟩; decide⟩,by decide⟩

theorem two_entries_round_trip : RoundTrips lenient none twoEntries 10 0 0 16 14 := by
  obtain ⟨past,hrun⟩ := run_settings
  refine (export_import_round_trip_iff hcreateR_two hrun (.inl rfl) twoEntries_exportable
    (by decide) (by decide) (by decide) (by decide) (by decide) (by decide +kernel)).mpr
      ⟨by decide,?_,?_⟩
  · simp
  · intro k v _
    rfl

theorem refused_entries_not_imported :
    (∃ past, run ⟨5,0,fun _ => .free⟩ settings = .ok (past,twoEntries)) ∧
      contents twoEntries (text [97] (by decide)) = some (text [49,10,50] (by decide)) ∧
      ¬RoundTrips refusing none twoEntries 10 0 0 16 14 := by
  obtain ⟨past,hrun⟩ := run_settings
  have hentry : contents twoEntries (text [97] (by decide)) = some (text [49,10,50] (by decide)) := by
    decide
  refine ⟨⟨past,hrun⟩,hentry,?_⟩
  rintro ⟨buffer,htab',hbuffer,himported,hsame⟩
  rw [hexportR_eq (by decide) (by decide)] at hbuffer
  cases hbuffer
  have htarget : ∀ t : HsearchData, none = some t → t.size < 2 ^ 31 := by simp
  obtain ⟨htab'',himported',hcontents⟩ := import_of_export refusing
    (reached_valid hcreateR_two hrun) (by decide) (.inl rfl) twoEntries_exportable
    (by decide : Nat.testBit 0 3 = false) (by decide : Nat.testBit 0 0 = false) (by decide)
    (by decide : 14 ≤ 16) (by decide +kernel) htarget
  rw [himported] at himported'
  cases himported'
  rw [← hsame,hcontents] at hentry
  exact absurd hentry.2 (by decide)

end FuzzingTargets.UBoot.HashTable
