import FuzzingTargets.Connman.Gdhcp.Datagram

namespace FuzzingTargets.Gdhcp
open Loads Loads.Prog Bytes List

def countedLabel (l : List UInt8) : List UInt8 := UInt8.ofNat l.length :: l

structure DomainName where
  labels : List (List UInt8)
  label_length : ∀ l ∈ labels, 1 ≤ l.length ∧ l.length ≤ 63
  nul_free : ∀ l ∈ labels, 0 ∉ l
  wire_length : (labels.flatMap countedLabel).length + 1 ≤ 255

variable (name : DomainName) (frame : List UInt8)

def DomainName.body : List UInt8 := name.labels.flatMap countedLabel

def DomainName.wire : List UInt8 := name.body ++ [0]

def DomainName.dotted : List UInt8 := [46].intercalate name.labels

def DomainsDecoded (m : Nat → UInt8) (env : Env) (f : Found) (names : List DomainName) : Prop :=
  (getDomains env f).run (memory m) = .ok (names.map fun name => .text name.dotted)

section

variable {m : Nat → UInt8}

theorem countedLabel_head {l : List UInt8} (h : 1 ≤ l.length ∧ l.length ≤ 63) :
    UInt8.ofNat l.length ≠ 0 ∧ (UInt8.ofNat l.length).toNat = l.length := by
  have hnat : (UInt8.ofNat l.length).toNat = l.length := by
    rw [UInt8.toNat_ofNat']
    omega
  refine ⟨fun hzero => ?_,hnat⟩
  rw [hzero,UInt8.toNat_zero] at hnat
  omega

theorem DomainName.body_nonzero : 0 ∉ name.body := by
  intro hzero
  obtain ⟨l,hl,hmem⟩ := mem_flatMap.mp hzero
  rcases mem_cons.mp hmem with heq | hmem
  · exact (countedLabel_head (name.label_length l hl)).1 heq.symm
  · exact name.nul_free l hl hmem

theorem takeWhile_terminated {body rest : List UInt8} (hbody : 0 ∉ body) :
    (body ++ 0 :: rest).takeWhile (fun b => !(b == 0)) = body := by
  rw [takeWhile_append_of_pos]
  · simp
  · intro b hb
    simpa using ne_of_mem_of_not_mem hb hbody

theorem nameText_wire {f : Found} {pos : Nat} {name : DomainName} {rest : List UInt8}
    (hstored : Stored m (f.offset + pos) (name.wire ++ rest)) : nameText m f pos = name.body := by
  have hlen : name.body.length + 1 ≤ nsMaxdname := name.wire_length.trans (by decide)
  have hwire : fieldAt m (f.offset + pos) (name.body.length + 1) = name.wire :=
    stored_take hstored (by simp [DomainName.wire])
  have hfield : (range nsMaxdname).map (fun i => m (f.offset + (pos + i))) =
      name.body ++ 0 :: fieldAt m (f.offset + pos + (name.body.length + 1))
        (nsMaxdname - (name.body.length + 1)) := by
    have hsplit := @fieldAt_add m (f.offset + pos) (name.body.length + 1)
      (nsMaxdname - (name.body.length + 1))
    rw [Nat.add_sub_cancel' hlen,hwire,DomainName.wire,append_assoc] at hsplit
    simpa [fieldAt,Nat.add_assoc] using hsplit
  rw [nameText,hfield]
  exact takeWhile_terminated name.body_nonzero

theorem run_walkLabels_counted {labels : List (List UInt8)}
    (hlabels : ∀ l ∈ labels, 1 ≤ l.length ∧ l.length ≤ 63) {fuel : Nat}
    (hfuel : labels.length < fuel) (pre rest : List UInt8) :
    (walkLabels fuel (pre ++ (labels.flatMap countedLabel ++ 0 :: rest)) pre.length).run
        (memory m) = .ok (pre ++ (labels.flatMap (fun l => 46 :: l) ++ 0 :: rest),
        pre.length + (labels.flatMap countedLabel).length) := by
  induction labels generalizing fuel pre with
  | nil =>
    obtain _ | fuel := fuel
    · simp at hfuel
    simp [walkLabels]
  | cons l labels ih =>
    obtain _ | fuel := fuel
    · simp at hfuel
    obtain ⟨hne,hnat⟩ := countedLabel_head (hlabels l mem_cons_self)
    have hnext := ih (forall_mem_cons.mp hlabels).2
      (show labels.length < fuel by simpa using hfuel) (pre ++ 46 :: l)
    have hset : (pre ++ (List.flatMap countedLabel (l :: labels) ++ 0 :: rest)).set pre.length 46 =
        pre ++ 46 :: l ++ (labels.flatMap countedLabel ++ 0 :: rest) := by
      simp [countedLabel]
    have hjump : (pre ++ (List.flatMap countedLabel (l :: labels) ++ 0 :: rest)).getD pre.length 0 =
        UInt8.ofNat l.length := by
      simp [countedLabel]
    rw [walkLabels,hjump,if_neg hne,run_store,hset,hnat]
    have hpos : pre.length + (l.length + 1) = (pre ++ 46 :: l).length := by simp
    rw [hpos,hnext]
    simp only [flatMap_cons,append_assoc,cons_append,length_append,length_cons,countedLabel]
    congr 2
    omega

theorem intercalate_cons_dotted (l : List UInt8) (labels : List (List UInt8)) :
    [46].intercalate (l :: labels) = l ++ labels.flatMap (fun k => 46 :: k) := by
  induction labels generalizing l with
  | nil => simp [List.intercalate]
  | cons k labels ih =>
    rw [intercalate_cons_cons,ih k]
    simp

theorem dotted_nulFree : 0 ∉ name.labels.flatMap (fun l => 46 :: l) := by
  intro hzero
  obtain ⟨l,hl,hmem⟩ := mem_flatMap.mp hzero
  rcases mem_cons.mp hmem with heq | hmem
  · cases heq
  · exact name.nul_free l hl hmem

theorem cstring_dotted (rest : List UInt8) :
    cstring ((name.labels.flatMap (fun l => 46 :: l) ++ 0 :: 0 :: rest).drop 1) = name.dotted := by
  have hfree := dotted_nulFree name
  unfold DomainName.dotted
  cases hlabels : name.labels with
  | nil => rfl
  | cons l labels =>
    rw [hlabels,flatMap_cons,cons_append,mem_cons,not_or] at hfree
    rw [intercalate_cons_dotted,flatMap_cons,cons_append,cons_append,drop_one,tail_cons]
    exact cstring_terminated hfree.2 _

theorem strncpy_body : ∃ rest, strncpy name.body frame = name.body ++ 0 :: 0 :: rest := by
  have hlen : name.body.length + 2 ≤ nsMaxdname :=
    (Nat.succ_le_succ name.wire_length).trans (by decide)
  obtain ⟨n,hn⟩ : ∃ n, nsMaxdname - name.body.length = n + 2 :=
    ⟨nsMaxdname - name.body.length - 2,by omega⟩
  refine ⟨replicate n 0 ++ frame.drop nsMaxdname,?_⟩
  rw [strncpy,hn,replicate_succ,replicate_succ]
  simp

theorem labels_length_le (labels : List (List UInt8)) :
    labels.length ≤ (labels.flatMap countedLabel).length := by
  induction labels with
  | nil => exact le_rfl
  | cons l labels ih =>
    simp only [flatMap_cons,length_append,length_cons,countedLabel]
    omega

theorem run_walkName (name : DomainName) (frame : List UInt8) :
    ∃ rest, (walkLabels (strncpy name.body frame).length (strncpy name.body frame) 0).run
        (memory m) =
      .ok (name.labels.flatMap (fun l => 46 :: l) ++ 0 :: 0 :: rest,name.body.length) := by
  obtain ⟨rest,hcopy⟩ := strncpy_body name frame
  have hfuel : name.labels.length < (strncpy name.body frame).length := by
    have hle := labels_length_le name.labels
    rw [hcopy,length_append,DomainName.body]
    simp only [length_cons]
    omega
  have hwalk := @run_walkLabels_counted m name.labels name.label_length _ hfuel [] (0 :: rest)
  rw [nil_append,nil_append,length_nil,Nat.zero_add] at hwalk
  refine ⟨rest,?_⟩
  generalize (strncpy name.body frame).length = fuel at hwalk ⊢
  rw [hcopy]
  exact hwalk

theorem run_readDomains_wire {f : Found} {fuel pos : Nat} {names : List DomainName}
    (hstored : Stored m (f.offset + pos) (names.flatMap DomainName.wire))
    (hlen : pos + (names.flatMap DomainName.wire).length = f.length) (hfuel : names.length ≤ fuel)
    (frame : List UInt8) (list : List Value) : (readDomains f fuel pos frame list).run (memory m) =
      .ok (list.reverse ++ names.map fun name => .text name.dotted) := by
  induction names generalizing fuel pos frame list with
  | nil =>
    rw [flatMap_nil,length_nil,Nat.add_zero] at hlen
    cases fuel with
    | zero => simp [readDomains]
    | succ fuel => simp [readDomains,hlen]
  | cons name names ih =>
    obtain _ | fuel := fuel
    · simp at hfuel
    rw [flatMap_cons] at hstored hlen
    have hwire : name.wire.length = name.body.length + 1 := by simp [DomainName.wire]
    rw [length_append,hwire] at hlen
    obtain ⟨rest,hwalk⟩ := @run_walkName m name frame
    have hstore : (Prog.store (.name (nsMaxdname - 1)) (walkLabels (strncpy name.body frame).length
        (strncpy name.body frame) 0)).run (memory m) =
        .ok (name.labels.flatMap (fun l => 46 :: l) ++ 0 :: 0 :: rest,name.body.length) := hwalk
    rw [readDomains,if_neg (by omega),run_bind_of (run_loadName pos),nameText_wire hstored]
    dsimp only
    rw [run_bind_of hstore]
    dsimp only
    rw [cstring_dotted,ih (stored_drop hstored (by omega)) (by omega) (by simpa using hfuel)]
    simp

theorem names_length_le (names : List DomainName) :
    names.length ≤ (names.flatMap DomainName.wire).length := by
  induction names with
  | nil => exact le_rfl
  | cons name names ih =>
    rw [flatMap_cons,length_append,DomainName.wire,length_append,length_cons,length_singleton]
    omega

end

theorem run_getDomains_short (m : Nat → UInt8) (env : Env) {f : Found} (h : f.length < 3) :
    (getDomains env f).run (memory m) = .ok [] := by
  rw [getDomains,if_pos h]
  rfl

theorem domains_decoded_iff (m : Nat → UInt8) (env : Env) (f : Found) (names : List DomainName)
    (hnames : names ≠ []) (hlength : (names.flatMap DomainName.wire).length = f.length)
    (hstored : Stored m f.offset (names.flatMap DomainName.wire)) :
    (DomainsDecoded m env f names ↔ 3 ≤ (names.flatMap DomainName.wire).length) ∧
      ((names.flatMap DomainName.wire).length < 3 →
        (getDomains env f).run (memory m) = .ok []) := by
  rw [hlength]
  refine ⟨⟨fun hrun => ?_,fun hthree => ?_⟩,run_getDomains_short m env⟩
  · by_contra hshort
    rw [DomainsDecoded,run_getDomains_short m env (by omega)] at hrun
    exact hnames (map_eq_nil_iff.mp (Except.ok.inj hrun).symm)
  · have hfuel := names_length_le names
    rw [DomainsDecoded,getDomains,if_neg (by omega),
      run_readDomains_wire (by simpa using hstored) (by omega) (by omega)]
    rfl

def searchDomain : DomainName :=
  ⟨[[108,97,110],[104,111,109,101]],by decide,by decide,by decide⟩

def rootDomain : DomainName := ⟨[],by simp,by simp,by simp⟩

theorem searchDomains_decoded :
    DomainsDecoded (valueBytes ([searchDomain,rootDomain].flatMap DomainName.wire)) idleEnv
      ⟨0,11⟩ [searchDomain,rootDomain] :=
  (domains_decoded_iff _ idleEnv ⟨0,11⟩ [searchDomain,rootDomain] (by simp) (by decide)
    (stored_valueBytes _)).1.mpr (by decide)

theorem rootDomain_not_decoded :
    ¬DomainsDecoded (valueBytes ([rootDomain].flatMap DomainName.wire)) idleEnv ⟨0,1⟩
      [rootDomain] := by
  intro hrun
  cases hrun

structure IaPrefix where
  preferred : Nat
  valid : Nat
  prefixlen : UInt8
  address : List UInt8
  options : List UInt8
  preferred_lt : preferred < 4294967296
  valid_lt : valid < 4294967296
  address_length : address.length = 16
  options_small : options.length < 65511

structure OtherOption where
  code : Nat
  value : List UInt8
  code_lt : code < 65536
  code_ne : code ≠ 5 ∧ code ≠ 13 ∧ code ≠ 26
  value_small : value.length < 65536

inductive SubOption where
  | iaPrefix (p : IaPrefix)
  | success (text : {text : List UInt8 // text.length < 65534})
  | other (o : OtherOption)

def SubOption.code : SubOption → Nat
  | .iaPrefix _ => 26
  | .success _ => 13
  | .other o => o.code

def SubOption.value : SubOption → List UInt8
  | .iaPrefix p =>
    putBe32 p.preferred ++ (putBe32 p.valid ++ ([p.prefixlen] ++ (p.address ++ p.options)))
  | .success text => putBe16 0 ++ text.val
  | .other o => o.value

def SubOption.encode (sub : SubOption) : List UInt8 :=
  (putBe16 sub.code ++ putBe16 sub.value.length) ++ sub.value

structure IaPd where
  iaid : Nat
  t1 : Nat
  t2 : Nat
  subOptions : List SubOption
  iaid_lt : iaid < 4294967296
  t2_lt : t2 < 4294967296
  ordered : t1 ≤ t2

def IaPd.encode (ia : IaPd) : List UInt8 :=
  putBe32 ia.iaid ++ (putBe32 ia.t1 ++ (putBe32 ia.t2 ++ ia.subOptions.flatMap SubOption.encode))

def SubOption.delegated : SubOption → Option IaPrefix
  | .iaPrefix p => if p.preferred < p.valid then some p else none
  | .success _ => none
  | .other _ => none

def IaPd.delegated (ia : IaPd) : List IaPrefix := ia.subOptions.filterMap SubOption.delegated

def IaPrefix.result (now : Nat) (p : IaPrefix) : Value :=
  .iaPrefix p.address p.prefixlen p.preferred p.valid (now + p.valid)

variable (m : Nat → UInt8) (env : Env) (client : Client) (f : Found) (ia : IaPd)

def PrefixesDelegated : Prop :=
  ∃ client', (getAddresses env client 25 f).run (memory m) =
      .ok (client',ia.delegated.map (IaPrefix.result env.now)) ∧
    (ia.delegated ≠ [] → (ia.delegated.map IaPrefix.valid).min? = some client'.expire ∧
      client'.t1 = ia.t1 ∧ client'.t2 = ia.t2)

def SubOption.read (now : Nat) (a : Addresses) : SubOption → Addresses
  | .iaPrefix p =>
    Addresses.addPrefix { a with address := p.address, preferred := p.preferred, valid := p.valid }
      now p.prefixlen
  | .success _ => { a with st := 0, status := 0 }
  | .other _ => a

section

variable {m : Nat → UInt8} {outer : Found} {now : Nat} {sub : SubOption}

theorem SubOption.code_lt (sub : SubOption) : sub.code < 65536 := by
  cases sub with
  | iaPrefix p => exact (by decide : 26 < 65536)
  | success text => exact (by decide : 13 < 65536)
  | other o => exact o.code_lt

theorem SubOption.value_lt (sub : SubOption) : sub.value.length < 65536 := by
  cases sub with
  | iaPrefix p =>
    have haddress := p.address_length
    have hoptions := p.options_small
    simp only [value,putBe32,length_append,length_cons,length_nil]
    omega
  | success text =>
    simp only [value,putBe16,length_append,length_cons,length_nil]
    omega
  | other o => exact o.value_small

theorem SubOption.encode_length (sub : SubOption) : sub.encode.length = 4 + sub.value.length := by
  simp only [encode,putBe16,length_append,length_cons,length_nil]

theorem encode_length_ge (subs : List SubOption) :
    subs.length ≤ (subs.flatMap SubOption.encode).length := by
  induction subs with
  | nil => exact le_rfl
  | cons sub subs ih =>
    rw [flatMap_cons,length_append,length_cons,sub.encode_length]
    omega

theorem SubOption.read_empty (h : sub.value.length = 0) (a : Addresses) : sub.read now a = a := by
  cases sub with
  | iaPrefix p =>
    simp only [value,putBe32,length_append,length_cons] at h
    omega
  | success text =>
    simp only [value,putBe16,length_append,length_cons] at h
    omega
  | other o => rfl

theorem run_readSubOption_encoded {suboption : Found}
    (hstored : Stored m suboption.offset sub.value) (a : Addresses) :
    (readSubOption now sub.code outer suboption a).run (memory m) = .ok (sub.read now a) := by
  cases sub with
  | iaPrefix p =>
    have hvalid := stored_drop hstored rfl
    have hlength := stored_drop hvalid rfl
    have haddress := stored_drop hlength rfl
    have hbyte : m (suboption.offset + 8) = p.prefixlen := by
      have hfield := stored_take hlength rfl
      simpa [fieldAt,putBe32] using hfield
    have hpreferred : fieldAt m (suboption.offset + 0) 4 = putBe32 p.preferred :=
      stored_take hstored rfl
    have hvalid' : fieldAt m (suboption.offset + 4) 4 = putBe32 p.valid := stored_take hvalid rfl
    have haddress' : fieldAt m (suboption.offset + 9) 16 = p.address :=
      stored_take haddress p.address_length
    change (readIaPrefix now outer suboption a).run (memory m) = _
    rw [readIaPrefix,run_bind_of (run_loadInner _ _ _ _),run_bind_of (run_loadInner _ _ _ _),
      run_fetch_bind (memory_inner _ _ _),run_bind_of (run_loadInner _ _ _ _),hpreferred,hvalid',
      haddress',hbyte,bigEndian_putBe32 p.preferred_lt,bigEndian_putBe32 p.valid_lt]
    rfl
  | success text =>
    have hstatus : fieldAt m (suboption.offset + 0) 2 = putBe16 0 := stored_take hstored rfl
    change (readStatusCode outer suboption a).run (memory m) = _
    rw [readStatusCode,run_bind_of (run_loadInner _ _ _ _),run_bind_of (run_loadText (fun _ => rfl) _),hstatus,
      bigEndian_putBe16 (by decide)]
    rfl
  | other o =>
    obtain ⟨haddr,hstatus, hprefix⟩ := o.code_ne
    change (readSubOption now o.code outer suboption a).run (memory m) = .ok a
    rw [readSubOption,if_neg haddr,if_neg hstatus,if_neg hprefix]
    rfl

theorem subOption_head {offset : Nat} {rest : List UInt8}
    (hstored : Stored m offset (sub.encode ++ rest)) : optionCode (fieldAt m offset 4) = sub.code ∧
      optionLength (fieldAt m offset 4) = sub.value.length ∧
      Stored m (offset + 4) sub.value ∧ Stored m (offset + 4 + sub.value.length) rest := by
  obtain ⟨hsub,hrest⟩ := stored_append.mp hstored
  have hhead : fieldAt m offset 4 = putBe16 sub.code ++ putBe16 sub.value.length :=
    stored_take hsub rfl
  have hcode : optionCode (fieldAt m offset 4) = bigEndian (putBe16 sub.code) := by
    rw [hhead]
    rfl
  have hlength : optionLength (fieldAt m offset 4) = bigEndian (putBe16 sub.value.length) := by
    rw [hhead]
    rfl
  rw [sub.encode_length,← Nat.add_assoc] at hrest
  exact ⟨hcode.trans (bigEndian_putBe16 sub.code_lt),
    hlength.trans (bigEndian_putBe16 sub.value_lt),stored_drop hsub rfl,hrest⟩

theorem run_readSubOptions_encoded {maxLen fuel pos : Nat} {subs : List SubOption}
    (hne : subs ≠ []) (hstored : Stored m (outer.offset + pos) (subs.flatMap SubOption.encode))
    (hlen : pos + (subs.flatMap SubOption.encode).length = outer.length)
    (hroom : (subs.flatMap SubOption.encode).length ≤ maxLen) (hfuel : subs.length ≤ fuel)
    (a : Addresses) : (readSubOptions now outer outer.length maxLen fuel pos a).run (memory m) =
      .ok (subs.foldl (SubOption.read now) a) := by
  induction subs generalizing fuel pos a with
  | nil => exact absurd rfl hne
  | cons sub subs ih =>
    obtain _ | fuel := fuel
    · simp at hfuel
    rw [flatMap_cons] at hstored hlen hroom
    obtain ⟨hcode,hlength,hvalue,hrest⟩ := subOption_head hstored
    simp only [length_append,sub.encode_length] at hlen hroom
    unfold readSubOptions
    by_cases hmax : maxLen ≤ 4
    · obtain rfl : subs = [] := eq_nil_of_length_eq_zero (by
        have hle := encode_length_ge subs
        omega)
      rw [run_bind_of (run_dhcpv6GetSubOption pos maxLen),if_neg (by omega),foldl_cons,
        sub.read_empty (by omega)]
      rfl
    have hfound : (dhcpv6GetSubOption outer pos maxLen).run (memory m) =
        .ok (some (sub.code,⟨outer.offset + pos + 4,sub.value.length⟩)) := by
      rw [run_dhcpv6GetSubOption,subOptionCode,subOptionAt,hcode,hlength,
        if_pos ⟨by omega,by dsimp only; omega⟩]
    rw [run_bind_of hfound]
    dsimp only
    rw [run_bind_of (run_readSubOption_encoded hvalue a)]
    by_cases hlast : subs = []
    · subst hlast
      rw [if_neg (by simp at hlen; omega)]
      rfl
    have hsome : 0 < (subs.flatMap SubOption.encode).length := by
      obtain ⟨next,rest,rfl⟩ := exists_cons_of_ne_nil hlast
      rw [flatMap_cons,length_append,next.encode_length]
      omega
    rw [if_pos (by omega)]
    refine ih hlast ?_ (by omega) (by omega) (by simpa using hfuel) _
    rw [← Nat.add_assoc,← Nat.add_assoc]
    exact hrest

end

section

variable {now : Nat}

theorem read_delegated {sub : SubOption} {p : IaPrefix} (h : sub.delegated = some p)
    {a : Addresses} (hshortest : a.shortestValid = 0) :
    (sub.read now a).list = p.result now :: a.list ∧
      (sub.read now a).prefixCount = a.prefixCount + 1 ∧
      (sub.read now a).addrCount = a.addrCount ∧ (sub.read now a).shortestValid = 0 := by
  cases sub with
  | iaPrefix q =>
    simp only [SubOption.delegated] at h
    split at h
    · rename_i hlt
      cases h
      simp [SubOption.read,Addresses.addPrefix,hlt,hshortest,IaPrefix.result]
    · cases h
  | success text | other o => cases h

theorem read_skipped {sub : SubOption} (h : sub.delegated = none) (a : Addresses) :
    (sub.read now a).list = a.list ∧ (sub.read now a).prefixCount = a.prefixCount ∧
      (sub.read now a).addrCount = a.addrCount ∧
      (sub.read now a).shortestValid = a.shortestValid := by
  cases sub with
  | iaPrefix q =>
    simp only [SubOption.delegated] at h
    split at h
    · cases h
    · rename_i hle
      simp [SubOption.read,Addresses.addPrefix,hle]
  | success text | other o => exact ⟨rfl,rfl,rfl,rfl⟩

theorem foldl_read (subs : List SubOption) {a : Addresses} (hshortest : a.shortestValid = 0) :
    (subs.foldl (SubOption.read now) a).list =
        ((subs.filterMap SubOption.delegated).map (IaPrefix.result now)).reverse ++ a.list ∧
      (subs.foldl (SubOption.read now) a).prefixCount =
        a.prefixCount + (subs.filterMap SubOption.delegated).length ∧
      (subs.foldl (SubOption.read now) a).addrCount = a.addrCount ∧
      (subs.foldl (SubOption.read now) a).shortestValid = 0 := by
  induction subs generalizing a with
  | nil => exact ⟨rfl,rfl,rfl,hshortest⟩
  | cons sub subs ih =>
    rw [foldl_cons]
    cases hsub : sub.delegated with
    | none =>
      obtain ⟨hlist,hcount,haddr,hvalid⟩ := @read_skipped now sub hsub a
      rw [filterMap_cons_none hsub,← hlist,← hcount,← haddr]
      exact ih (hvalid.trans hshortest)
    | some p =>
      obtain ⟨hlist,hcount,haddr,hvalid⟩ := @read_delegated now sub p hsub a hshortest
      obtain ⟨hlist',hcount',haddr',hvalid'⟩ := ih hvalid
      rw [filterMap_cons_some hsub]
      refine ⟨?_,?_,haddr'.trans haddr,hvalid'⟩
      · rw [hlist',hlist]
        simp
      · rw [hcount',hcount,length_cons]
        omega

end

section

variable {m : Nat → UInt8} {f : Found} {env : Env} {client : Client} {ia : IaPd}

theorem IaPd.encode_length (ia : IaPd) :
    ia.encode.length = 12 + (ia.subOptions.flatMap SubOption.encode).length := by
  simp only [encode,putBe32,length_append,length_cons,length_nil]
  omega

theorem run_readAddresses_encoded (hlength : ia.encode.length = f.length)
    (hstored : Stored m (f.offset + 12) (ia.subOptions.flatMap SubOption.encode)) :
    (readAddresses env client 25 f 12 ia.t1 ia.t2).run (memory m) =
      .ok (if ia.subOptions = [] then (client,[])
        else client.useAddresses env 25 ia.t1 ia.t2 (ia.subOptions.foldl (SubOption.read env.now)
          ⟨[],[],0,0,0,client.statusCode,0,0,0⟩)) := by
  rw [ia.encode_length] at hlength
  have hsome := encode_length_ge ia.subOptions
  unfold readAddresses
  by_cases hnil : ia.subOptions = []
  · rw [if_pos hnil,if_pos (by simp [hnil] at hlength; omega)]
    rfl
  have hpos := length_pos_iff.mpr hnil
  rw [if_neg hnil,if_neg (by omega),run_bind_of (run_readSubOptions_encoded hnil hstored hlength
    (by omega) (by omega) _)]
  rfl

theorem useAddresses_delegated : ∃ client', client.useAddresses env 25 ia.t1 ia.t2
        (ia.subOptions.foldl (SubOption.read env.now)
          ⟨[],[],0,0,0,client.statusCode,0,0,0⟩) =
        (client',ia.delegated.map (IaPrefix.result env.now)) ∧
      (ia.delegated ≠ [] → client'.expire = 0 ∧ client'.t1 = ia.t1 ∧ client'.t2 = ia.t2) := by
  obtain ⟨hlist,hcount,haddr,hvalid⟩ := @foldl_read env.now ia.subOptions
    ⟨[],[],0,0,0,client.statusCode,0,0,0⟩ rfl
  generalize ia.subOptions.foldl (SubOption.read env.now) _ = a at *
  rw [append_nil] at hlist
  rw [Nat.zero_add] at hcount
  simp only [Client.useAddresses,haddr,Nat.lt_irrefl,false_and,if_false,Client.addPrefixes]
  by_cases hnone : ia.delegated = []
  · have hempty : a.list = [] := by
      rw [hlist]
      exact congrArg (fun ps => (ps.map (IaPrefix.result env.now)).reverse) hnone
    rw [if_neg (fun h => h.2 hempty),hempty,hnone]
    exact ⟨_,rfl,fun h => absurd rfl h⟩
  have hpos : 0 < a.prefixCount := by
    rw [hcount]
    exact length_pos_iff.mpr hnone
  have hne : a.list ≠ [] := fun hempty =>
    hnone (map_eq_nil_iff.mp (reverse_eq_nil_iff.mp (hlist.symm.trans hempty)))
  rw [if_pos ⟨hpos,hne⟩,hlist,reverse_reverse]
  exact ⟨_,rfl,fun _ => ⟨hvalid,rfl,rfl⟩⟩

theorem run_getAddresses_encoded (hlength : ia.encode.length = f.length)
    (hstored : Stored m f.offset ia.encode) (hiaid : ia.iaid = client.iaid) :
    ∃ client', (getAddresses env client 25 f).run (memory m) =
        .ok (client',ia.delegated.map (IaPrefix.result env.now)) ∧
      (ia.delegated ≠ [] → client'.expire = 0 ∧ client'.t1 = ia.t1 ∧ client'.t2 = ia.t2) := by
  have hrest := stored_drop hstored rfl
  have hrest' := stored_drop hrest rfl
  have hiaidField : fieldAt m (f.offset + 0) 4 = putBe32 ia.iaid := stored_take hstored rfl
  have ht1 : fieldAt m (f.offset + 4) 4 = putBe32 ia.t1 := stored_take hrest rfl
  have ht2 : fieldAt m (f.offset + 8) 4 = putBe32 ia.t2 := stored_take hrest' rfl
  have hordered := ia.ordered
  have hlen := ia.encode_length
  have hread : (getAddresses env client 25 f).run (memory m) =
      (readAddresses env client 25 f 12 ia.t1 ia.t2).run (memory m) := by
    rw [getAddresses,if_neg (by omega),run_bind_of (run_loadValue _ _ _),hiaidField,
      bigEndian_putBe32 ia.iaid_lt,if_neg (not_not.mpr hiaid),if_pos (.inr rfl),
      run_bind_of (run_loadValue _ _ _),run_bind_of (run_loadValue _ _ _),ht1,ht2,
      bigEndian_putBe32 ia.t2_lt,bigEndian_putBe32 (hordered.trans_lt ia.t2_lt),if_neg (by omega)]
  rw [hread,run_readAddresses_encoded hlength (stored_drop hrest' rfl)]
  by_cases hnil : ia.subOptions = []
  · have hnone : ia.delegated = [] := by rw [IaPd.delegated,hnil]; rfl
    rw [if_pos hnil,hnone]
    exact ⟨client,rfl,fun h => absurd rfl h⟩
  · obtain ⟨client',huse,hset⟩ := @useAddresses_delegated env client ia
    rw [if_neg hnil,huse]
    exact ⟨client',rfl,hset⟩

end

theorem prefixes_delegated_iff (hlength : ia.encode.length = f.length) (hstored : Stored m f.offset ia.encode)
    (hiaid : ia.iaid = client.iaid) :
    PrefixesDelegated m env client f ia ↔
      ∀ p, .iaPrefix p ∈ ia.subOptions → p.valid ≤ p.preferred := by
  obtain ⟨client',hrun,hset⟩ := @run_getAddresses_encoded m f env client ia hlength hstored hiaid
  have hdelegated : ia.delegated = [] ↔
      ∀ p, .iaPrefix p ∈ ia.subOptions → p.valid ≤ p.preferred := by
    rw [IaPd.delegated,filterMap_eq_nil_iff]
    constructor
    · intro hnone p hp
      have hskip := hnone _ hp
      simp only [SubOption.delegated] at hskip
      split at hskip
      · cases hskip
      · omega
    intro hall sub hsub
    cases sub with
    | iaPrefix p =>
      have hle := hall p hsub
      exact if_neg (by omega)
    | success text | other o => rfl
  rw [← hdelegated]
  constructor
  · rintro ⟨client'',hrun',hmin⟩
    by_contra hne
    obtain rfl : client' = client'' := by
      rw [hrun] at hrun'
      cases hrun'
      rfl
    have hzero := (hmin hne).1
    rw [(hset hne).1,min?_eq_some_iff] at hzero
    obtain ⟨p,hp,hvalid⟩ := mem_map.mp hzero.1
    obtain ⟨sub,-,hsub⟩ := mem_filterMap.mp hp
    cases sub with
    | iaPrefix q =>
      simp only [SubOption.delegated] at hsub
      split at hsub
      · cases hsub
        omega
      · cases hsub
    | success text | other o => cases hsub
  · intro hnone
    exact ⟨client',hrun,fun hne => absurd hnone hne⟩

def sitePrefix (preferred valid : Nat) (hpreferred : preferred < 4294967296)
    (hvalid : valid < 4294967296) : IaPrefix :=
  ⟨preferred,valid,56,[32,1,13,184,0,1,0,0,0,0,0,0,0,0,0,0],[],hpreferred,
    hvalid,by decide,by decide⟩

def oneDelegation (p : IaPrefix) : IaPd :=
  ⟨0,900,1440,[.success ⟨[79,75],by decide⟩,.iaPrefix p],by decide,by decide,by decide⟩

theorem deprecatedPrefix_not_delegated :
    PrefixesDelegated
      (valueBytes (oneDelegation (sitePrefix 3600 1800 (by decide) (by decide))).encode) idleEnv
      solicitingClient ⟨0,49⟩ (oneDelegation (sitePrefix 3600 1800 (by decide) (by decide))) :=
  (prefixes_delegated_iff _ _ _ ⟨0,49⟩ _ (by decide) (stored_valueBytes _) rfl).mpr (by
    intro p hp
    simp only [oneDelegation,mem_cons,not_mem_nil,or_false,reduceCtorEq,false_or,
      SubOption.iaPrefix.injEq] at hp
    subst hp
    decide)

def freshPrefix : IaPd := oneDelegation (sitePrefix 1200 2400 (by decide) (by decide))

theorem freshPrefix_expires_at_once :
    ¬PrefixesDelegated (valueBytes freshPrefix.encode) idleEnv solicitingClient ⟨0,49⟩
      freshPrefix := by
  rintro ⟨client',hrun,hset⟩
  have hexpire : ((getAddresses idleEnv solicitingClient 25 ⟨0,49⟩).run
      (memory (valueBytes freshPrefix.encode))).map (fun r => r.1.expire) = .ok 0 := by
    decide +kernel
  have hmin : (freshPrefix.delegated.map IaPrefix.valid).min? = some 2400 := by decide
  rw [hrun] at hexpire
  have hzero : client'.expire = 0 := Except.ok.inj hexpire
  obtain ⟨hvalid,-⟩ := hset (fun hnil => by
    rw [hnil] at hmin
    cases hmin)
  rw [hmin,hzero] at hvalid
  cases hvalid

end FuzzingTargets.Gdhcp
