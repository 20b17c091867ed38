import FuzzingTargets.Connman.Gdhcp.OptionBuilding

namespace FuzzingTargets.Gdhcp
open Checked Loads Loads.Prog TaggedOptions Runs List

def InField (field : Field) : Access → Prop
  | .byte offset => field.start ≤ offset ∧ offset < field.start + field.size
  | _ => False

variable (m : Nat → UInt8) (code : Int)

def Goes (s : Search) (turn : Turn) (s' : Search) : Prop :=
  (searchTurn code s).run (memory m) = .ok turn ∧
    match turn with
    | .advance next => s' = next
    | .jump field overload => s' = enter field overload
    | .done _ => False

structure SearchInside : Prop where
  reads : ∀ s, Reach (enter .options 0) (Goes m code) s →
    Safe (memory m) (InField s.field) (searchTurn code s)
  value : ∀ s, Reach (enter .options 0) (Goes m code) s → ∀ f,
    (searchTurn code s).run (memory m) = .ok (.done (some f)) →
      s.field.start ≤ f.offset ∧ f.offset + f.length ≤ s.field.start + s.field.size

inductive Visits (m : Nat → UInt8) (code : Int) : Field → UInt8 → Prop
  | options : Visits m code .options 0
  | next {field next : Field} {overload bits pending : UInt8} (h : Visits m code field overload)
      (hbits : Declares m code field bits)
      (hnext : nextField (overload ||| bits) = some (next,pending)) : Visits m code next pending

def LoneCode (field : Field) : Prop :=
  ∃ items c, fieldAt m field.start field.size = encode items ++ [c] ∧ c ≠ 0 ∧ c ≠ 255 ∧
    Unmatched code items

def BareOverload (field : Field) : Prop :=
  ∃ items o, fieldAt m field.start field.size = encode (items ++ [.option o]) ∧ o.code = 0x34 ∧
    o.value = [] ∧ Unmatched code (items ++ [.option o])

structure Place (s : Search) (overload : UInt8)
    (pre : List FieldItem) (post : List UInt8) : Prop where
  visits : Visits m code s.field overload
  field : fieldAt m s.field.start s.field.size = encode pre ++ post
  unmatched : Unmatched code pre
  past : s = (enter s.field overload).past m pre

def Located (s : Search) : Prop :=
  s.rem < 0 ∨ ∃ overload pre post, Place m code s overload pre post

inductive Ahead : List UInt8 → Prop
  | item (next : FieldItem) (post : List UInt8) : Ahead (next.bytes ++ post)
  | closed (post : List UInt8) : Ahead (255 :: post)
  | truncated {tail : List UInt8} (hcut : Truncated 0 255 tail) : Ahead tail

section

variable {m : Nat → UInt8} {code : Int} {s s' : Search} {field : Field} {overload : UInt8}
  {pre items : List FieldItem} {post : List UInt8}

section

variable (h : Place m code s overload pre post)
include h

theorem Place.ptr : s.optionptr = s.field.start + (encode pre).length ∧
      (encode pre).length + post.length = s.field.size := by
  have hsize := field_size h.field
  rw [length_append] at hsize
  refine ⟨?_,hsize⟩
  rw [h.past]
  rfl

theorem Place.inField (i : Nat) : InField s.field (.byte (s.optionptr + i)) ↔ i < post.length := by
  obtain ⟨hptr,hsize⟩ := h.ptr
  simp only [InField,hptr]
  omega

theorem Place.before : Before m s post := by
  rw [h.past]
  exact before_past (before_enter overload h.field)

theorem Place.safe_truncated (hcut : Truncated 0 255 post) (hlone : ¬LoneCode m code s.field) :
    ∀ a ∈ [Access.byte s.optionptr,.byte (s.optionptr + 1)], InField s.field a := by
  obtain ⟨c,rest,rfl,hpad,hstop,-⟩ := hcut
  refine forall_mem_cons.mpr ⟨(h.inField 0).mpr (by simp),forall_mem_singleton.mpr
    ((h.inField 1).mpr ?_)⟩
  by_contra hend
  have hrest : rest = [] := length_eq_zero_iff.mp (by
    simp only [length_cons] at hend
    omega)
  subst hrest
  exact hlone ⟨pre,c,h.field,hpad,hstop,h.unmatched⟩

end

theorem past_append (s : Search) (xs ys : List FieldItem) :
    s.past m (xs ++ ys) = (s.past m xs).past m ys := by
  induction xs generalizing s with
  | nil => rw [nil_append,past_nil]
  | cons x xs ih => rw [cons_append,past_cons,ih,← past_cons]

theorem Located.ahead (h : Located m code s) :
    s.rem ≤ 0 ∨ ∃ overload pre post, Place m code s overload pre post ∧ Ahead post := by
  obtain hrem | ⟨overload,pre,post,hplace⟩ := h
  · exact .inl hrem.le
  obtain ⟨items,tail,rfl,hending⟩ := @items_split 0 255 post
  cases items with
  | cons next items =>
    rw [encode_cons,append_assoc] at hplace
    exact .inr ⟨overload,pre,_,hplace,.item next _⟩
  | nil =>
    cases hending with
    | exhausted => exact .inl (by rw [hplace.before.rem]; decide)
    | closed rest => exact .inr ⟨overload,pre,_,hplace,.closed rest⟩
    | truncated hcut => exact .inr ⟨overload,pre,_,hplace,.truncated hcut⟩

theorem located_enter (h : Visits m code field overload) : Located m code (enter field overload) :=
  .inr ⟨overload,[],_,h,rfl,nofun,past_nil.symm⟩

theorem Place.item {next : FieldItem} (h : Place m code s overload pre (next.bytes ++ post))
    (hne : ¬Matches code next) : Place m code (s.past m [next]) overload (pre ++ [next]) post where
  visits := h.visits
  field := by
    rw [encode_append,encode_singleton,append_assoc]
    exact h.field
  unmatched := forall_mem_append.mpr ⟨h.unmatched,forall_mem_singleton.mpr hne⟩
  past := by
    rw [past_append]
    exact congrArg (Search.past m · [next]) h.past

theorem reach_past {bs : List UInt8} (h : Reach (enter .options 0) (Goes m code) s)
    (hbefore : Before m s (encode items ++ bs)) (hne : Unmatched code items) :
    Reach (enter .options 0) (Goes m code) (s.past m items) := by
  induction items generalizing s with
  | nil => rwa [past_nil]
  | cons item items ih =>
    obtain ⟨hitem,hitems⟩ := forall_mem_cons.mp hne
    rw [encode_cons,append_assoc] at hbefore
    rw [past_cons]
    refine ih (.next h ⟨turn_item hbefore hitem,rfl⟩) (before_past ?_) hitems
    rwa [encode_singleton]

theorem reach_visits (h : Visits m code field overload) :
    Reach (enter .options 0) (Goes m code) (enter field overload) := by
  induction h with
  | options => exact .start
  | @next field next overload bits pending _ hbits hnext ih =>
    obtain ⟨items,rest,hfield,hitems,rfl⟩ := hbits
    have hbefore := before_enter overload hfield
    have hturn := (@turn_closed m code _ _ (before_past hbefore)).1
    have hoverload : ((enter field overload).past m items).overload =
        overload ||| overloadBits m field.start items := rfl
    rw [hoverload,endTurn,hnext] at hturn
    exact .next (reach_past ih hbefore hitems) ⟨hturn,rfl⟩

theorem Place.safe_option {o : Tagged 0 255} (h : Place m code s overload pre (o.bytes ++ post))
    (hbare : ¬BareOverload m code s.field) :
    ∀ a ∈ optionReads o code s.optionptr, InField s.field a := by
  have hin := h.inField
  simp only [length_append,o.bytes_length] at hin
  have hfirst : InField s.field (.byte s.optionptr) := (hin 0).mpr (by omega)
  have hsecond : InField s.field (.byte (s.optionptr + 1)) := (hin 1).mpr (by omega)
  unfold optionReads
  split
  · rename_i hoverload
    refine forall_mem_cons.mpr ⟨hfirst,forall_mem_cons.mpr ⟨hsecond,
      forall_mem_singleton.mpr ((hin 2).mpr ?_)⟩⟩
    by_contra hend
    have hvalue : o.value = [] := length_eq_zero_iff.mp (by omega)
    have hpost : post = [] := length_eq_zero_iff.mp (by omega)
    refine hbare ⟨pre,o,?_,hoverload.2,hvalue,?_⟩
    · rw [h.field,hpost,append_nil,encode_append,encode_singleton]
      rfl
    · exact forall_mem_append.mpr ⟨h.unmatched,forall_mem_singleton.mpr hoverload.1⟩
  · exact forall_mem_cons.mpr ⟨hfirst,forall_mem_singleton.mpr hsecond⟩

def Leads (m : Nat → UInt8) (code : Int) (field : Field) : Turn → Prop
  | .advance next => Located m code next
  | .jump next overload => Visits m code next overload
  | .done result => ∀ f, result = some f →
      field.start ≤ f.offset ∧ f.offset + f.length ≤ field.start + field.size

theorem Located.turn (h : Located m code s) :
    ∃ turn reads, Takes m code s turn reads ∧ Leads m code s.field turn ∧
      ((∀ field overload, Visits m code field overload →
        ¬LoneCode m code field ∧ ¬BareOverload m code field) → ∀ a ∈ reads, InField s.field a) := by
  obtain hrem | ⟨overload,pre,post,hplace,hahead⟩ := h.ahead
  · exact ⟨_,_,turn_exhausted hrem,nofun,fun _ => nofun⟩
  cases hahead with
  | item next post =>
    cases next with
    | padding =>
      exact ⟨_,_,turn_padding hplace.before,.inr ⟨overload,_,post,hplace.item id⟩,
        fun _ => forall_mem_singleton.mpr ((hplace.inField 0).mpr (by simp [Item.bytes]))⟩
    | option o =>
      refine ⟨_,_,turn_option hplace.before,?_,
        fun hfields => hplace.safe_option (hfields _ _ hplace.visits).2⟩
      split
      · obtain ⟨hptr,hsize⟩ := hplace.ptr
        simp only [length_append,Item.bytes,o.bytes_length] at hsize
        rintro f ⟨⟩
        dsimp only
        omega
      · rename_i hne
        exact .inr ⟨overload,_,post,hplace.item hne⟩
  | closed post =>
    refine ⟨_,_,turn_closed hplace.before,?_,
      fun _ => forall_mem_singleton.mpr ((hplace.inField 0).mpr (by simp))⟩
    have hoverload : s.overload = overload ||| overloadBits m s.field.start pre := by
      rw [hplace.past]
      rfl
    unfold endTurn
    cases hnext : nextField s.overload with
    | none => exact nofun
    | some next =>
      rw [hoverload] at hnext
      exact .next hplace.visits ⟨pre,post,hplace.field,hplace.unmatched,rfl⟩ hnext
  | truncated hcut =>
    obtain ⟨next,hturn,hrem⟩ := turn_truncated hplace.before hcut
    exact ⟨_,_,hturn,.inl hrem,
      fun hfields => hplace.safe_truncated hcut (hfields _ _ hplace.visits).1⟩

theorem located_step {turn : Turn} (h : Located m code s) (hgoes : Goes m code s turn s') :
    Located m code s' := by
  obtain ⟨hrun,hgoes⟩ := hgoes
  obtain ⟨turn,reads,hturn,hleads,-⟩ := h.turn
  cases hturn.1.symm.trans hrun
  cases turn with
  | advance next => exact hgoes ▸ hleads
  | jump field overload => exact hgoes ▸ located_enter hleads
  | done result => exact hgoes.elim

theorem reach_located (h : Reach (enter .options 0) (Goes m code) s) : Located m code s :=
  reach_invariant (located_enter .options) (fun _ _ _ hs hgoes => located_step hs hgoes) h

theorem place_past (hvisits : Visits m code field overload)
    (hfield : fieldAt m field.start field.size = encode pre ++ post) (hpre : Unmatched code pre) :
    Place m code ((enter field overload).past m pre) overload pre post ∧
      Reach (enter .options 0) (Goes m code) ((enter field overload).past m pre) :=
  ⟨⟨hvisits,hfield,hpre,rfl⟩,
    reach_past (reach_visits hvisits) (before_enter overload hfield) hpre⟩

end

theorem searchInside_iff (m : Nat → UInt8) (code : Int) :
    SearchInside m code ↔ ∀ field overload, Visits m code field overload →
      ¬LoneCode m code field ∧ ¬BareOverload m code field := by
  constructor
  · intro h field overload hvisits
    constructor
    · rintro ⟨items,c,hfield,hpad,hstop,hitems⟩
      obtain ⟨hplace,hreach⟩ := place_past hvisits hfield hitems
      have hcut : Truncated 0 255 [c] := ⟨c,[],rfl,hpad,hstop,nofun⟩
      have hsafe := h.reads _ hreach
      unfold Safe at hsafe
      obtain ⟨_,hturn,-⟩ := turn_truncated hplace.before hcut
      rw [hturn.2] at hsafe
      have hsecond := hsafe _ (.tail _ (mem_singleton_self _))
      exact absurd ((hplace.inField 1).mp hsecond) (by simp)
    rintro ⟨items,o,hfield,hcode,hvalue,hitems⟩
    obtain ⟨hitems,hlast⟩ := forall_mem_append.mp hitems
    have hmatch : (o.code.toNat : Int) ≠ code := hlast (.option o) (mem_singleton_self _)
    rw [encode_append,encode_singleton,← append_nil (Item.bytes _)] at hfield
    obtain ⟨hplace,hreach⟩ := place_past hvisits hfield hitems
    have hsafe := h.reads _ hreach
    unfold Safe at hsafe
    rw [(turn_option hplace.before).2,optionReads,if_pos ⟨hmatch,hcode⟩] at hsafe
    have hthird := hsafe _ (.tail _ (mem_cons_of_mem _
      (mem_singleton_self _)))
    have hin := (hplace.inField 2).mp hthird
    rw [append_nil,Item.bytes,o.bytes_length,hvalue] at hin
    exact absurd hin (by decide)
  · intro h
    constructor
    · intro s hs
      obtain ⟨turn,reads,hturn,-,hreads⟩ := (reach_located hs).turn
      rw [Safe,hturn.2]
      exact hreads h
    · intro s hs f hrun
      obtain ⟨turn,reads,hturn,hleads,-⟩ := (reach_located hs).turn
      cases hturn.1.symm.trans hrun
      exact hleads f rfl

def BuildInside (type : UInt8) (calls : List BuildCall) : Prop :=
  ∃ options, build type calls = .ok options

def EndMarked (options : List UInt8) : Prop := ∃ last, EndsAt options last

def BuildCall.Fits (options : List UInt8) : BuildCall → Prop
  | .binary _ => EndMarked options
  | .uint8 code _ => checkOption code 1 → EndMarked options
  | .uint16 code _ => checkOption code 2 → EndMarked options
  | .uint32 code _ => checkOption code 4 → EndMarked options
  | .request requestList => ∃ last, EndsAt options last ∧
      (requestList = [] ∨ last + 2 + requestList.length < options.length)

def CallsFit : List UInt8 → List BuildCall → Prop
  | _, [] => True
  | options, call :: calls => call.Fits options ∧
      ∀ next, call.apply options = .ok next → CallsFit next calls

section

variable {options out : List UInt8} {o : BinaryOption} {requestList : List Int}

theorem addBinary_length (h : dhcpAddBinaryOption options o = .ok out) :
    out.length = options.length := by
  obtain ⟨last,-,h⟩ := bind_eq_ok h
  dsimp only at h
  split at h
  · cases h
    rfl
  · obtain ⟨next,hfirst,hsecond⟩ := bind_eq_ok h
    rw [storeSlice_length hsecond,storeSlice_length hfirst]

theorem addValue_length (h : addOptionValue options o = .ok out) : out.length = options.length := by
  unfold addOptionValue at h
  split at h
  · exact addBinary_length h
  · cases h
    rfl

theorem addRequest_length (h : addRequestOptions options requestList = .ok out) :
    out.length = options.length := by
  obtain ⟨last,-,h⟩ := bind_eq_ok h
  obtain ⟨stored,hcodes,h⟩ := bind_eq_ok h
  split at h
  · cases h
    exact storeCodes_length hcodes
  obtain ⟨coded,hcode,h⟩ := bind_eq_ok h
  obtain ⟨sized,hsize,h⟩ := bind_eq_ok h
  rw [storeSlice_length h,storeSlice_length hsize,storeSlice_length hcode,
    storeCodes_length hcodes]

theorem addRequest_ok_iff : (∃ out, addRequestOptions options requestList = .ok out) ↔
      ∃ last, EndsAt options last ∧
        (requestList = [] ∨ last + 2 + requestList.length < options.length) := by
  constructor
  · rintro ⟨out,h⟩
    obtain ⟨last,hlast,h⟩ := bind_eq_ok h
    obtain ⟨stored,hcodes,h⟩ := bind_eq_ok h
    refine ⟨last,dhcpEndOption_ok hlast,?_⟩
    split at h
    · rename_i hempty
      exact .inl (length_eq_zero_iff.mp hempty)
    obtain ⟨coded,hcode,h⟩ := bind_eq_ok h
    obtain ⟨sized,hsize,h⟩ := bind_eq_ok h
    have hfits := (storeSlice_eq_ok h).1
    rw [storeSlice_length hsize,storeSlice_length hcode,storeCodes_length hcodes] at hfits
    exact .inr hfits
  rintro ⟨last,hends,hempty | hroom⟩
  · subst hempty
    rw [addRequestOptions,dhcpEndOption_closed hends]
    exact ⟨options,rfl⟩
  obtain ⟨stored,hcodes⟩ := @storeCodes_ok requestList options (last + 2) (by omega)
  have hstored := storeCodes_length hcodes
  rw [addRequestOptions,dhcpEndOption_closed hends,bind_ok,hcodes,bind_ok]
  split
  · exact ⟨stored,rfl⟩
  obtain ⟨coded,hcode⟩ := store_ok (show last < stored.length by omega) 0x37
  have hcoded := storeSlice_length hcode
  obtain ⟨sized,hsize⟩ := store_ok (show last + 1 < coded.length by omega)
    (UInt8.ofNat requestList.length)
  have hsized := storeSlice_length hsize
  rw [hcode,bind_ok,hsize,bind_ok]
  exact store_ok (by omega) 255

theorem apply_length {call : BuildCall} (h : call.apply options = .ok out) :
    out.length = options.length := by
  cases call with
  | binary addopt => exact addBinary_length h
  | uint8 code data | uint16 code data | uint32 code data => exact addValue_length h
  | request requestList => exact addRequest_length h

section

variable (hlength : options.length = 388)
include hlength

theorem addBinary_ok_iff :
    (∃ out, dhcpAddBinaryOption options o = .ok out) ↔ EndMarked options := by
  constructor
  · rintro ⟨out,h⟩
    obtain ⟨last,hlast,-⟩ := bind_eq_ok h
    exact ⟨last,dhcpEndOption_ok hlast⟩
  rintro ⟨last,hends⟩
  by_cases hfull : dhcpOptionsBufsize ≤ last + (2 + o.value.length) + 1
  · exact ⟨options,dhcpAddBinaryOption_full hends hfull⟩
  · obtain ⟨items,rest,rfl,rfl⟩ := hends
    exact ⟨_,dhcpAddBinaryOption_fits hlength (by omega)⟩

theorem addValue_ok_iff : (∃ out, addOptionValue options o = .ok out) ↔
      (checkOption o.code o.value.length → EndMarked options) := by
  unfold addOptionValue
  split
  · rename_i hcheck
    rw [addBinary_ok_iff hlength]
    exact ⟨fun h _ => h,fun h => h hcheck⟩
  · rename_i hcheck
    exact ⟨fun _ h => absurd h hcheck,fun _ => ⟨options,rfl⟩⟩

theorem apply_ok_iff {call : BuildCall} :
    (∃ out, call.apply options = .ok out) ↔ call.Fits options := by
  cases call with
  | binary addopt => exact addBinary_ok_iff hlength
  | uint8 code data | uint16 code data | uint32 code data => exact addValue_ok_iff hlength
  | request requestList => exact addRequest_ok_iff

theorem buildFrom_ok_iff {calls : List BuildCall} :
    (∃ out, buildFrom options calls = .ok out) ↔ CallsFit options calls := by
  induction calls generalizing options with
  | nil => exact ⟨fun _ => trivial,fun _ => ⟨options,rfl⟩⟩
  | cons call calls ih =>
    constructor
    · rintro ⟨out,h⟩
      obtain ⟨next,happly,hrest⟩ := bind_eq_ok h
      refine ⟨(apply_ok_iff hlength).mp ⟨next,happly⟩,fun next' hnext' => ?_⟩
      rw [happly] at hnext'
      cases hnext'
      exact (ih ((apply_length happly).trans hlength)).mp ⟨out,hrest⟩
    rintro ⟨hfits,hrest⟩
    obtain ⟨next,happly⟩ := (apply_ok_iff hlength).mpr hfits
    obtain ⟨out,hout⟩ := (ih ((apply_length happly).trans hlength)).mpr (hrest next happly)
    refine ⟨out,?_⟩
    rw [buildFrom,happly,bind_ok,hout]

end

theorem buildInside_iff (type : UInt8) (calls : List BuildCall) :
    BuildInside type calls ↔ ∃ options, initOptions type = .ok options ∧ CallsFit options calls := by
  obtain ⟨options,hinit,hholds⟩ := initOptions_holds type
  unfold BuildInside build
  rw [hinit,bind_ok,buildFrom_ok_iff hholds.size]
  constructor
  · exact fun h => ⟨options,rfl,h⟩
  · rintro ⟨options',heq,h⟩
    cases heq
    exact h

end

theorem option_access_inside_iff (m : Nat → UInt8) (code : Int) (type : UInt8)
    (calls : List BuildCall) :
    SearchInside m code ∧ BuildInside type calls ↔
      (∀ field overload, Visits m code field overload →
        ¬LoneCode m code field ∧ ¬BareOverload m code field) ∧
      ∃ options, initOptions type = .ok options ∧ CallsFit options calls :=
  and_congr (searchInside_iff m code) (buildInside_iff type calls)

def loneCodePacket : Nat → UInt8 := valueBytes (replicate 627 0 ++ [1])

theorem loneCodePacket_read_past :
    ¬SearchInside loneCodePacket 3 ∧ ¬BuildInside 1 [.request (List.replicate 383 1)] := by
  constructor
  · intro h
    have hfield : fieldAt loneCodePacket 240 388 =
        encode (List.replicate 387 .padding : List FieldItem) ++ [1] := by decide +kernel
    refine ((searchInside_iff _ _).mp h .options 0 .options).1
      ⟨List.replicate 387 .padding,1,hfield,by decide,by decide,?_⟩
    intro item hitem
    rw [eq_of_mem_replicate hitem]
    exact id
  rintro ⟨options,hbuild⟩
  have hfault : build 1 [.request (List.replicate 383 1)] = .error (.write 388) := by
    decide +kernel
  rw [hfault] at hbuild
  cases hbuild

end FuzzingTargets.Gdhcp
