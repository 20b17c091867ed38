import FuzzingTargets.UBoot.HashTable.Table

namespace FuzzingTargets.UBoot.HashTable

open Checked Bytes List

structure Exportable (sep : UInt8) (key : CString) : Prop where
  nonempty : key.1 ≠ []
  noEquals : 61 ∉ key.1
  noSep : sep ∉ key.1
  start : ∀ c, key.1.head? = some c → c ≠ 32 ∧ c ≠ 9 ∧ c ≠ 35

section

variable {sep : UInt8} {A R : List UInt8}

theorem byteAt_append (A : List UInt8) (c : UInt8) (R : List UInt8) :
    byteAt (A ++ c :: R) A.length = .ok c :=
  load_some (by simp)

theorem set_append (A : List UInt8) {L : List UInt8} (hL : L ≠ []) (R : List UInt8) (x : UInt8) :
    (A ++ L ++ R).set A.length x = A ++ [x] ++ L.tail ++ R := by
  obtain ⟨y,L,rfl⟩ := exists_cons_of_ne_nil hL
  simp

theorem scanName_key {key : List UInt8} (hzero : 0 ∉ key) (hequals : 61 ∉ key)
    (hnosep : sep ∉ key) : ∀ (A : List UInt8) (fuel : Nat), key.length < fuel →
    scanName (A ++ (key ++ 61 :: R)) sep fuel A.length = .ok (A.length + key.length) := by
  induction key with
  | nil =>
    intro A fuel hfuel
    obtain _ | fuel := fuel
    · omega
    rw [nil_append,scanName,byteAt_append,bind_ok]
    rfl
  | cons c key ih =>
    intro A fuel hfuel
    obtain _ | fuel := fuel
    · omega
    simp only [mem_cons,not_or,length_cons] at hzero hequals hnosep hfuel
    have hstep := ih hzero.2 hequals.2 hnosep.2 (A ++ [c]) fuel (by omega)
    rw [cons_append,scanName,byteAt_append,bind_ok,
      if_pos ⟨Ne.symm hequals.1,Ne.symm hzero.1,Ne.symm hnosep.1⟩]
    simp only [append_assoc,singleton_append,length_append,length_singleton] at hstep
    rw [hstep,length_cons]
    congr 1
    omega

theorem endsName_value (hsep : sep ≠ 61) {c : UInt8} (hzero : c ≠ 0) (hc : c ≠ sep) :
    endsName (A ++ 61 :: c :: R) sep A.length = .ok false := by
  have hnext : byteAt (A ++ 61 :: c :: R) (A.length + 1) = .ok c := by
    have h := byteAt_append (A ++ [61]) c R
    simpa using h
  rw [endsName,byteAt_append,bind_ok,if_neg (by decide),hnext,bind_ok]
  simp [hzero,hc,Ne.symm hsep]
  rfl

theorem escape_cons (sep c : UInt8) (v : List UInt8) :
    escape sep (c :: v) = escapeByte sep c ++ escape sep v := by
  rw [escape,flatMap_cons,escape]

theorem escapeByte_ne_nil (sep c : UInt8) : escapeByte sep c ≠ [] := by
  unfold escapeByte
  split <;> simp

theorem length_le_escape (sep : UInt8) (v : List UInt8) : v.length ≤ (escape sep v).length := by
  induction v with
  | nil => exact Nat.le_refl 0
  | cons c v ih =>
    have hpos := length_pos_of_ne_nil (escapeByte_ne_nil sep c)
    rw [escape_cons,length_append,length_cons]
    omega

theorem parseValue_byte (hsep : sep ≠ 92) {c : UInt8} (hc : c ≠ 0) (A G R : List UInt8) (fuel : Nat) :
    parseValue sep (fuel + 1) (A ++ (G ++ escapeByte sep c) ++ R) (A.length + G.length) A.length =
      parseValue sep fuel (A ++ [c] ++ (G ++ escapeByte sep c).tail ++ R)
        (A.length + G.length + (escapeByte sep c).length) (A.length + 1) := by
  have hset := set_append A (append_ne_nil_of_right_ne_nil G (escapeByte_ne_nil sep c)) R c
  rw [parseValue]
  by_cases hspecial : c = sep ∨ c = 92
  · have hbytes : escapeByte sep c = [92,c] := if_pos hspecial
    rw [hbytes] at hset ⊢
    have hslash : byteAt (A ++ (G ++ [92,c]) ++ R) (A.length + G.length) = .ok 92 := by
      have h := byteAt_append (A ++ G) 92 (c :: R)
      simpa using h
    have hbyte : byteAt (A ++ (G ++ [92,c]) ++ R) (A.length + G.length + 1) = .ok c := by
      have h := byteAt_append (A ++ G ++ [92]) c R
      simpa [Nat.add_assoc] using h
    have hskip : unescapedAt (A ++ (G ++ [92,c]) ++ R) 92 (A.length + G.length) =
        .ok (A.length + G.length + 1) := by
      rw [unescapedAt,if_pos rfl,hbyte,bind_ok,if_pos hc]
      rfl
    rw [hslash,bind_ok,if_pos ⟨by decide,Ne.symm hsep⟩,hskip,bind_ok,hbyte,bind_ok,hset]
    rfl
  have hbytes : escapeByte sep c = [c] := if_neg hspecial
  rw [not_or] at hspecial
  rw [hbytes] at hset ⊢
  have hbyte : byteAt (A ++ (G ++ [c]) ++ R) (A.length + G.length) = .ok c := by
    have h := byteAt_append (A ++ G) c R
    simpa using h
  have hskip : unescapedAt (A ++ (G ++ [c]) ++ R) c (A.length + G.length) =
      .ok (A.length + G.length) := by
    rw [unescapedAt,if_neg hspecial.2]
    rfl
  rw [hbyte,bind_ok,if_pos ⟨hc,hspecial.1⟩,hskip,bind_ok,hbyte,bind_ok,hset]
  rfl

theorem parseValue_escape (hsep : sep ≠ 92) {v : List UInt8} (hv : 0 ∉ v) :
    ∀ (A G : List UInt8) (fuel : Nat), v.length < fuel →
    ∃ G', G'.length + v.length = G.length + (escape sep v).length ∧
      parseValue sep fuel (A ++ G ++ escape sep v ++ sep :: R) (A.length + G.length) A.length =
        .ok (A ++ v ++ G' ++ sep :: R,A.length + G.length + (escape sep v).length,
          A.length + v.length) := by
  induction v with
  | nil =>
    intro A G fuel hfuel
    obtain _ | fuel := fuel
    · omega
    refine ⟨G,rfl,?_⟩
    have hbyte := byteAt_append (A ++ G) sep R
    rw [length_append] at hbyte
    simp only [escape,flatMap_nil,append_nil]
    rw [parseValue,hbyte,bind_ok,if_neg (by simp)]
    rfl
  | cons c v ih =>
    intro A G fuel hfuel
    obtain _ | fuel := fuel
    · omega
    simp only [mem_cons,not_or,length_cons] at hv hfuel
    obtain ⟨G',hlen,hparse⟩ :=
      ih hv.2 (A ++ [c]) (G ++ escapeByte sep c).tail fuel (by omega)
    have hpos := length_pos_of_ne_nil (escapeByte_ne_nil sep c)
    have hbyte := parseValue_byte hsep (Ne.symm hv.1) A G (escape sep v ++ sep :: R) fuel
    simp only [length_append,length_tail,length_singleton] at hlen hparse
    refine ⟨G',?_,?_⟩
    · rw [escape_cons,length_append,length_cons]
      omega
    have hdp : A.length + G.length + (escapeByte sep c).length =
        A.length + 1 + (G.length + (escapeByte sep c).length - 1) := by omega
    have hend : A.length + 1 + (G.length + (escapeByte sep c).length - 1) +
        (escape sep v).length = A.length + G.length + (escape sep (c :: v)).length := by
      rw [escape_cons,length_append]
      omega
    rw [hdp] at hbyte
    simp only [escape_cons,append_assoc,cons_append,nil_append,length_cons] at hbyte hparse ⊢
    rw [hbyte,hparse]
    congr 3
    omega

theorem stringAt_append (A : List UInt8) (s : CString) (R : List UInt8) :
    stringAt (A ++ (s.1 ++ 0 :: R)) A.length = s := by
  apply Subtype.ext
  simp only [stringAt,drop_left]
  exact cstring_terminated s.2 R

end

section

variable {policy : Policy} {sep : UInt8} {flag : Nat} {htab : HsearchData} {e : Entry}

theorem exportLine_length (sep : UInt8) (e : Entry) :
    (exportLine sep e).length = e.key.1.length + 1 + (escape sep e.data.1).length + 1 := by
  simp only [exportLine,length_append,length_cons,length_nil]
  omega

def enterAll (policy : Policy) (flag : Nat) : List Entry → HsearchData → Except Fault HsearchData
  | [], htab => .ok htab
  | e :: es, htab => do
    let (_,htab) ← hsearchR policy e.key (.enter e.data) htab flag
    enterAll policy flag es htab

theorem exportLine_head (hkey : Exportable sep e.key)
    (R : List UInt8) : ∃ c S, exportLine sep e ++ R = c :: S ∧ c ≠ 0 := by
  obtain ⟨c,k,hck⟩ := exists_cons_of_ne_nil hkey.nonempty
  have hzero := e.key.2
  rw [hck,mem_cons,not_or] at hzero
  exact ⟨c,_,by rw [exportLine,hck]; rfl,Ne.symm hzero.1⟩

section

variable (hsep : sep ≠ 92)
include hsep

theorem parseValue_line (e : Entry) (A R : List UInt8) :
    ∃ A' data sp, A'.length = A.length + (exportLine sep e).length ∧
      parseValue sep ((A ++ exportLine sep e ++ R).length + 1)
          ((A ++ exportLine sep e ++ R).set (A.length + e.key.1.length) 0)
          (A.length + e.key.1.length + 1) (A.length + e.key.1.length + 1) =
        .ok (data,A.length + e.key.1.length + 1 + (escape sep e.data.1).length,sp) ∧
      data.set sp 0 = A' ++ R ∧ stringAt (A' ++ R) A.length = e.key ∧
      stringAt (A' ++ R) (A.length + e.key.1.length + 1) = e.data := by
  have hfuel : e.data.1.length < (A ++ exportLine sep e ++ R).length + 1 := by
    have hle := length_le_escape sep e.data.1
    rw [length_append,length_append,exportLine_length]
    omega
  obtain ⟨G,hlen,hparse⟩ :=
    parseValue_escape (R := R) hsep e.data.2 (A ++ e.key.1 ++ [0]) [] _ hfuel
  have hname : (A ++ exportLine sep e ++ R).set (A.length + e.key.1.length) 0 =
      A ++ e.key.1 ++ [0] ++ [] ++ escape sep e.data.1 ++ sep :: R := by
    simp [exportLine]
  have hvalue := set_append (A ++ e.key.1 ++ [0] ++ e.data.1) (L := G ++ [sep]) (by simp) R 0
  have hstart : (A ++ e.key.1 ++ [0]).length = A.length + e.key.1.length + 1 := by
    simp [Nat.add_assoc]
  have hend : (A ++ e.key.1 ++ [0] ++ e.data.1).length =
      A.length + e.key.1.length + 1 + e.data.1.length := by
    rw [length_append,hstart]
  refine ⟨A ++ e.key.1 ++ [0] ++ e.data.1 ++ [0] ++ (G ++ [sep]).tail,
    A ++ e.key.1 ++ [0] ++ e.data.1 ++ G ++ sep :: R,
    (A ++ e.key.1 ++ [0] ++ e.data.1).length,?_,?_,?_,?_,?_⟩
  · rw [exportLine_length]
    simp only [length_append,length_cons,length_nil,length_tail] at hlen ⊢
    omega
  · rw [hstart] at hparse
    rw [hname,hend]
    exact hparse
  · simpa using hvalue
  · have h := stringAt_append A e.key (e.data.1 ++ ([0] ++ (G ++ [sep]).tail ++ R))
    simpa using h
  · have h := stringAt_append (A ++ e.key.1 ++ [0]) e.data ((G ++ [sep]).tail ++ R)
    simpa [Nat.add_assoc] using h

theorem importEnter_line (policy : Policy) (flag : Nat) (htab : HsearchData) (hkey : e.key.1 ≠ [])
    (A R : List UInt8) : ∃ A', A'.length = A.length + (exportLine sep e).length ∧
      importEnter policy sep flag ⟨A ++ exportLine sep e ++ R,A.length,htab,[]⟩ A.length
          (A.length + e.key.1.length) = hsearchR policy e.key (.enter e.data) htab flag >>= fun r =>
          .ok (true,⟨A' ++ R,A'.length,r.2,[]⟩) := by
  obtain ⟨A',data,sp,hlen,hparse,hset,hname,hvalue⟩ := parseValue_line hsep e A R
  refine ⟨A',hlen,?_⟩
  have hend : A.length + e.key.1.length + 1 + (escape sep e.data.1).length + 1 = A'.length := by
    rw [hlen,exportLine_length]
    omega
  rw [importEnter,hparse,bind_ok]
  dsimp only
  rw [hset,hname,hvalue,if_neg hkey,hend]
  rfl

theorem escape_head {v : CString} (hv : v.1 ≠ []) (R : List UInt8) :
    ∃ c S, escape sep v.1 ++ R = c :: S ∧ c ≠ 0 ∧ c ≠ sep := by
  obtain ⟨v,hzero⟩ := v
  obtain ⟨c,v,rfl⟩ := exists_cons_of_ne_nil hv
  simp only [mem_cons,not_or] at hzero
  rw [escape_cons,escapeByte]
  split
  · exact ⟨92,_,rfl,by decide,Ne.symm hsep⟩
  · rename_i hplain
    rw [not_or] at hplain
    exact ⟨c,_,rfl,Ne.symm hzero.1,hplain.1⟩

theorem importStep_line (policy : Policy) (flag : Nat) (htab : HsearchData) (hequals : sep ≠ 61)
    (hkey : Exportable sep e.key) (hdata : e.data.1 ≠ []) (A R : List UInt8) :
    ∃ A', A'.length = A.length + (exportLine sep e).length ∧
      importStep policy sep flag ⟨A ++ exportLine sep e ++ R,A.length,htab,[]⟩ =
        hsearchR policy e.key (.enter e.data) htab flag >>= fun r =>
          .ok (true,⟨A' ++ R,A'.length,r.2,[]⟩) := by
  obtain ⟨A',hlen,henter⟩ := importEnter_line hsep policy flag htab hkey.nonempty A R
  refine ⟨A',hlen,?_⟩
  obtain ⟨c,k,hck⟩ := exists_cons_of_ne_nil hkey.nonempty
  obtain ⟨h1,h2,h3⟩ := hkey.start c (by rw [hck]; rfl)
  obtain ⟨d,S,hd,hd0,hdsep⟩ := escape_head hsep hdata (sep :: R)
  have hline : A ++ exportLine sep e ++ R = A ++ (e.key.1 ++ 61 :: d :: S) := by
    rw [exportLine,← hd]
    simp
  have hfirst : A ++ exportLine sep e ++ R = A ++ c :: (k ++ 61 :: d :: S) := by
    rw [hline,hck]
    rfl
  have hblank : isblank c = false := by simp [isblank,h1,h2]
  have hname : A ++ exportLine sep e ++ R = (A ++ e.key.1) ++ 61 :: d :: S := by
    rw [hline,append_assoc]
  have hlength : (A ++ e.key.1).length = A.length + e.key.1.length := length_append
  have hskip : skipBlank (A ++ exportLine sep e ++ R) ((A ++ exportLine sep e ++ R).length + 1)
      A.length = .ok A.length := by
    rw [hfirst,skipBlank,byteAt_append,bind_ok,hblank]
    rfl
  have hbyte : byteAt (A ++ exportLine sep e ++ R) A.length = .ok c := by
    rw [hfirst]
    exact byteAt_append A c _
  have hscan : scanName (A ++ exportLine sep e ++ R) sep
      ((A ++ exportLine sep e ++ R).length + 1) A.length = .ok (A.length + e.key.1.length) := by
    rw [hline]
    refine scanName_key e.key.2 hkey.noEquals hkey.noSep A _ ?_
    simp only [length_append]
    omega
  have hequal : byteAt (A ++ exportLine sep e ++ R) (A.length + e.key.1.length) = .ok 61 := by
    rw [hname,← hlength]
    exact byteAt_append _ 61 _
  have hends : endsName (A ++ exportLine sep e ++ R) sep (A.length + e.key.1.length) =
      .ok false := by
    rw [hname,← hlength]
    exact endsName_value hequals hd0 hdsep
  rw [importStep]
  rw [hskip,bind_ok,hbyte,bind_ok,if_neg h3,hscan,bind_ok,hequal,bind_ok,hends,bind_ok]
  exact henter

theorem importLoop_line (hequals : sep ≠ 61) (hkey : Exportable sep e.key) (hdata : e.data.1 ≠ [])
    {answer : Answer} {htab' : HsearchData}
    (henter : hsearchR policy e.key (.enter e.data) htab flag = .ok (answer,htab'))
    (A R : List UInt8) (c : UInt8) (size fuel : Nat) :
    ∃ A', A'.length = A.length + (exportLine sep e).length ∧
      importLoop policy sep flag size (fuel + 1)
          ⟨A ++ exportLine sep e ++ c :: R,A.length,htab,[]⟩ =
        if size ≤ A'.length ∨ c = 0 then .ok (true,⟨A' ++ c :: R,A'.length,htab',[]⟩)
        else importLoop policy sep flag size fuel ⟨A' ++ c :: R,A'.length,htab',[]⟩ := by
  obtain ⟨A',hlen,hstep⟩ :=
    importStep_line hsep policy flag htab hequals hkey hdata A (c :: R)
  refine ⟨A',hlen,?_⟩
  rw [importLoop,hstep,henter,bind_ok,bind_ok]
  dsimp only
  rw [if_neg (by decide),byteAt_append,bind_ok]
  by_cases hend : size ≤ A'.length
  · rw [if_pos hend,if_pos (.inl hend)]
    rfl
  by_cases hc : c = 0
  · rw [if_neg hend,if_pos hc,if_pos (.inr hc)]
    rfl
  · rw [if_neg hend,if_neg hc,if_neg (by simp [hend,hc])]

theorem importLoop_lines (hequals : sep ≠ 61) (size zeros : Nat) {es : List Entry} :
    ∀ {e : Entry} {A : List UInt8} {htab htab' : HsearchData} {fuel : Nat},
    (∀ e' ∈ e :: es, Exportable sep e'.key ∧ e'.data.1 ≠ []) →
    enterAll policy flag (e :: es) htab = .ok htab' → es.length < fuel →
    A.length + ((e :: es).flatMap (exportLine sep)).length ≤ size →
    ∃ st, importLoop policy sep flag size fuel
        ⟨A ++ (e :: es).flatMap (exportLine sep) ++ replicate (zeros + 1) 0,A.length,htab,
          []⟩ = .ok (true,st) ∧ st.htab = htab' ∧ st.vars = [] := by
  induction es with
  | nil =>
    intro e A htab htab' fuel hgood hall hfuel hsize
    obtain _ | fuel := fuel
    · omega
    obtain ⟨hkey,hdata⟩ := hgood e (.head _)
    obtain ⟨⟨answer,htab1⟩,henter,hrest⟩ := bind_eq_ok hall
    cases hrest
    obtain ⟨A',hlen,hloop⟩ := importLoop_line hsep hequals hkey hdata henter A
      (replicate zeros 0) 0 size fuel
    rw [if_pos (.inr rfl)] at hloop
    refine ⟨⟨A' ++ 0 :: replicate zeros 0,A'.length,_,[]⟩,?_,rfl,rfl⟩
    rw [replicate_succ,flatMap_singleton]
    exact hloop
  | cons e' es ih =>
    intro e A htab htab' fuel hgood hall hfuel hsize
    obtain _ | fuel := fuel
    · omega
    obtain ⟨hkey,hdata⟩ := hgood e (.head _)
    obtain ⟨⟨answer,htab1⟩,henter,hrest⟩ := bind_eq_ok hall
    obtain ⟨c,S,hS,hc⟩ := exportLine_head (hgood e' (.tail _ (.head _))).1
      (es.flatMap (exportLine sep) ++ replicate (zeros + 1) 0)
    obtain ⟨A',hlen,hloop⟩ := importLoop_line hsep hequals hkey hdata henter A S c size fuel
    rw [flatMap_cons,flatMap_cons,length_append,length_append,exportLine_length sep e'] at hsize
    rw [if_neg (by rw [hlen]; simp only [hc,or_false]; omega)] at hloop
    have hsize' : A'.length + ((e' :: es).flatMap (exportLine sep)).length ≤ size := by
      rw [flatMap_cons,length_append,exportLine_length sep e',hlen]
      omega
    obtain ⟨st,hst,hresult⟩ :=
      ih (fun x hx => hgood x (.tail _ hx)) hrest (Nat.lt_of_succ_lt_succ hfuel) hsize'
    refine ⟨st,?_,hresult⟩
    rw [flatMap_cons,flatMap_cons,append_assoc,append_assoc,
      append_assoc,hS,← append_assoc,hloop]
    rw [flatMap_cons,append_assoc,append_assoc,hS] at hst
    exact hst

end

end

end FuzzingTargets.UBoot.HashTable
