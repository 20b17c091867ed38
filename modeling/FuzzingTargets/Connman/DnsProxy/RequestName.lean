import FuzzingTargets.Connman.DnsProxy.Expansion
import FuzzingTargets.Connman.DnsProxy.ParseRequest

namespace FuzzingTargets.DnsProxy
open Bytes Checked Slices CStrings List

def parseRequestInto (buf name : List UInt8) : Except Refusal (List UInt8 × List UInt8) :=
  parseRequest buf buf.length name

def Stray : Refusal → Prop
  | .overrun _ => True
  | .overflow _ => True
  | _ => False

variable (ls : List Label) (l : Label)

def dotted : List UInt8 := ls.flatMap (· ++ [46])

def shown : List UInt8 := ls.flatMap (cstring · ++ [46])

variable (buf : List UInt8) (size : Nat)

def OptAt (q : Nat) : Prop :=
  At buf q [0,0,0x29] ∧ q + 11 + be16 (buf.getD (q + 9) 0) (buf.getD (q + 10) 0) ≤ buf.length

def Bumped (buf buf' : List UInt8) (q : Nat) : Prop :=
  buf' = buf ∨ OptAt buf q ∧ buf' = (buf.set (q + 3) 0x10).set (q + 4) 0

def RequestParsed (buf name : List UInt8) : Prop :=
  Avoids Stray (parseRequestInto buf name) ∧
    ∀ name' buf', parseRequestInto buf name = .ok (name',buf') →
      ∃ ls, NameValid ls ∧ At buf 12 (wire ls) ∧ dotted ls ++ [0] <+: name' ∧
        Bumped buf buf' (12 + (wire ls).length + 4)

def HeaderRefused : Prop :=
  128 ≤ (buf.getD 2 0).toNat ∨ be16 (buf.getD 4 0) (buf.getD 5 0) ≠ 1

instance (buf : List UInt8) : Decidable (HeaderRefused buf) := inferInstanceAs (Decidable (_ ∨ _))

def Edns0Inside (q : Nat) : Prop :=
  be16 (buf.getD 10 0) (buf.getD 11 0) ≠ 0 → q + 4 ≤ buf.length → At buf q [0,0,0x29] →
    q + 5 ≤ buf.length ∧ (charWord16 (buf.getD (q + 3) 0) (buf.getD (q + 4) 0) < 0x1000 → OptAt buf q)

structure LabelsUntil (ls : List Label) (n : UInt8) : Prop where
  labels : ∀ l ∈ ls, l ≠ [] ∧ l.length < 256
  bytes : At buf 12 (text ls ++ [n])
  used : (text ls).length ≤ size
  room : (shown ls).length < size
  stops : n = 0 ∨ size < (text ls).length + n.toNat + 1

def RequestInside : Prop :=
  12 ≤ buf.length ∧ (HeaderRefused buf ∨ ∃ ls n, LabelsUntil buf size ls n ∧
    (n = 0 → NameValid ls ∧ NulFree ls ∧ Edns0Inside buf (12 + (wire ls).length + 4)))

structure Copied (ls : List Label) (s : Scan) : Prop where
  labels : ∀ l ∈ ls, l ≠ [] ∧ l.length < 256
  bytes : At buf 12 (text ls)
  ptr : s.ptr = 12 + (text ls).length
  inside : s.ptr ≤ buf.length
  remain : s.remain = buf.length - s.ptr
  used : s.used = (text ls).length
  fits : s.used ≤ size
  name : Terminated s.name (shown ls)
  size : s.name.length = size
  unclosed : s.lastLabel = none

def Scan.closed (s : Scan) : Scan := { s with lastLabel := some (s.ptr + 1) }

abbrev Short : Prop := l ≠ [] ∧ l.length < 256

theorem text_append (ls ks : List Label) : text (ls ++ ks) = text ls ++ text ks := by
  induction ls with
  | nil => rfl
  | cons l ls ih => simp only [text,cons_append,ih,append_assoc]

theorem shown_append (ls ks : List Label) : shown (ls ++ ks) = shown ls ++ shown ks :=
  flatMap_append

theorem text_singleton : text [l] = UInt8.ofNat l.length :: l := by
  simp [text]

theorem shown_singleton : shown [l] = cstring l ++ [46] := by
  simp [shown]

theorem length_text_snoc : (text (ls ++ [l])).length = (text ls).length + l.length + 1 := by
  rw [text_append,text_singleton,length_append,length_cons]
  omega

theorem length_shown_snoc :
    (shown (ls ++ [l])).length = (shown ls).length + (cstring l).length + 1 := by
  rw [shown_append,shown_singleton,length_append,length_append,length_singleton]
  omega

section

variable {buf name : List UInt8} {size fuel : Nat} {ls ks : List Label} {l : Label} {s : Scan}
  {n : UInt8}

theorem appendDotted_fits {t label : List UInt8} (h : Terminated name t) (hlabel : 0 ∉ label)
    (hroom : t.length + label.length + 1 < name.length) :
    ∃ out, appendDotted name label = .ok out ∧ Terminated out (t ++ (label ++ [46])) ∧
      out.length = name.length := by
  obtain ⟨mid,hmid,hheld,hlen⟩ := @append_terminated _ Refusal.overflow _ _ _ h hlabel (by omega)
  obtain ⟨out,hout,hdone,hlen'⟩ := @append_terminated _ Refusal.overflow _ _ [46] hheld
    (by decide) (by rw [length_append,length_singleton]; omega)
  rw [append_assoc] at hdone
  exact ⟨out,by rw [appendDotted,hmid,bind_ok,hout],hdone,hlen'.trans hlen⟩

theorem appendDotted_overflows {t label : List UInt8} (h : Terminated name t) (hlabel : 0 ∉ label)
    (hfull : name.length ≤ t.length + label.length + 1) :
    ∃ i, appendDotted name label = .error (.overflow i) := by
  rcases Nat.lt_or_ge (t.length + label.length) name.length with hroom | hroom
  · obtain ⟨mid,hmid,hheld,hlen⟩ := @append_terminated _ Refusal.overflow _ _ _ h hlabel hroom
    obtain ⟨i,hi⟩ := @append_overflows _ Refusal.overflow _ _ [46] hheld
      (by rw [length_append,length_singleton]; omega)
    exact ⟨i,by rw [appendDotted,hmid,bind_ok,hi]⟩
  · obtain ⟨i,hi⟩ := @append_overflows _ Refusal.overflow _ _ _ h hroom
    exact ⟨i,by rw [appendDotted,hi,bind_error]⟩

theorem ofNat_length_toNat (h : Short l) :
    (UInt8.ofNat l.length).toNat = l.length ∧ l.length ≠ 0 := by
  have hpos := length_pos_iff.mpr h.1
  rw [UInt8.toNat_ofNat']
  omega

theorem labelText_at {start : Nat} (h : At buf start l) :
    labelText buf start l.length = .ok (cstring l) := by
  rw [labelText,at_take h]
  exact if_pos (.inl rfl)

theorem appendDotted_stray {label : List UInt8} {e : Refusal}
    (h : appendDotted name label = .error e) : Stray e := by
  have hone : ∀ b src, Avoids (¬Stray ·) (append Refusal.overflow b src) := by
    intro b src e h hstray
    unfold append storeSlice at h
    split_ifs at h
    · cases h
      exact hstray trivial
    · cases h
      exact hstray trivial
  by_contra hstray
  exact avoids_bind.mpr ⟨hone name label,fun mid _ => hone mid [46]⟩ e h hstray

theorem copyLabels_outside (hfuel : 0 < fuel) (hptr : buf.length ≤ s.ptr) (hremain : s.remain ≠ 0) :
    ∃ i, copyLabels buf size fuel s = .error (.overrun i) := by
  obtain _ | fuel := fuel
  · omega
  exact ⟨_,by rw [copyLabels,if_neg hremain,load_fault hptr,bind_error]⟩

variable (h : Copied buf size ls s)
include h

theorem copyLabels_byte (hn : buf[s.ptr]? = some n) :
    copyLabels buf size (fuel + 1) s =
      if n.toNat = 0 then .ok s.closed
      else if size < s.used + n.toNat + 1 then .error .enobufs
      else labelText buf (s.ptr + 1) n.toNat >>= fun label => appendDotted s.name label >>=
        fun name => copyLabels buf size fuel (s.past n.toNat name) := by
  have hinside := (List.getElem?_eq_some_iff.mp hn).1
  have hremain : s.remain ≠ 0 := by
    rw [h.remain]
    omega
  rw [copyLabels,if_neg hremain,load_some hn,bind_ok]
  rfl

theorem copyLabels_overflows (hl : Short l)
    (hat : At buf s.ptr (UInt8.ofNat l.length :: l)) (hused : s.used + l.length + 1 ≤ size)
    (hfull : size ≤ (shown (ls ++ [l])).length) :
    ∃ e, copyLabels buf size (fuel + 1) s = .error e ∧ Stray e := by
  obtain ⟨hbyte,hzero⟩ := ofNat_length_toNat hl
  obtain ⟨hfirst,hlabel⟩ := at_cons.mp hat
  have hshown := length_shown_snoc ls l
  obtain ⟨i,hi⟩ := appendDotted_overflows h.name (cstring_nulFree l) (by rw [h.size]; omega)
  refine ⟨.overflow i,?_,trivial⟩
  rw [copyLabels_byte h hfirst,hbyte,if_neg hzero,if_neg (by omega),labelText_at hlabel,bind_ok,
    hi,bind_error]

variable (hbuf : buf.length < 2 ^ 31)
include hbuf

section

variable (hl : Short l) (hat : At buf s.ptr (UInt8.ofNat l.length :: l))
  (hused : s.used + l.length + 1 ≤ size)
include hl hat hused

theorem copied_label (hname : Terminated name (shown (ls ++ [l]))) (hlen : name.length = size) :
    Copied buf size (ls ++ [l]) (s.past l.length name) := by
  have hend := at_end hat (by simp)
  have hremain := h.remain
  have hptr := h.ptr
  have htext := length_text_snoc ls l
  rw [length_cons] at hend
  refine ⟨?_,?_,?_,?_,?_,?_,hused,hname,hlen,h.unclosed⟩
  · exact forall_mem_append.mpr ⟨h.labels,forall_mem_singleton.mpr hl⟩
  · rw [text_append,text_singleton]
    exact at_append.mpr ⟨h.bytes,hptr ▸ hat⟩
  · simp only [Scan.past,htext]
    omega
  · simp only [Scan.past]
    omega
  · simp only [Scan.past]
    unfold subtract32
    omega
  · simp only [Scan.past,h.used,htext]

theorem copyLabels_label (hroom : (shown (ls ++ [l])).length < size) :
    ∃ s', Copied buf size (ls ++ [l]) s' ∧
      ∀ fuel, copyLabels buf size (fuel + 1) s = copyLabels buf size fuel s' := by
  obtain ⟨hbyte,hzero⟩ := ofNat_length_toNat hl
  obtain ⟨hfirst,hlabel⟩ := at_cons.mp hat
  have hshown := length_shown_snoc ls l
  obtain ⟨out,hout,hheld,hlen⟩ := appendDotted_fits h.name (cstring_nulFree l)
    (by rw [h.size]; omega)
  rw [← shown_singleton,← shown_append] at hheld
  refine ⟨_,copied_label h hbuf hl hat hused hheld (hlen.trans h.size),fun fuel => ?_⟩
  rw [copyLabels_byte h hfirst,hbyte,if_neg hzero,if_neg (by omega),labelText_at hlabel,bind_ok,
    hout,bind_ok]

end

theorem copyLabels_until (hks : LabelsUntil buf size (ls ++ ks) n) (hfuel : ks.length < fuel) :
    (n ≠ 0 → copyLabels buf size fuel s = .error .enobufs) ∧
      (n = 0 → ∃ s', Copied buf size (ls ++ ks) s' ∧
        copyLabels buf size fuel s = .ok s'.closed) := by
  induction ks generalizing ls s fuel with
  | nil =>
    obtain _ | fuel := fuel
    · omega
    rw [append_nil] at hks ⊢
    have hbyte := (at_cons.mp (at_append.mp hks.bytes).2).1
    rw [← h.ptr] at hbyte
    rw [copyLabels_byte h hbyte]
    have hstops := hks.stops
    constructor
    · intro hn
      have hn0 : n.toNat ≠ 0 := fun h0 => hn (UInt8.toNat_inj.mp h0)
      have hsize : size < (text ls).length + n.toNat + 1 := hstops.resolve_left hn
      rw [if_neg hn0,if_pos (by rwa [h.used])]
    · rintro rfl
      exact ⟨s,h,if_pos rfl⟩
  | cons l ks ih =>
    obtain _ | fuel := fuel
    · omega
    rw [append_cons] at hks ⊢
    have hl : Short l := hks.labels l (by simp)
    have hbytes := hks.bytes
    rw [text_append,text_append,text_singleton,append_assoc,append_assoc] at hbytes
    have hat := (at_append.mp (at_append.mp hbytes).2).1
    rw [← h.ptr] at hat
    have hused := hks.used
    rw [text_append,length_append,length_text_snoc,← h.used] at hused
    have hroom := hks.room
    rw [shown_append,length_append] at hroom
    obtain ⟨s',hs',hstep⟩ := copyLabels_label h hbuf hl hat (by omega) (by omega)
    rw [length_cons] at hfuel
    rw [hstep]
    exact ih hs' hks (by omega)

theorem copyLabels_cut (hfuel : 0 < fuel) (hn : buf[s.ptr]? = some n)
    (hzero : n.toNat ≠ 0) (hused : s.used + n.toNat + 1 ≤ size)
    (hcut : buf.length < s.ptr + 1 + n.toNat) :
    ∃ e, copyLabels buf size (fuel + 1) s = .error e ∧ Stray e := by
  have hremain := h.remain
  have hn256 := n.toNat_lt
  rw [copyLabels_byte h hn,if_neg hzero,if_neg (by omega)]
  unfold labelText
  dsimp only
  split
  · rw [bind_ok]
    cases hname : appendDotted s.name (cstring ((buf.drop (s.ptr + 1)).take n.toNat)) with
    | error e => exact ⟨e,rfl,appendDotted_stray hname⟩
    | ok name =>
      have hwrapped : subtract32 s.remain (n.toNat + 1) ≠ 0 := by
        unfold subtract32
        omega
      obtain ⟨i,hi⟩ := @copyLabels_outside buf size fuel (s.past n.toNat name) hfuel
        (by simp only [Scan.past]; omega) hwrapped
      exact ⟨_,hi,trivial⟩
  · exact ⟨_,rfl,trivial⟩

theorem copyLabels_until_of_avoids (hroom : (shown ls).length < size)
    (hfuel : size < s.used + fuel) (hrun : Avoids Stray (copyLabels buf size fuel s))
    (hclosed : ∀ s', copyLabels buf size fuel s = .ok s' → s'.lastLabel ≠ none) :
    ∃ ks n, LabelsUntil buf size (ls ++ ks) n := by
  induction fuel generalizing ls s with
  | zero =>
    have := h.fits
    omega
  | succ fuel ih =>
    rcases Nat.eq_or_lt_of_le h.inside with hend | hinside
    · have hzero : s.remain = 0 := by
        rw [h.remain]
        omega
      exact absurd h.unclosed (hclosed s (by rw [copyLabels,if_pos hzero]))
    have hbyte : buf[s.ptr]? = some buf[s.ptr] := getElem?_eq_getElem hinside
    generalize buf[s.ptr] = n at hbyte
    by_cases hstop : n = 0 ∨ size < s.used + n.toNat + 1
    · rw [h.used] at hstop
      have hat : At buf 12 (text ls ++ [n]) :=
        at_append.mpr ⟨h.bytes,at_cons.mpr ⟨h.ptr ▸ hbyte,at_nil _ _⟩⟩
      refine ⟨[],n,?_⟩
      rw [append_nil]
      exact ⟨h.labels,hat,h.used ▸ h.fits,hroom,hstop⟩
    rw [not_or,Nat.not_lt] at hstop
    obtain ⟨hn,hused⟩ := hstop
    have hn0 : n.toNat ≠ 0 := fun h0 => hn (UInt8.toNat_inj.mp h0)
    have hn256 := n.toNat_lt
    rcases Nat.lt_or_ge buf.length (s.ptr + 1 + n.toNat) with hcut | hwhole
    · obtain ⟨e,he,hstray⟩ := @copyLabels_cut buf size fuel ls s n h hbuf (by omega) hbyte hn0 hused hcut
      exact absurd hstray (hrun e he)
    obtain ⟨l,hlabel,hlen⟩ : ∃ l, At buf (s.ptr + 1) l ∧ l.length = n.toNat := by
      refine ⟨_,at_slice n.toNat,?_⟩
      rw [length_take,length_drop]
      omega
    have hl : Short l := ⟨fun h0 => hn0 (by rw [← hlen,h0]; rfl),by omega⟩
    have hat : At buf s.ptr (UInt8.ofNat l.length :: l) := by
      refine at_cons.mpr ⟨?_,hlabel⟩
      rw [hbyte,hlen,UInt8.ofNat_toNat]
    rw [← hlen] at hused
    rcases Nat.lt_or_ge (shown (ls ++ [l])).length size with hfits | hfull
    · obtain ⟨s',hs',hstep⟩ := copyLabels_label h hbuf hl hat hused hfits
      rw [hstep] at hrun hclosed
      have hused' : s'.used = s.used + l.length + 1 := by
        rw [hs'.used,length_text_snoc,h.used]
      obtain ⟨ks,m,hks⟩ := ih hs' hfits (by omega) hrun hclosed
      rw [append_assoc] at hks
      exact ⟨[l] ++ ks,m,hks⟩
    · obtain ⟨e,he,hstray⟩ := @copyLabels_overflows buf size fuel ls l s h hl hat hused hfull
      exact absurd hstray (hrun e he)

theorem copyLabels_closed {s' : Scan}
    (hks : ∀ l ∈ ks, Short l) (hat : At buf s.ptr (text ks ++ [0]))
    (hrun : copyLabels buf size fuel s = .ok s') : s'.lastLabel ≠ none := by
  induction fuel generalizing ls s ks with
  | zero => cases hrun
  | succ fuel ih =>
    cases ks with
    | nil =>
      rw [copyLabels_byte h (at_cons.mp hat).1,if_pos UInt8.toNat_zero] at hrun
      cases hrun
      exact Option.some_ne_none _
    | cons l ks =>
      have hl := hks l mem_cons_self
      obtain ⟨hbyte,hzero⟩ := ofNat_length_toNat hl
      rw [text,append_assoc] at hat
      obtain ⟨hfirst,hrest⟩ := at_append.mp hat
      rcases Nat.lt_or_ge size (s.used + l.length + 1) with hsize | hused
      · rw [copyLabels_byte h (at_cons.mp hfirst).1,hbyte,if_neg hzero,if_pos hsize] at hrun
        cases hrun
      rcases Nat.lt_or_ge (shown (ls ++ [l])).length size with hfits | hfull
      · obtain ⟨s'',hs'',hstep⟩ := copyLabels_label h hbuf hl hfirst hused hfits
        rw [hstep] at hrun
        refine ih hs'' (forall_mem_cons.mp hks).2 ?_ hrun
        rw [hs''.ptr,length_text_snoc,Nat.add_assoc (text ls).length,← Nat.add_assoc,← h.ptr]
        exact hrest
      · obtain ⟨e,he,-⟩ := @copyLabels_overflows buf size fuel ls l s h hl hfirst hused hfull
        rw [he] at hrun
        cases hrun

end

section

variable {buf : List UInt8} {p q : Nat} {ls ks : List Label}

theorem text_unique (hls : ∀ l ∈ ls, Short l) (hks : ∀ l ∈ ks, Short l)
    (h : At buf p (text ls ++ [0])) (h' : At buf p (text ks ++ [0])) : ls = ks := by
  have hfirst : ∀ {l : Label} {rest : List UInt8} {p : Nat}, Short l → At buf p [0] →
      ¬At buf p (UInt8.ofNat l.length :: rest) := by
    intro l rest p hl hzero hat
    have hbyte := (at_cons.mp hzero).1.symm.trans (at_cons.mp hat).1
    obtain ⟨hlen,hne⟩ := ofNat_length_toNat hl
    rw [← Option.some_inj.mp hbyte] at hlen
    exact hne hlen.symm
  induction ls generalizing ks p with
  | nil =>
    cases ks with
    | nil => rfl
    | cons k ks => exact absurd h' (hfirst (hks k mem_cons_self) h)
  | cons l ls ih =>
    cases ks with
    | nil => exact absurd h (hfirst (hls l mem_cons_self) h')
    | cons k ks =>
      rw [text,append_assoc] at h h'
      obtain ⟨hl,hrest⟩ := at_append.mp h
      obtain ⟨hk,hrest'⟩ := at_append.mp h'
      obtain ⟨hl0,hl1⟩ := at_cons.mp hl
      obtain ⟨hk0,hk1⟩ := at_cons.mp hk
      have hlen : l.length = k.length := by
        rw [← (ofNat_length_toNat (hls l mem_cons_self)).1,
          ← (ofNat_length_toNat (hks k mem_cons_self)).1,Option.some_inj.mp (hl0.symm.trans hk0)]
      have hlk : l = k := by rw [← at_take hl1,← at_take hk1,hlen]
      subst hlk
      rw [ih (forall_mem_cons.mp hls).2
        (forall_mem_cons.mp hks).2 hrest hrest']

theorem dotted_cons (ls : List Label) : dotted (l :: ls) = l ++ 46 :: dotted ls := by
  simp [dotted]

theorem shown_cons (ls : List Label) : shown (l :: ls) = cstring l ++ 46 :: shown ls := by
  simp [shown]

theorem nulFree_iff_shown (ls : List Label) (rest : List UInt8) :
    cstring (dotted ls ++ 0 :: rest) = shown ls ↔ NulFree ls := by
  induction ls with
  | nil => exact ⟨fun _ l hl => absurd hl not_mem_nil,fun _ => rfl⟩
  | cons l ls ih =>
    rw [dotted_cons,shown_cons,append_assoc,cons_append,NulFree,forall_mem_cons]
    by_cases hl : 0 ∈ l
    · rw [cstring_extends _ hl]
      constructor
      · intro h
        have := congrArg List.length h
        rw [length_append,length_cons] at this
        omega
      · exact fun h => absurd hl h.1
    rw [cstring_append_of_nulFree hl,cstring_of_nulFree hl,append_cancel_left_eq]
    have hdot : cstring (46 :: (dotted ls ++ 0 :: rest)) = 46 :: cstring (dotted ls ++ 0 :: rest) :=
      takeWhile_cons_of_pos (by decide)
    rw [hdot,cons_inj_right,ih]
    exact ⟨fun h => ⟨hl,h⟩,fun h => h.2⟩

theorem dotted_held_iff {name : List UInt8} (h : Terminated name (shown ls)) :
    dotted ls ++ [0] <+: name ↔ NulFree ls := by
  constructor
  · rintro ⟨rest,hrest⟩
    rw [append_assoc] at hrest
    rw [← nulFree_iff_shown ls rest,← terminated_cstring h,← hrest]
    rfl
  intro hfree
  have hsame := (nulFree_iff_shown ls []).mpr hfree
  have hdots : 0 ∉ dotted ls := by
    intro hmem
    obtain ⟨l,hl,hmem⟩ := mem_flatMap.mp hmem
    rcases mem_append.mp hmem with hmem | hmem
    · exact hfree l hl hmem
    · exact absurd hmem (by decide)
  rw [cstring_terminated hdots] at hsame
  rw [hsame]
  exact h.content

end

section

variable {buf : List UInt8} {q arcount : Nat} {s : Scan}

theorem charWord16_small_first {hi lo : UInt8} (h : charWord16 hi lo < 0x1000) : hi ≠ 0x10 := by
  rintro rfl
  have := lo.toNat_lt
  unfold charWord16 charWord schar at h
  split_ifs at h <;> simp at h <;> omega

theorem bumpEdns0_iff (hlabel : s.lastLabel = some q) (hremain : s.remain + q = buf.length + 1) :
    Avoids Stray (bumpEdns0 buf arcount s) ∧
        (∀ buf', bumpEdns0 buf arcount s = .ok buf' → Bumped buf buf' (q + 4)) ↔
      (arcount ≠ 0 → q + 4 + 4 ≤ buf.length → At buf (q + 4) [0,0,0x29] → q + 4 + 5 ≤ buf.length ∧
        (charWord16 (buf.getD (q + 4 + 3) 0) (buf.getD (q + 4 + 4) 0) < 0x1000 →
          OptAt buf (q + 4))) := by
  have hkept : Avoids Stray (.ok buf) ∧
      ∀ buf', (.ok buf : Except Refusal _) = .ok buf' → Bumped buf buf' (q + 4) :=
    ⟨avoids_ok _ _,fun buf' h => .inl (Except.ok.inj h).symm⟩
  unfold bumpEdns0
  rw [hlabel]
  dsimp only
  by_cases hskip : arcount = 0 ∨ s.remain < 9
  · rw [if_pos hskip]
    exact ⟨fun _ har hin => by omega,fun _ => hkept⟩
  rw [not_or,Nat.not_lt] at hskip
  obtain ⟨har,hnine⟩ := hskip
  rw [if_neg (by omega),load_ok (by omega),bind_ok,
    load_ok (by omega),bind_ok,
    load_ok (by omega),bind_ok]
  have hopt : At buf (q + 4) [0,0,0x29] ↔
      buf[q + 4] = 0 ∧ buf[q + 5] = 0 ∧ buf[q + 6] = 0x29 := by
    simp only [at_cons,at_nil,and_true,getElem?_eq_some_iff]
    constructor
    · rintro ⟨⟨_,h0⟩,⟨_,h1⟩,⟨_,h2⟩⟩
      exact ⟨h0,h1,h2⟩
    · rintro ⟨h0,h1,h2⟩
      exact ⟨⟨by omega,h0⟩,⟨by omega,h1⟩,⟨by omega,h2⟩⟩
  by_cases hat : At buf (q + 4) [0,0,0x29]
  · rw [if_pos (hopt.mp hat),load_ok (by omega),bind_ok]
    rcases Nat.lt_or_ge (q + 8) buf.length with hin | hout
    · rw [load_ok hin,bind_ok]
      have hhi : buf.getD (q + 4 + 3) 0 = buf[q + 7] := (getElem_eq_getD 0).symm
      have hlo : buf.getD (q + 4 + 4) 0 = buf[q + 8] := (getElem_eq_getD 0).symm
      rw [hhi,hlo]
      split
      · rename_i hsmall
        constructor
        · rintro ⟨-,hbumped⟩ _ _ _
          refine ⟨by omega,fun _ => ?_⟩
          rcases hbumped _ rfl with hsame | hopt
          · have hbyte := congrArg (fun b => b[q + 7]?) hsame
            rw [getElem?_set_ne (by omega),getElem?_set_self (by omega),
              getElem?_eq_getElem (by omega)] at hbyte
            exact absurd (Option.some_inj.mp hbyte).symm (charWord16_small_first hsmall)
          · exact hopt.1
        intro h
        refine ⟨avoids_ok _ _,fun buf' heq => ?_⟩
        cases heq
        exact .inr ⟨(h har (by omega) hat).2 hsmall,rfl⟩
      · rename_i hlarge
        exact ⟨fun _ _ _ _ => ⟨by omega,fun hsmall => absurd hsmall hlarge⟩,fun _ => hkept⟩
    rw [load_fault hout,bind_error]
    constructor
    · intro h
      exact absurd trivial (h.1 _ rfl)
    · intro h
      have := (h har (by omega) hat).1
      omega
  · rw [if_neg fun h => hat (hopt.mpr h)]
    exact ⟨fun _ _ _ hat' => absurd hat' hat,fun _ => hkept⟩

end

section

variable {buf name : List UInt8} {ls : List Label} {s : Scan}

def startScan (buf name : List UInt8) : Scan := ⟨12,buf.length - 12,0,0 :: name.drop 1,none⟩

def arcountOf (buf : List UInt8) : Nat := be16 (buf.getD 10 0) (buf.getD 11 0)

def scanned (buf name : List UInt8) : Except Refusal Scan :=
  copyLabels buf name.length (name.length + 1) (startScan buf name)

theorem startScan_copied (hbuf : 12 ≤ buf.length) (hname : 1 ≤ name.length) :
    Copied buf name.length [] (startScan buf name) where
  labels := by simp
  bytes := at_nil _ _
  ptr := rfl
  inside := hbuf
  remain := rfl
  used := rfl
  fits := Nat.zero_le _
  name := terminated_empty _
  size := by
    rw [startScan,length_cons,length_drop]
    omega
  unclosed := rfl

theorem parseRequestInto_short (h : Avoids Stray (parseRequestInto buf name)) : 12 ≤ buf.length := by
  have hbad : ∀ i, Stray (.overrun i) := fun _ => trivial
  obtain ⟨h4,hrest⟩ := avoids_bind.mp h
  have h4 := (avoids_load hbad).mp h4
  obtain ⟨h5,hrest⟩ := avoids_bind.mp (hrest _ (load_ok h4))
  have h5 := (avoids_load hbad).mp h5
  obtain ⟨h10,hrest⟩ := avoids_bind.mp (hrest _ (load_ok h5))
  have h10 := (avoids_load hbad).mp h10
  obtain ⟨h11,-⟩ := avoids_bind.mp (hrest _ (load_ok h10))
  exact (avoids_load hbad).mp h11

theorem parseRequestInto_header (hbuf : 12 ≤ buf.length) (hname : 1 ≤ name.length) :
    parseRequestInto buf name =
      if HeaderRefused buf then .error .einval
      else scanned buf name >>= fun s =>
        bumpEdns0 buf (arcountOf buf) s >>= fun buf' => .ok (s.name,buf') := by
  have hload : ∀ i, i < 12 → load Refusal.overrun buf i = .ok (buf.getD i 0) := by
    intro i hi
    rw [load_ok (by omega),getElem_eq_getD 0]
  have hstore : storeSlice Refusal.overflow name 0 [0] = .ok (0 :: name.drop 1) :=
    storeSlice_ok (by rw [length_singleton]; omega)
  have hlen : (0 :: name.drop 1).length = name.length := by
    rw [length_cons,length_drop]
    omega
  rw [parseRequestInto,parseRequest,hload 4 (by omega),bind_ok,hload 5 (by omega),bind_ok,
    hload 10 (by omega),bind_ok,hload 11 (by omega),bind_ok,if_neg (by omega),
    hload 2 (by omega),bind_ok,hstore,bind_ok,hlen]
  rfl

theorem labels_of_valid (h : NameValid ls) : ∀ l ∈ ls, Short l := by
  intro l hl
  obtain ⟨hne,hlt⟩ := h l hl
  exact ⟨hne,by omega⟩

theorem labels_count (ls : List Label) : ls.length ≤ (text ls).length := by
  induction ls with
  | nil => exact Nat.le_refl 0
  | cons l ls ih =>
    rw [text,length_append,length_cons,length_cons]
    omega

theorem bumpEdns0_returns {arcount : Nat} (h : Avoids Stray (bumpEdns0 buf arcount s)) :
    ∃ buf', bumpEdns0 buf arcount s = .ok buf' := by
  have hload : ∀ i, Avoids (¬Stray ·) (load Refusal.overrun buf i) :=
    fun i => load_harmless fun _ hstray => hstray trivial
  have hstray : Avoids (¬Stray ·) (bumpEdns0 buf arcount s) := by
    unfold bumpEdns0
    split
    · exact avoids_ok _ _
    split
    · exact avoids_ok _ _
    refine avoids_bind.mpr ⟨hload _,fun root _ => ?_⟩
    refine avoids_bind.mpr ⟨hload _,fun hi _ => ?_⟩
    refine avoids_bind.mpr ⟨hload _,fun lo _ => ?_⟩
    split
    · refine avoids_bind.mpr ⟨hload _,fun sizeHi _ => ?_⟩
      refine avoids_bind.mpr ⟨hload _,fun sizeLo _ => ?_⟩
      split <;> exact avoids_ok _ _
    · exact avoids_ok _ _
  cases hrun : bumpEdns0 buf arcount s with
  | error e => exact absurd (h e hrun) (hstray e hrun)
  | ok buf' => exact ⟨buf',rfl⟩

section

variable (h : Copied buf name.length ls s)
include h

theorem bumpEdns0_inside_iff : Avoids Stray (bumpEdns0 buf (arcountOf buf) s.closed) ∧
        (∀ buf', bumpEdns0 buf (arcountOf buf) s.closed = .ok buf' →
          Bumped buf buf' (12 + (wire ls).length + 4)) ↔
      Edns0Inside buf (12 + (wire ls).length + 4) := by
  have hinside := h.inside
  have hremain := h.remain
  have hq : s.ptr + 1 = 12 + (wire ls).length := by
    rw [h.ptr,wire_eq_text,length_append,length_singleton]
    omega
  exact bumpEdns0_iff (congrArg some hq) (by dsimp only [Scan.closed]; omega)

theorem parsed_question_iff {buf' : List UInt8} (hzero : At buf 12 (text ls ++ [0])) :
    (∃ ks, NameValid ks ∧ At buf 12 (wire ks) ∧ dotted ks ++ [0] <+: s.name ∧
        Bumped buf buf' (12 + (wire ks).length + 4)) ↔
      NameValid ls ∧ NulFree ls ∧ Bumped buf buf' (12 + (wire ls).length + 4) := by
  constructor
  · rintro ⟨ks,hvalid,hat,hdots,hbump⟩
    rw [wire_eq_text] at hat
    obtain rfl := text_unique h.labels (labels_of_valid hvalid) hzero hat
    exact ⟨hvalid,(dotted_held_iff h.name).mp hdots,hbump⟩
  rintro ⟨hvalid,hfree,hbump⟩
  refine ⟨ls,hvalid,?_,(dotted_held_iff h.name).mpr hfree,hbump⟩
  rw [wire_eq_text]
  exact hzero

theorem closed_parsed_iff (hzero : At buf 12 (text ls ++ [0])) (hparse : parseRequestInto buf name =
      (bumpEdns0 buf (arcountOf buf) s.closed >>= fun buf' => .ok (s.name,buf'))) :
    RequestParsed buf name ↔
      NameValid ls ∧ NulFree ls ∧ Edns0Inside buf (12 + (wire ls).length + 4) := by
  unfold RequestParsed
  rw [← bumpEdns0_inside_iff h,hparse]
  constructor
  · rintro ⟨havoid,hparsed⟩
    obtain ⟨hbump,-⟩ := avoids_bind.mp havoid
    have hresult : ∀ buf', bumpEdns0 buf (arcountOf buf) s.closed = .ok buf' →
        NameValid ls ∧ NulFree ls ∧ Bumped buf buf' (12 + (wire ls).length + 4) :=
      fun buf' hbuf' => (parsed_question_iff h hzero).mp
        (hparsed s.name buf' (by rw [hbuf',bind_ok]))
    obtain ⟨out,hout⟩ := bumpEdns0_returns hbump
    obtain ⟨hvalid,hfree,-⟩ := hresult out hout
    exact ⟨hvalid,hfree,hbump,fun buf' hbuf' => (hresult buf' hbuf').2.2⟩
  rintro ⟨hvalid,hfree,hbump,hresult⟩
  refine ⟨avoids_bind.mpr ⟨hbump,fun _ _ => avoids_ok _ _⟩,fun name' buf' hrun => ?_⟩
  obtain ⟨out,hout,hpair⟩ := bind_eq_ok hrun
  cases hpair
  exact (parsed_question_iff h hzero).mpr ⟨hvalid,hfree,hresult _ hout⟩

end

theorem startScan_until {n : UInt8} (hbuf : buf.length < 2 ^ 31) (hlen : 12 ≤ buf.length)
    (hname : 1 ≤ name.length) (hls : LabelsUntil buf name.length ls n) :
    (n ≠ 0 → scanned buf name = .error .enobufs) ∧
      (n = 0 → ∃ s', Copied buf name.length ls s' ∧ scanned buf name = .ok s'.closed) := by
  have hcount := labels_count ls
  have hused := hls.used
  exact copyLabels_until (startScan_copied hlen hname) hbuf hls (by omega)

end

theorem parseRequest_inside_iff {buf name : List UInt8} (hbuf : buf.length < 2 ^ 31)
    (hname : 1 ≤ name.length) :
    RequestParsed buf name ↔ RequestInside buf name.length := by
  by_cases hlen : 12 ≤ buf.length
  · have hparse := parseRequestInto_header hlen hname
    by_cases hheader : HeaderRefused buf
    · rw [if_pos hheader] at hparse
      refine ⟨fun _ => ⟨hlen,.inl hheader⟩,fun _ => ?_⟩
      unfold RequestParsed
      rw [hparse]
      exact ⟨avoids_error.mpr id,nofun⟩
    rw [if_neg hheader] at hparse
    have hstart := startScan_copied hlen hname
    constructor
    · intro hparsed
      have hscan := (avoids_bind.mp (hparse ▸ hparsed.1)).1
      have hclosed : ∀ s', scanned buf name = .ok s' → s'.lastLabel ≠ none := by
        intro s' hs' hnone
        have hsame : bumpEdns0 buf (arcountOf buf) s' = .ok buf := by
          unfold bumpEdns0
          rw [hnone]
        obtain ⟨ks,hvalid,hat,-⟩ := hparsed.2 s'.name buf
          (by rw [hparse,hs',bind_ok,hsame,bind_ok])
        rw [wire_eq_text] at hat
        exact copyLabels_closed hstart hbuf (labels_of_valid hvalid) hat hs' hnone
      obtain ⟨ls,n,hls⟩ := copyLabels_until_of_avoids hstart hbuf hname
        (by omega) hscan hclosed
      refine ⟨hlen,.inr ⟨ls,n,hls,?_⟩⟩
      rintro rfl
      obtain ⟨s,hs,hrun⟩ := (startScan_until hbuf hlen hname hls).2 rfl
      rw [hrun,bind_ok] at hparse
      exact (closed_parsed_iff hs hls.bytes hparse).mp hparsed
    rintro ⟨-,hinside⟩
    obtain ⟨ls,n,hls,hquestion⟩ := hinside.resolve_left hheader
    by_cases hn : n = 0
    · subst hn
      obtain ⟨s,hs,hrun⟩ := (startScan_until hbuf hlen hname hls).2 rfl
      rw [hrun,bind_ok] at hparse
      exact (closed_parsed_iff hs hls.bytes hparse).mpr (hquestion rfl)
    rw [(startScan_until hbuf hlen hname hls).1 hn,bind_error] at hparse
    unfold RequestParsed
    rw [hparse]
    exact ⟨avoids_error.mpr id,nofun⟩
  · exact ⟨fun h => absurd (parseRequestInto_short h.1) hlen,fun h => absurd h.1 hlen⟩

def requestHeader (arcount : UInt8) : List UInt8 := [9,0,1,0,0,1,0,0,0,0,0,arcount]

def ednsRequest : List UInt8 :=
  requestHeader 1 ++ [1,104,0,0,1,0,1,0,0,0x29,2,0,0,0,0,0,0,0]

theorem hostRequest_parsed :
    RequestInside ednsRequest 16 ∧ RequestParsed ednsRequest (List.replicate 16 0) := by
  have hlabels : LabelsUntil ednsRequest 16 [[104]] 0 :=
    ⟨by decide,by decide,by decide,by decide,.inl rfl⟩
  have hopt : OptAt ednsRequest 19 := ⟨by decide,by decide⟩
  have hinside : RequestInside ednsRequest 16 :=
    ⟨by decide,.inr ⟨[[104]],0,hlabels,fun _ => ⟨by simp [NameValid],by decide,
      fun _ _ _ => ⟨by decide,fun _ => hopt⟩⟩⟩⟩
  exact ⟨hinside,(parseRequest_inside_iff (by decide) (by decide)).mpr hinside⟩

theorem requests_escape :
    (parseRequestInto ednsRequest [7,7] = .error (.overflow 2) ∧
        ¬RequestParsed ednsRequest [7,7]) ∧
      (parseRequestInto (requestHeader 0 ++ [5,104]) (List.replicate 16 0) = .error (.overrun 14) ∧
        ¬RequestParsed (requestHeader 0 ++ [5,104]) (List.replicate 16 0)) ∧
      parseRequestInto (requestHeader 0 ++ [1,104]) (List.replicate 4 0) =
        .ok ([104,46,0,0],requestHeader 0 ++ [1,104]) := by
  have hname : parseRequestInto ednsRequest [7,7] = .error (.overflow 2) := by decide +kernel
  have hread : parseRequestInto (requestHeader 0 ++ [5,104]) (List.replicate 16 0) =
      .error (.overrun 14) := by decide +kernel
  refine ⟨⟨hname,fun h => h.1 _ hname trivial⟩,⟨hread,fun h => h.1 _ hread trivial⟩,?_⟩
  decide +kernel

end FuzzingTargets.DnsProxy
