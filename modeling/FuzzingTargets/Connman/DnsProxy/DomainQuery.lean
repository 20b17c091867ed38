import FuzzingTargets.Connman.DnsProxy.RequestName
import FuzzingTargets.Connman.DnsProxy.RequestTable

namespace FuzzingTargets.DnsProxy.DomainQuery
open Bytes Checked Slices List

inductive Fault where
  | request (i : Nat)
  | alt (i : Nat)
  deriving DecidableEq

inductive Status where
  | done
  | einval
  deriving DecidableEq

def altSize : Nat := 1024

def encodeLabels : Nat → List UInt8 → List UInt8
  | 0, _ => []
  | fuel + 1, text =>
    let label := text.takeWhile (· != 46)
    match text.drop label.length with
    | [] => if label = [] then [] else UInt8.ofNat label.length :: label
    | _ :: rest => UInt8.ofNat label.length :: label ++ encodeLabels fuel rest

def encodeText (text : List UInt8) : List UInt8 := encodeLabels (text.length + 1) text

def appendQuery (alt : List UInt8) (pos : Nat) (query domain : List UInt8) :
    Except Fault (List UInt8 × Nat) := do
  let bytes := encodeText query ++ encodeText domain ++ [0]
  let alt ← storeSlice Fault.alt alt pos bytes
  .ok (alt,bytes.length)

def writeLength (server : Protocol) (alt : List UInt8) (n : Nat) : Except Fault (List UInt8) :=
  match server with
  | .udp => .ok alt
  | .tcp => storeSlice Fault.alt alt 0 (lengthBytes n)

def altQuery (server : Protocol) (request name domain : List UInt8) (altid : UInt16)
    (alt : List UInt8) : Except Fault (List UInt8) := do
  let offset := protocolOffset server
  let domlen := domain.length + 1
  let alt ← storeSlice Fault.alt alt offset [altid.toUInt8,(altid >>> 8).toUInt8]
  let header ← loadSlice Fault.request request (offset + 2) 10
  let alt ← storeSlice Fault.alt alt (offset + 2) header
  let alt ← storeSlice Fault.alt alt 4 [0,1]
  let (alt,len) ← appendQuery alt (offset + 12) name domain
  let altlen := len + 12
  if request.length + domlen < altlen + offset then .error (.request request.length)
  else do
    let rest ← loadSlice Fault.request request (offset + altlen - domlen)
      (request.length + domlen - (altlen + offset))
    let alt ← storeSlice Fault.alt alt (offset + altlen) rest
    writeLength server alt (request.length + domlen - 2)

def alternatives (server : Protocol) (request name : List UInt8) (altid : UInt16) :
    List (Option (List UInt8)) → List UInt8 → Except Fault (List (List UInt8) × Status)
  | [], _ => .ok ([],.done)
  | none :: domains, alt => alternatives server request name altid domains alt
  | some domain :: domains, alt =>
    if domain.length + 1 < 5 then .ok ([],.einval)
    else do
      let alt ← altQuery server request name domain altid alt
      let message ← loadSlice Fault.alt alt 0 (request.length + (domain.length + 1))
      let (messages,status) ← alternatives server request name altid domains alt
      .ok (message :: messages,status)

def nsResolvDomains (server : Protocol) (request name : List UInt8) (altid : UInt16)
    (domains : List (Option (List UInt8))) (alt : List UInt8) :
    Except Fault (List (List UInt8) × Status) :=
  match name.findIdx? (· == 46) with
  | some dot =>
    if dot + 1 ≠ name.length then .ok ([],.done)
    else alternatives server request name altid domains alt
  | none => alternatives server request name altid domains alt

def attemptOf : Option (List UInt8) → DomainAttempt
  | none => .missing
  | some domain => if domain.length + 1 < 5 then .tooShort else .accepted

theorem resolveDomains_alternatives {server : Protocol} {request name alt : List UInt8}
    {altid : UInt16} {domains : List (Option (List UInt8))} {messages : List (List UInt8)}
    {status : Status}
    (h : alternatives server request name altid domains alt = .ok (messages,status))
    (req : Request) :
    resolveDomains (domains.map attemptOf) req =
      ({ req with numserv := req.numserv + messages.length },
        if status = .done then 0 else -einval) := by
  induction domains generalizing alt messages status req with
  | nil =>
    cases h
    rfl
  | cons domain domains ih =>
    cases domain with
    | none => exact ih h req
    | some domain =>
      rw [alternatives] at h
      rw [map_cons,attemptOf]
      by_cases hshort : domain.length + 1 < 5
      · rw [if_pos hshort] at h ⊢
        cases h
        rfl
      rw [if_neg hshort] at h ⊢
      obtain ⟨alt',_,h⟩ := bind_eq_ok h
      obtain ⟨message,_,h⟩ := bind_eq_ok h
      obtain ⟨⟨later,status'⟩,hlater,h⟩ := bind_eq_ok h
      cases h
      rw [resolveDomains,ih hlater,length_cons]
      simp only [Nat.add_comm,Nat.add_left_comm]

structure Plain (l : Label) : Prop where
  nonempty : l ≠ []
  short : l.length ≤ nsMaxLabel
  dotFree : 46 ∉ l
  nulFree : 0 ∉ l

def undotted : List Label → List UInt8
  | [] => []
  | [l] => l
  | l :: ls => l ++ 46 :: undotted ls

structure SearchDomain where
  labels : List Label
  trailing : Bool
  plain : ∀ l ∈ labels, Plain l

def SearchDomain.text (d : SearchDomain) : List UInt8 :=
  if d.trailing then dotted d.labels else undotted d.labels

structure ClientQuery where
  id : List UInt8
  flags : List UInt8
  counts : List UInt8
  host : Label
  trailing : Bool
  rest : List UInt8
  idSize : id.length = 2
  flagsSize : flags.length = 2
  countsSize : counts.length = 6
  plain : Plain host

variable (server client : Protocol) (q : ClientQuery)

def ClientQuery.message : List UInt8 :=
  q.id ++ (q.flags ++ ([0,1] ++ (q.counts ++ (wire [q.host] ++ q.rest))))

def framed (p : Protocol) (message : List UInt8) : List UInt8 :=
  match p with
  | .udp => message
  | .tcp => frame message

def ClientQuery.name : List UInt8 :=
  if q.trailing then dotted [q.host] else q.host

def ClientQuery.extended (altid : UInt16) (flags : List UInt8) (d : SearchDomain) : List UInt8 :=
  [altid.toUInt8,(altid >>> 8).toUInt8] ++
    (flags ++ ([0,1] ++ (q.counts ++ (wire (q.host :: d.labels) ++ q.rest))))

def ClientQuery.expected (server : Protocol) (altid : UInt16)
    (d : SearchDomain) : List UInt8 := framed server (q.extended altid q.flags d)

def served : List (Option SearchDomain) → List SearchDomain
  | [] => []
  | none :: ds => served ds
  | some d :: ds => if d.text.length < 4 then [] else d :: served ds

def Appends (altid : UInt16) (ds : List (Option SearchDomain)) (alt : List UInt8) : Prop :=
  ∃ status, nsResolvDomains server (framed client q.message) q.name altid
    (ds.map (Option.map SearchDomain.text)) alt =
      .ok ((served ds).map (q.expected server altid),status)

def Appendable (d : SearchDomain) : Prop :=
  d.trailing = false ∧ server = client ∧ (server = .tcp → q.flags = [0,1])

section

variable {l : Label} {ls : List Label}

theorem undotted_cons (l k : Label) (ks : List Label) :
    undotted (l :: k :: ks) = l ++ 46 :: undotted (k :: ks) := rfl

theorem dotted_eq_undotted (h : ls ≠ []) : dotted ls = undotted ls ++ [46] := by
  induction ls with
  | nil => exact absurd rfl h
  | cons l ls ih =>
    cases ls with
    | nil => simp [dotted,undotted]
    | cons k ks =>
      rw [dotted_cons,ih (cons_ne_nil k ks),undotted_cons,append_assoc,cons_append]

theorem dotted_length (ls : List Label) : (dotted ls).length = (text ls).length := by
  induction ls with
  | nil => rfl
  | cons l ls ih =>
    rw [dotted_cons,text,length_append,length_append,length_cons,length_cons,ih]
    omega

theorem takeWhile_label (h : 46 ∉ l) (rest : List UInt8) :
    (l ++ 46 :: rest).takeWhile (· != 46) = l := by
  have hall : ∀ x ∈ l, (x != 46) = true := fun x hx => bne_iff_ne.mpr fun h0 => h (h0 ▸ hx)
  rw [takeWhile_append_of_pos hall,takeWhile_cons_of_neg (by decide),append_nil]

theorem encodeLabels_label {fuel : Nat} (h : 46 ∉ l) (rest : List UInt8) :
    encodeLabels (fuel + 1) (l ++ 46 :: rest) =
      UInt8.ofNat l.length :: l ++ encodeLabels fuel rest := by
  rw [encodeLabels,takeWhile_label h,drop_left]

theorem encodeLabels_last {fuel : Nat} (h : 46 ∉ l) (hne : l ≠ []) :
    encodeLabels (fuel + 1) l = UInt8.ofNat l.length :: l := by
  have hall : l.takeWhile (· != 46) = l :=
    takeWhile_eq_self_iff.mpr fun x hx => bne_iff_ne.mpr fun h0 => h (h0 ▸ hx)
  rw [encodeLabels,hall,drop_length]
  exact if_neg hne

theorem undotted_length (h : ls ≠ []) : (undotted ls).length + 1 = (text ls).length := by
  rw [← dotted_length,dotted_eq_undotted h,length_append,length_singleton]

section

variable (h : ∀ l ∈ ls, Plain l)
include h

theorem encodeLabels_dotted {fuel : Nat} (hfuel : ls.length < fuel) :
    encodeLabels fuel (dotted ls) = text ls := by
  induction ls generalizing fuel with
  | nil =>
    cases fuel with
    | zero | succ fuel => rfl
  | cons l ls ih =>
    obtain _ | fuel := fuel
    · omega
    rw [length_cons] at hfuel
    rw [dotted_cons,encodeLabels_label (h l mem_cons_self).dotFree,
      ih (forall_mem_cons.mp h).2 (by omega),text]

theorem encodeLabels_undotted {fuel : Nat} (hfuel : ls.length < fuel) :
    encodeLabels fuel (undotted ls) = text ls := by
  induction ls generalizing fuel with
  | nil =>
    cases fuel with
    | zero | succ fuel => rfl
  | cons l ls ih =>
    obtain _ | fuel := fuel
    · omega
    have hl := h l mem_cons_self
    cases ls with
    | nil => rw [undotted,encodeLabels_last hl.dotFree hl.nonempty,text_singleton]
    | cons k ks =>
      have hrest := ih (forall_mem_cons.mp h).2 (Nat.lt_of_succ_lt_succ hfuel)
      rw [undotted_cons,encodeLabels_label hl.dotFree,hrest]
      rfl

theorem labels_le_text : 2 * ls.length ≤ (text ls).length := by
  induction ls with
  | nil => exact Nat.le_refl 0
  | cons l ls ih =>
    have hrest := ih fun k hk => h k (.tail _ hk)
    have hpos := length_pos_iff.mpr (h l mem_cons_self).nonempty
    rw [text,length_append,length_cons,length_cons]
    omega

theorem encodeText_spelled (trailing : Bool) :
    encodeText (if trailing then dotted ls else undotted ls) = text ls := by
  have hcount := labels_le_text h
  cases trailing with
  | true =>
    rw [if_pos rfl]
    exact encodeLabels_dotted h (by rw [dotted_length]; omega)
  | false =>
    rw [if_neg Bool.false_ne_true]
    refine encodeLabels_undotted h ?_
    cases ls with
    | nil => exact Nat.lt_succ_self _
    | cons l ls =>
      rw [undotted_length (cons_ne_nil l ls)]
      rw [length_cons] at hcount ⊢
      omega

end

end

section

variable {p server client : Protocol} {q : ClientQuery} {altid : UInt16} {d : SearchDomain}
  {alt alt' : List UInt8}

theorem name_encoded (q : ClientQuery) : encodeText q.name = text [q.host] := by
  have hplain : ∀ l ∈ [q.host], Plain l := by simpa using q.plain
  exact encodeText_spelled hplain q.trailing

theorem framed_length (p : Protocol) (m : List UInt8) :
    (framed p m).length = protocolOffset p + m.length := by
  cases p with
  | udp => exact (Nat.zero_add _).symm
  | tcp => exact length_append

theorem wire_length (ls : List Label) : (wire ls).length = (text ls).length + 1 := by
  rw [wire_eq_text,length_append,length_singleton]

theorem message_length (q : ClientQuery) :
    q.message.length = 14 + q.host.length + q.rest.length := by
  simp only [ClientQuery.message,length_append,q.idSize,q.flagsSize,q.countsSize,
    wire_length,text_singleton,length_cons,length_nil]
  omega

theorem extended_length {flags : List UInt8} (hflags : flags.length = 2) :
    (q.extended altid flags d).length =
      14 + q.host.length + (text d.labels).length + q.rest.length := by
  simp only [ClientQuery.extended,length_append,hflags,q.countsSize,wire_length,text,
    length_cons,length_nil]
  omega

theorem text_length_cases (h : 4 ≤ d.text.length) :
    (d.trailing = false → d.text.length + 1 = (text d.labels).length) ∧
      (d.trailing = true → d.text.length = (text d.labels).length) := by
  constructor
  · intro htrailing
    rw [SearchDomain.text,htrailing,if_neg Bool.false_ne_true] at h ⊢
    apply undotted_length
    intro hnil
    rw [hnil] at h
    exact absurd h (by decide)
  · intro htrailing
    rw [SearchDomain.text,htrailing,if_pos rfl,dotted_length]

def sentFlags (p : Protocol) (flags : List UInt8) : List UInt8 :=
  match p with
  | .udp => flags
  | .tcp => [0,1]

def head (p : Protocol) (q : ClientQuery) (altid : UInt16) : List UInt8 :=
  idBytes altid ++ (sentFlags p q.flags ++ ([0,1] ++ q.counts))

theorem head_length (p : Protocol) (q : ClientQuery) (altid : UInt16) :
    (head p q altid).length = 12 := by
  cases p <;> simp [head,idBytes,sentFlags,q.flagsSize,q.countsSize]

theorem framed_loads (p : Protocol) {start n : Nat} {m pre mid post : List UInt8}
    (hm : m = pre ++ (mid ++ post)) (hstart : protocolOffset p + pre.length = start)
    (hn : mid.length = n) : loadSlice Fault.request (framed p m) start n = .ok mid := by
  rw [hm]
  cases p with
  | udp => exact loadSlice_middle ((Nat.zero_add _).symm.trans hstart) hn
  | tcp =>
    rw [framed,frame,← append_assoc]
    exact loadSlice_middle (length_append.trans hstart) hn

theorem header_length (q : ClientQuery) : (q.flags ++ ([0,1] ++ q.counts)).length = 10 := by
  simp [q.flagsSize,q.countsSize]

theorem header_loaded (p : Protocol) (q : ClientQuery) :
    loadSlice Fault.request (framed p q.message) (protocolOffset p + 2) 10 =
      .ok (q.flags ++ ([0,1] ++ q.counts)) := by
  have hmessage : q.message =
      q.id ++ ((q.flags ++ ([0,1] ++ q.counts)) ++ (wire [q.host] ++ q.rest)) := by
    simp only [ClientQuery.message,append_assoc]
  exact framed_loads p hmessage (by rw [q.idSize]) (header_length q)

theorem rest_loaded (p : Protocol) (q : ClientQuery) {start n : Nat}
    (hstart : start = protocolOffset p + 14 + q.host.length) (hn : n = q.rest.length) :
    loadSlice Fault.request (framed p q.message) start n = .ok q.rest := by
  have hpre : (q.id ++ (q.flags ++ ([0,1] ++ (q.counts ++ wire [q.host])))).length =
      14 + q.host.length := by
    simp only [length_append,q.idSize,q.flagsSize,q.countsSize,wire_length,
      text_singleton,length_cons,length_nil]
    omega
  refine @framed_loads p _ _ _ _ q.rest [] ?_ (by rw [hpre]; omega) hn.symm
  simp only [ClientQuery.message,append_assoc,append_nil]

section

variable (halt : alt.length = altSize)
include halt

theorem lead_length : (alt.take (protocolOffset p)).length = protocolOffset p := by
  rw [length_take,halt]
  cases p <;> rfl

theorem altQuery_length
    (h : altQuery server (framed client q.message) q.name d.text altid alt = .ok alt') :
    alt'.length = altSize := by
  obtain ⟨a1,h1,h⟩ := bind_eq_ok h
  obtain ⟨header,-,h⟩ := bind_eq_ok h
  obtain ⟨a2,h2,h⟩ := bind_eq_ok h
  obtain ⟨a3,h3,h⟩ := bind_eq_ok h
  obtain ⟨⟨a4,len⟩,h4,h⟩ := bind_eq_ok h
  obtain ⟨a5,h5,hpair⟩ := bind_eq_ok h4
  cases hpair
  dsimp only at h
  split at h
  · cases h
  obtain ⟨rest,-,h⟩ := bind_eq_ok h
  obtain ⟨a6,h6,h⟩ := bind_eq_ok h
  have hlen : a6.length = altSize := by
    rw [storeSlice_length h6,storeSlice_length h5,storeSlice_length h3,storeSlice_length h2,
      storeSlice_length h1,halt]
  cases server with
  | udp =>
    cases h
    exact hlen
  | tcp => rw [storeSlice_length h,hlen]

theorem head_stored :
    ∃ a1 a2 a3, storeSlice Fault.alt alt (protocolOffset p) (idBytes altid) = .ok a1 ∧
      storeSlice Fault.alt a1 (protocolOffset p + 2) (q.flags ++ ([0,1] ++ q.counts)) = .ok a2 ∧
      storeSlice Fault.alt a2 4 [0,1] = .ok a3 ∧
      alt.take (protocolOffset p) ++ head p q altid <+: a3 ∧ a3.length = altSize := by
  have hlead := @lead_length p _ halt
  have hoffset : protocolOffset p ≤ 2 := by cases p <;> decide
  have hid : (idBytes altid).length = 2 := rfl
  have hlen := header_length q
  unfold altSize at *
  obtain ⟨a1,h1,hp1,hl1⟩ := @storeSlice_next _ _ Fault.alt alt _ (idBytes altid) _
    (List.take_prefix _ alt) hlead (by omega)
  obtain ⟨a2,h2,hp2,hl2⟩ := @storeSlice_next _ _ Fault.alt a1 (protocolOffset p + 2)
    (q.flags ++ ([0,1] ++ q.counts)) _ hp1 (by rw [length_append,hlead,hid]) (by omega)
  cases p with
  | udp =>
    obtain ⟨a3,h3,hp3,hl3⟩ := @storeSlice_over _ _ Fault.alt a2 4 [0,1]
      (idBytes altid ++ q.flags) [0,1] q.counts (by simpa [protocolOffset] using hp2)
      (by rw [length_append,q.flagsSize,hid]) rfl
    refine ⟨a1,a2,a3,h1,h2,h3,?_,by omega⟩
    simpa [protocolOffset,head,sentFlags] using hp3
  | tcp =>
    obtain ⟨a3,h3,hp3,hl3⟩ := @storeSlice_over _ _ Fault.alt a2 4 [0,1]
      (alt.take 2 ++ idBytes altid) q.flags ([0,1] ++ q.counts) hp2
      (by rw [length_append,hid]; exact congrArg (· + 2) hlead) q.flagsSize
    refine ⟨a1,a2,a3,h1,h2,h3,?_,by omega⟩
    rw [append_assoc] at hp3
    exact hp3

theorem length_written {out : List UInt8} (hout : alt.take (protocolOffset p) ++ out <+: alt')
    (hsize : alt'.length = altSize) :
    ∃ alt'', writeLength p alt' (protocolOffset p + out.length - 2) = .ok alt'' ∧
      framed p out <+: alt'' ∧ alt''.length = altSize := by
  cases p with
  | udp => exact ⟨alt',rfl,hout,hsize⟩
  | tcp =>
    obtain ⟨alt'',hstore, hprefix,hlen⟩ := @storeSlice_over _ _ Fault.alt alt' 0
      (lengthBytes out.length) [] (alt.take 2) out hout rfl (@lead_length .tcp _ halt)
    refine ⟨alt'',?_, hprefix,hlen.trans hsize⟩
    rw [writeLength,protocolOffset,Nat.add_sub_cancel_left]
    exact hstore

theorem altQuery_plain (hlong : 4 ≤ d.text.length) (hplain : d.trailing = false)
    (hfit : (q.expected p altid d).length ≤ altSize) :
    ∃ alt', altQuery p (framed p q.message) q.name d.text altid alt = .ok alt' ∧
      framed p (q.extended altid (sentFlags p q.flags) d) <+: alt' ∧ alt'.length = altSize := by
  have htext := (text_length_cases hlong).1 hplain
  have hflags : (sentFlags p q.flags).length = 2 := by
    cases p with
    | udp => exact q.flagsSize
    | tcp => rfl
  have hrequest : (framed p q.message).length =
      protocolOffset p + (14 + q.host.length + q.rest.length) := by
    rw [framed_length,message_length]
  rw [ClientQuery.expected,framed_length,extended_length q.flagsSize] at hfit
  have hquery : (text [q.host] ++ text d.labels ++ [0]).length =
      q.host.length + 2 + (text d.labels).length := by
    simp only [length_append,text_singleton,length_cons,length_nil]
    omega
  have hlead := @lead_length p _ halt
  obtain ⟨a1,a2,a3,h1,h2,h3,hp3,hl3⟩ := @head_stored p q altid alt halt
  have hpre3 : (alt.take (protocolOffset p) ++ head p q altid).length = protocolOffset p + 12 := by
    rw [length_append,hlead,head_length]
  obtain ⟨a4,h4,hp4,hl4⟩ := @storeSlice_next _ _ Fault.alt a3 _
    (text [q.host] ++ text d.labels ++ [0]) _ hp3 hpre3 (by omega)
  have hpre4 : (alt.take (protocolOffset p) ++ head p q altid ++
      (text [q.host] ++ text d.labels ++ [0])).length =
      protocolOffset p + ((text [q.host] ++ text d.labels ++ [0]).length + 12) := by
    rw [length_append,hpre3]
    omega
  obtain ⟨a5,h5,hp5,hl5⟩ := @storeSlice_next _ _ Fault.alt a4 _ q.rest _ hp4 hpre4 (by omega)
  have hout : head p q altid ++ (text [q.host] ++ text d.labels ++ [0]) ++ q.rest =
      q.extended altid (sentFlags p q.flags) d := by
    simp only [head,idBytes,ClientQuery.extended,wire_eq_text,text,append_assoc,append_nil]
  have hp5' : alt.take (protocolOffset p) ++ q.extended altid (sentFlags p q.flags) d <+: a5 := by
    rw [← hout]
    simpa only [append_assoc] using hp5
  obtain ⟨alt',h6,hp6,hl6⟩ := length_written halt hp5' (by omega)
  refine ⟨alt',?_,hp6,hl6⟩
  rw [extended_length hflags] at h6
  have hid : storeSlice Fault.alt alt (protocolOffset p)
      [altid.toUInt8,(altid >>> 8).toUInt8] = .ok a1 := h1
  have happend : appendQuery a3 (protocolOffset p + 12) q.name d.text =
      .ok (a4,(text [q.host] ++ text d.labels ++ [0]).length) := by
    rw [appendQuery,name_encoded,SearchDomain.text,encodeText_spelled d.plain,h4,bind_ok]
  rw [altQuery]
  rw [hid,bind_ok,header_loaded,bind_ok,h2,bind_ok,h3,bind_ok,happend,bind_ok]
  dsimp only
  rw [if_neg (by omega),rest_loaded p q (by omega) (by omega),bind_ok,h5,bind_ok,hrequest,
    htext,← h6]
  congr 1
  omega

end

theorem sent_length {m : List UInt8}
    (hm : loadSlice Fault.alt alt' 0 ((framed client q.message).length + (d.text.length + 1)) = .ok m) :
    m.length = protocolOffset client + (14 + q.host.length + q.rest.length) + (d.text.length + 1) := by
  obtain ⟨hfit,rfl⟩ := loadSlice_eq_ok hm
  rw [Nat.zero_add] at hfit
  rw [drop_zero,length_take,Nat.min_eq_left hfit,framed_length,message_length]

theorem expected_length (q : ClientQuery) (server : Protocol) (altid : UInt16) (d : SearchDomain) :
    (q.expected server altid d).length =
      protocolOffset server + (14 + q.host.length + (text d.labels).length + q.rest.length) := by
  rw [ClientQuery.expected,framed_length,extended_length q.flagsSize]

theorem extended_inj {flags : List UInt8}
    (h : framed .tcp (q.extended altid [0,1] d) = framed .tcp (q.extended altid flags d))
    (hflags : flags.length = 2) : flags = [0,1] := by
  have hsize : (q.extended altid [0,1] d).length = (q.extended altid flags d).length := by
    rw [extended_length rfl,extended_length hflags]
  rw [framed,framed,frame,frame,hsize,append_cancel_left_eq] at h
  rw [ClientQuery.extended,ClientQuery.extended,append_cancel_left_eq] at h
  exact (append_inj h hflags.symm).1.symm

section

variable (halt : alt.length = altSize) (hlong : 4 ≤ d.text.length)
  (hfit : (q.expected server altid d).length ≤ altSize)
include halt hlong hfit

theorem appendable_of_sent
    (hrun : altQuery server (framed client q.message) q.name d.text altid alt = .ok alt')
    (hm : loadSlice Fault.alt alt' 0 ((framed client q.message).length + (d.text.length + 1)) =
      .ok (q.expected server altid d)) : Appendable server client q d := by
  have hlen := sent_length hm
  rw [expected_length] at hlen
  obtain ⟨hplainText,hdottedText⟩ := text_length_cases hlong
  have hplain : d.trailing = false := by
    by_contra htrailing
    have hlen' := hdottedText (Bool.eq_true_of_not_eq_false htrailing)
    cases server <;> cases client <;> simp only [protocolOffset] at hlen <;> omega
  have hsame : server = client := by
    have hlen' := hplainText hplain
    cases server <;> cases client <;> first | rfl | (simp only [protocolOffset] at hlen; omega)
  refine ⟨hplain,hsame,fun htcp => ?_⟩
  subst hsame htcp
  obtain ⟨out,hout, hprefix,-⟩ := altQuery_plain halt hlong hplain hfit
  obtain rfl : out = alt' := Except.ok.inj (hout.symm.trans hrun)
  obtain ⟨-,hexpected⟩ := loadSlice_eq_ok hm
  have hother : q.expected .tcp altid d <+: out := by
    rw [hexpected]
    exact take_prefix _ _
  have hsize : (framed .tcp (q.extended altid [0,1] d)).length = (q.expected .tcp altid d).length := by
    rw [framed_length,extended_length rfl,expected_length]
  have hequal := (prefix_of_prefix_length_le hprefix hother hsize.le).eq_of_length hsize
  exact extended_inj hequal q.flagsSize

theorem sent_of_appendable (h : Appendable server client q d) :
    ∃ alt', altQuery server (framed client q.message) q.name d.text altid alt = .ok alt' ∧
      loadSlice Fault.alt alt' 0 ((framed client q.message).length + (d.text.length + 1)) =
        .ok (q.expected server altid d) ∧ alt'.length = altSize := by
  obtain ⟨hplain,rfl,hflags⟩ := h
  obtain ⟨alt',hrun, hprefix,hlen⟩ := altQuery_plain halt hlong hplain hfit
  have hsent : sentFlags server q.flags = q.flags := by
    cases server with
    | udp => rfl
    | tcp => exact (hflags rfl).symm
  rw [hsent] at hprefix
  obtain ⟨rest,hrest⟩ := hprefix
  refine ⟨alt',hrun,?_,hlen⟩
  rw [← hrest]
  refine @loadSlice_middle _ _ Fault.alt 0 _ (q.expected server altid d) [] rest rfl ?_
  rw [expected_length,framed_length,message_length,(text_length_cases hlong).1 hplain]
  omega

end

theorem alternatives_iff {ds : List (Option SearchDomain)} (halt : alt.length = altSize)
    (hfit : ∀ d ∈ served ds, (q.expected server altid d).length ≤ altSize) :
    (∃ status, alternatives server (framed client q.message) q.name altid
        (ds.map (Option.map SearchDomain.text)) alt =
          .ok ((served ds).map (q.expected server altid),status)) ↔
      ∀ d ∈ served ds, Appendable server client q d := by
  induction ds generalizing alt with
  | nil => exact ⟨fun _ d hd => absurd hd not_mem_nil,fun _ => ⟨.done,rfl⟩⟩
  | cons d ds ih =>
    cases d with
    | none => exact ih halt hfit
    | some d =>
      rw [map_cons,Option.map_some,alternatives]
      unfold served at hfit ⊢
      by_cases hshort : d.text.length < 4
      · rw [if_pos hshort,if_pos (by omega)]
        exact ⟨fun _ d hd => absurd hd not_mem_nil,fun _ => ⟨.einval,rfl⟩⟩
      rw [if_neg hshort] at hfit ⊢
      rw [if_neg (by omega),map_cons,forall_mem_cons]
      have hlong : 4 ≤ d.text.length := by omega
      have hfirst := hfit d mem_cons_self
      have hrest := fun k hk => hfit k (.tail _ hk)
      constructor
      · rintro ⟨status,hrun⟩
        obtain ⟨alt',hquery,hrun⟩ := bind_eq_ok hrun
        obtain ⟨m,hm,hrun⟩ := bind_eq_ok hrun
        obtain ⟨⟨ms,status'⟩,hlater,hrun⟩ := bind_eq_ok hrun
        cases hrun
        exact ⟨appendable_of_sent halt hlong hfirst hquery hm,
          (ih (altQuery_length halt hquery) hrest).mp ⟨status,hlater⟩⟩
      rintro ⟨hd,hds⟩
      obtain ⟨alt',hquery,hm,hlen⟩ := sent_of_appendable halt hlong hfirst hd
      obtain ⟨status,hlater⟩ := (ih hlen hrest).mpr hds
      exact ⟨status,by rw [hquery,bind_ok,hm,bind_ok,hlater,bind_ok]⟩

theorem name_dot {dot : Nat} (h : q.name.findIdx? (· == 46) = some dot) :
    dot + 1 = q.name.length := by
  have hnone : q.host.findIdx? (· == 46) = none :=
    findIdx?_eq_none_iff.mpr fun x hx => beq_false_of_ne fun h0 => q.plain.dotFree (h0 ▸ hx)
  unfold ClientQuery.name at h ⊢
  cases htrailing : q.trailing with
  | true =>
    simp only [htrailing,if_true,dotted,flatMap_singleton,findIdx?_append,hnone] at h ⊢
    simpa using h.symm
  | false =>
    rw [htrailing,if_neg Bool.false_ne_true,hnone] at h
    cases h

theorem nsResolvDomains_single (domains : List (Option (List UInt8))) (request : List UInt8) :
    nsResolvDomains server request q.name altid domains alt =
      alternatives server request q.name altid domains alt := by
  unfold nsResolvDomains
  split
  · rename_i dot hdot
    exact if_neg (not_not.mpr (name_dot hdot))
  · rfl

end

theorem nsResolv_appends_iff {server client : Protocol} {q : ClientQuery} {altid : UInt16}
    {ds : List (Option SearchDomain)} {alt : List UInt8} (halt : alt.length = altSize)
    (hfit : ∀ d ∈ served ds, (q.expected server altid d).length ≤ altSize) :
    Appends server client q altid ds alt ↔ ∀ d ∈ served ds, Appendable server client q d := by
  unfold Appends
  rw [nsResolvDomains_single]
  exact alternatives_iff halt hfit

def hostQuery : ClientQuery where
  id := [9,0]
  flags := [1,0]
  counts := replicate 6 0
  host := [104]
  trailing := true
  rest := [0,1,0,1]
  idSize := rfl
  flagsSize := rfl
  countsSize := rfl
  plain := ⟨by decide,by decide,by decide,by decide⟩

def homeDomain : SearchDomain where
  labels := [[104,111,109,101]]
  trailing := false
  plain := forall_mem_singleton.mpr ⟨by decide,by decide,by decide,by decide⟩

def blankAlt : List UInt8 := replicate altSize 0

theorem blankAlt_length : blankAlt.length = altSize := length_replicate

theorem hostQuery_appended :
    served [some homeDomain] = [homeDomain] ∧
      Appends .udp .udp hostQuery 0x1234 [some homeDomain] blankAlt := by
  refine ⟨rfl,(nsResolv_appends_iff blankAlt_length ?_).mpr ?_⟩
  · exact forall_mem_singleton.mpr (by decide)
  · exact forall_mem_singleton.mpr ⟨rfl,rfl,nofun⟩

theorem tcpFlags_overwritten :
    (nsResolvDomains .tcp (framed .tcp hostQuery.message) hostQuery.name 0x1234
        [some homeDomain.text] blankAlt).toOption =
      some ([[0,24,0x34,0x12,0,1,0,1,0,0,0,0,0,0,1,104,4,104,111,109,101,0,
        0,1,0,1]],.done) ∧
    hostQuery.expected .tcp 0x1234 homeDomain =
      [0,24,0x34,0x12,1,0,0,1,0,0,0,0,0,0,1,104,4,104,111,109,101,0,
        0,1,0,1] ∧
    ¬Appends .tcp .tcp hostQuery 0x1234 [some homeDomain] blankAlt := by
  refine ⟨by decide +kernel,by decide,?_⟩
  rintro ⟨status,h⟩
  have hfits : ∀ d ∈ served [some homeDomain],
      (hostQuery.expected .tcp 0x1234 d).length ≤ altSize :=
    forall_mem_singleton.mpr (by decide)
  have happendable := (alternatives_iff blankAlt_length hfits).mp ⟨status,h⟩ homeDomain
    mem_cons_self
  exact absurd (happendable.2.2 rfl) (by decide)

end FuzzingTargets.DnsProxy.DomainQuery
