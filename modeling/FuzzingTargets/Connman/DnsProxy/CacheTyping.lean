import FuzzingTargets.Connman.DnsProxy.Cache

namespace FuzzingTargets.DnsProxy.Cache
open Bytes Checked Runs List

variable {response bs : List UInt8}

def recordTypes : Nat → List UInt8 → Option (List Nat)
  | 0, [] => some []
  | 0, _ :: _ => none
  | n + 1, bs =>
    let rest := bs.drop (dnsNameLength bs)
    if rest.length < 10 + readRdlen rest then none
    else (recordTypes n (rest.drop (10 + readRdlen rest))).map ((readHead rest).type :: ·)

def CacheData.question (d : CacheData) : List UInt8 := cstring (d.data.drop 14)

def CacheData.body (d : CacheData) : List UInt8 := d.data.drop (14 + d.question.length + 1)

def CacheData.queryType (d : CacheData) : Nat := be16 (d.body.getD 0 0) (d.body.getD 1 0)

def CacheData.answerTypes (d : CacheData) : Option (List Nat) :=
  recordTypes d.answers (d.body.drop 4)

def CacheData.Typed (t : Nat) (d : CacheData) : Prop :=
  d.positive = true →
    d.type = t ∧ d.queryType = d.asked ∧ d.answerTypes = some (replicate d.answers t)

instance (t : Nat) (d : CacheData) : Decidable (d.Typed t) := by
  unfold CacheData.Typed
  infer_instance

def CacheEntry.Typed (e : CacheEntry) : Prop :=
  (∀ d ∈ e.ipv4, d.Typed 1) ∧ ∀ d ∈ e.ipv6, d.Typed 28

def State.Typed (s : State) : Prop := ∀ e ∈ s.entries, e.Typed

variable (pkt : List UInt8) (p : Nat)

def ownerEnd : Nat :=
  if compressed (pkt.getD p 0) then p + 2 else p + (pkt.getD p 0).toNat + 1

def namesRoot (pkt : List UInt8) : Nat → Nat → Bool
  | 0, _ => false
  | hops + 1, p =>
    if pkt.getD p 0 = 0 then true
    else if compressed (pkt.getD p 0) then
      namesRoot pkt hops (pointerOffset (pkt.getD p 0) (pkt.getD (p + 1) 0))
    else false

structure Answer where
  type : Nat
  root : Bool
  deriving DecidableEq

def answerAt : Answer :=
  ⟨(readHead (pkt.drop (ownerEnd pkt p))).type,namesRoot pkt 11 p⟩

def answerEnd : Nat :=
  ownerEnd pkt p + 10 + readRdlen (pkt.drop (ownerEnd pkt p))

def headAt : Head := readHead (pkt.drop (ownerEnd pkt p))

def answerStarts (pkt : List UInt8) : Nat → Nat → List Nat
  | 0, _ => []
  | n + 1, p => p :: answerStarts pkt n (answerEnd pkt p)

def answerSection (pkt : List UInt8) : Nat → Nat → List Answer
  | 0, _ => []
  | n + 1, p => answerAt pkt p :: answerSection pkt n (answerEnd pkt p)

def Reply.question (m : Reply) : List UInt8 := (cstring (m.pkt.drop 12)).take nsMaxDname

def Reply.queryType (m : Reply) : Nat :=
  be16 (m.pkt.getD (12 + m.question.length + 1) 0) (m.pkt.getD (12 + m.question.length + 2) 0)

def Reply.answers (m : Reply) : List Answer :=
  answerSection m.pkt (be16 (m.pkt.getD 6 0) (m.pkt.getD 7 0)) (12 + m.question.length + 1 + 4)

def Reply.answerStarts (m : Reply) : List Nat :=
  Cache.answerStarts m.pkt (be16 (m.pkt.getD 6 0) (m.pkt.getD 7 0)) (12 + m.question.length + 1 + 4)

def Uniform (m : Reply) : Prop :=
  ∀ a ∈ m.answers, a.type = m.queryType →
    a.root = false ∧ ∀ z ∈ m.answers.getLast?, z.type = m.queryType

instance (m : Reply) : Decidable (Uniform m) := by
  unfold Uniform
  infer_instance

def Admits (_ : State) : Event → Prop
  | .update _ _ m => Uniform m
  | _ => True

section

variable {pkt : List UInt8} {max outputMax fuel counter p : Nat} {s s' : NameScan}
  {err : Option Errno}

theorem getName_terminates (hfuel : (11 - counter) * (max + 2) + (max + 1 - p) < fuel) :
    Avoids (· = .stuck) (getName pkt max outputMax fuel counter p s) := by
  induction fuel generalizing counter p s with
  | zero => omega
  | succ fuel ih =>
    unfold getName
    split
    · exact avoids_ok _ _
    have hmul : (11 - counter) * (max + 2) = (11 - (counter + 1)) * (max + 2) + (max + 2) := by
      rw [show 11 - counter = 11 - (counter + 1) + 1 by omega,Nat.succ_mul]
    refine avoids_bind.mpr ⟨load_harmless fun _ => by simp,fun b _ => ?_⟩
    split
    · exact avoids_ok _ _
    split
    · refine avoids_bind.mpr ⟨load_harmless fun _ => by simp,fun lo _ => ?_⟩
      split
      · exact avoids_ok _ _
      · exact ih (by omega)
    split
    · exact avoids_ok _ _
    split
    · exact avoids_ok _ _
    refine avoids_bind.mpr ⟨loadSlice_harmless fun _ => by simp,fun label _ => ?_⟩
    refine avoids_bind.mpr ⟨storeSlice_harmless fun _ => by simp,fun name _ => ?_⟩
    dsimp only
    split
    · exact avoids_ok _ _
    · exact ih (by omega)

theorem getName_spec (h : getName pkt max outputMax fuel counter p s = .ok (err,s')) :
    (s'.next = s.next ∨ s'.next = some (s.next.getD (ownerEnd pkt p))) ∧
      (err = none → s'.outputLen = 2 ∨
        s'.outputLen = s.outputLen ∧ namesRoot pkt (11 - counter) p = true) := by
  induction fuel generalizing counter p s with
  | zero => cases h
  | succ fuel ih =>
    unfold getName at h
    split at h
    · cases h
      exact ⟨.inl rfl,fun h => by cases h⟩
    obtain ⟨b,hb,h⟩ := bind_eq_ok h
    have hbyte : pkt.getD p 0 = b := getD_of_load hb
    rw [show 11 - counter = 11 - (counter + 1) + 1 by omega,namesRoot,ownerEnd,hbyte]
    split at h
    · cases h
      exact ⟨.inl rfl,fun _ => .inr ⟨rfl,by simp [*]⟩⟩
    rename_i hb0
    rw [if_neg hb0]
    split at h
    · rename_i hcomp
      obtain ⟨lo,hlo,h⟩ := bind_eq_ok h
      rw [if_pos hcomp,if_pos hcomp,getD_of_load hlo]
      split at h
      · cases h
        exact ⟨.inl rfl,fun h => by cases h⟩
      · obtain ⟨hnext,hroot⟩ := ih h
        refine ⟨.inr ?_,hroot⟩
        rcases hnext with hnext | hnext <;> exact hnext
    rename_i hcomp
    rw [if_neg hcomp,if_neg hcomp]
    split at h
    · cases h
      exact ⟨.inl rfl,fun h => by cases h⟩
    split at h
    · cases h
      exact ⟨.inl rfl,fun h => by cases h⟩
    obtain ⟨label,-,h⟩ := bind_eq_ok h
    obtain ⟨name,-,h⟩ := bind_eq_ok h
    dsimp only at h
    split at h
    · cases h
      exact ⟨.inr rfl,fun h => by cases h⟩
    obtain ⟨hnext,hlen⟩ := ih h
    refine ⟨.inr ?_,fun he => ?_⟩
    · rcases hnext with hnext | hnext <;> exact hnext
    · rcases hlen he with hlen | ⟨hlen,-⟩ <;> exact .inl hlen

end

structure StoredRr where
  fixed : List UInt8
  rdata : List UInt8
  size : fixed.length = 10
  rdlen : readRdlen fixed = rdata.length

def StoredRr.bytes (r : StoredRr) : List UInt8 := [0xC0,0x0C] ++ r.fixed ++ r.rdata

def StoredRr.head (r : StoredRr) : Head := readHead r.fixed

structure Keeps (P : Head → Prop) (response : List UInt8) (answers : Nat) (rs : List StoredRr) :
    Prop where
  bytes : response = (rs.map StoredRr.bytes).flatten
  count : answers = rs.length
  heads : ∀ r ∈ rs, P r.head

variable {rs : List StoredRr} {P : Head → Prop}

theorem keeps_snoc {answers : Nat}
    (h : Keeps P response answers rs) {r : StoredRr} (hr : P r.head) :
    Keeps P (response ++ r.bytes) (answers + 1) (rs ++ [r]) := by
  refine ⟨?_,?_,?_⟩
  · rw [h.bytes,map_append,flatten_append]
    simp
  · rw [h.count,length_append]
    rfl
  intro x hx
  rcases mem_append.mp hx with hx | hx
  · exact h.heads x hx
  · rw [mem_singleton.mp hx]
    exact hr

theorem readHead_take : readHead (bs.take 10) = readHead bs := by
  simp [readHead,be32,getD_eq_getElem?_getD]

theorem readRdlen_take : readRdlen (bs.take 10) = readRdlen bs := by
  simp [readRdlen,getD_eq_getElem?_getD]

section

variable (r : StoredRr) (rest : List UInt8)

theorem stored_name : dnsNameLength (r.bytes ++ rest) = 2 := by
  simp [dnsNameLength,StoredRr.bytes,compressed]

theorem stored_drop_name : (r.bytes ++ rest).drop 2 = r.fixed ++ (r.rdata ++ rest) := by
  simp [StoredRr.bytes]

theorem stored_rdlen : readRdlen (r.fixed ++ (r.rdata ++ rest)) = r.rdata.length := by
  rw [← readRdlen_take,← r.size,take_left,r.rdlen]

theorem stored_head : readHead (r.fixed ++ (r.rdata ++ rest)) = r.head := by
  rw [← readHead_take,← r.size,take_left]
  rfl

theorem stored_rest : (r.fixed ++ (r.rdata ++ rest)).drop (10 + r.rdata.length) = rest := by
  rw [← drop_drop,← r.size,drop_left,drop_left]

theorem stored_fits : 10 + r.rdata.length ≤ (r.fixed ++ (r.rdata ++ rest)).length := by
  simp only [length_append,r.size]
  omega

end

theorem recordTypes_bytes (rs : List StoredRr) :
    recordTypes rs.length (rs.map StoredRr.bytes).flatten = some (rs.map fun r => r.head.type) := by
  induction rs with
  | nil => rfl
  | cons r rs ih =>
    rw [map_cons,flatten_cons,length_cons,recordTypes,stored_name,stored_drop_name,
      stored_rdlen,stored_head,if_neg (Nat.not_lt.mpr (stored_fits r _)),stored_rest,ih]
    rfl

theorem keeps_recordTypes {t answers : Nat}
    (h : Keeps (fun head => head.type = t) response answers rs) :
    recordTypes answers response = some (replicate answers t) := by
  rw [h.bytes,h.count,recordTypes_bytes]
  congr 1
  exact eq_replicate_of_mem (by simpa using h.heads) |>.trans (by rw [length_map])

section

variable {pkt : List UInt8} {buflen start maxlen n : Nat} {q : Question} {a a' : Answers}

theorem parseRr_spec {head : Head} {name : List UInt8} {rr : RrScan}
    (h : parseRr pkt buflen start head name = .ok rr) (herr : rr.err = none) :
    rr.head = headAt pkt start ∧ rr.next = answerEnd pkt start ∧
      ((answerAt pkt start).root = false → ∃ r : StoredRr, rr.rsp = r.bytes ∧
        r.head = rr.head) := by
  obtain ⟨⟨err,s⟩,hname,h⟩ := bind_eq_ok h
  obtain ⟨hnext,hlen⟩ := getName_spec hname
  dsimp only at h
  split at h
  · cases h
    cases herr
  · cases h
    cases herr
  rename_i rr' hrr
  obtain rfl : rr' = ownerEnd pkt start := by
    simpa [hrr,emptyScan] using hnext
  obtain ⟨fixed,hfixed,h⟩ := bind_eq_ok h
  obtain ⟨hfit,rfl⟩ := loadSlice_eq_ok hfixed
  split at h
  · cases h
    cases herr
  split at h
  · cases h
    cases herr
  obtain ⟨rdata,hrdata,h⟩ := bind_eq_ok h
  obtain ⟨hfit',rfl⟩ := loadSlice_eq_ok hrdata
  cases h
  rw [readHead_take,readRdlen_take] at *
  refine ⟨rfl,rfl,fun hroot => ?_⟩
  have hout : s.outputLen = 2 := by
    rcases hlen rfl with h | ⟨-,h⟩
    · exact h
    · exact Bool.noConfusion (hroot.symm.trans h)
  refine ⟨⟨(pkt.drop (ownerEnd pkt start)).take 10,(pkt.drop (ownerEnd pkt start + 10)).take
    (readRdlen (pkt.drop (ownerEnd pkt start))),?_,?_⟩,?_,?_⟩
  · rw [length_take,length_drop]
    omega
  · rw [readRdlen_take,length_take,length_drop]
    omega
  · rw [hout]
    rfl
  · exact readHead_take

inductive Kept (q : Question) (a : Answers) (rr : RrScan) (b : Answers) : Prop
  | skipped (err : b.err = a.err) (response : b.response = a.response) (count : b.answers = a.answers)
  | added (type : rr.head.type = q.qtype) (response : b.response = a.response ++ rr.rsp)
      (count : b.answers = (a.answers + 1) % 65536)

theorem parseAnswers_step (h : parseAnswers pkt buflen q maxlen (n + 1) a = .ok a')
    (herr : a'.err = none) :
    ∃ rr b, parseRr pkt buflen a.ptr a.head a.name = .ok rr ∧ rr.err = none ∧
      parseAnswers pkt buflen q maxlen n b = .ok a' ∧ b.ptr = rr.next ∧ b.head = rr.head ∧
      Kept q a rr b := by
  obtain ⟨rr,hrr,h⟩ := bind_eq_ok h
  dsimp only at h
  split at h
  · cases h
    contradiction
  rename_i hok
  rw [not_not] at hok
  split at h
  · exact ⟨rr,_,hrr,hok,h,rfl,rfl,.skipped rfl rfl rfl⟩
  split at h
  · obtain ⟨⟨err,s⟩,-,h⟩ := bind_eq_ok h
    exact ⟨rr,_,hrr,hok,h,rfl,rfl,.skipped rfl rfl rfl⟩
  unfold keepAnswer at h
  split at h
  · cases h
    cases herr
  rename_i b hb
  split at hb
  · rename_i hkeep
    split at hb
    · cases hb
    · cases hb
      exact ⟨rr,_,hrr,hok,h,rfl,rfl,.added hkeep.1 rfl rfl⟩
  · cases hb
    exact ⟨rr,_,hrr,hok,h,rfl,rfl,.skipped rfl rfl rfl⟩

theorem answerSection_eq_map (pkt : List UInt8) (n p : Nat) :
    answerSection pkt n p = (answerStarts pkt n p).map (answerAt pkt) := by
  induction n generalizing p with
  | zero => rfl
  | succ n ih => rw [answerSection,answerStarts,ih,map_cons]

section

variable (h : parseAnswers pkt buflen q maxlen n a = .ok a')
include h

theorem parseAnswers_head (herr : a'.err = none) :
    a'.head = (((answerStarts pkt n a.ptr).getLast?).map (headAt pkt)).getD a.head := by
  induction n generalizing a with
  | zero =>
    cases h
    rfl
  | succ n ih =>
    obtain ⟨rr,b,hrr,hok,hrest,hptr,hhead,-⟩ := parseAnswers_step h herr
    obtain ⟨hat,hnext,-⟩ := parseRr_spec hrr hok
    rw [ih hrest,hptr,hnext,hhead,hat,answerStarts,getLast?_cons]
    cases (answerStarts pkt n (answerEnd pkt a.ptr)).getLast? with
    | none | some z => rfl

theorem parseAnswers_found (herr : a'.err = none) (hstart : a.err ≠ none) :
    ∃ p ∈ answerStarts pkt n a.ptr, (headAt pkt p).type = q.qtype := by
  induction n generalizing a with
  | zero =>
    cases h
    contradiction
  | succ n ih =>
    obtain ⟨rr,b,hrr,hok,hrest,hptr,-,hkept⟩ := parseAnswers_step h herr
    obtain ⟨hat,hnext,-⟩ := parseRr_spec hrr hok
    cases hkept with
    | skipped he _ _ =>
      obtain ⟨p,hp,hpt⟩ := ih hrest (he ▸ hstart)
      rw [hptr,hnext] at hp
      exact ⟨p,.tail _ hp,hpt⟩
    | added ht _ _ => exact ⟨_,mem_cons_self,hat ▸ ht⟩

theorem parseAnswers_keeps (herr : a'.err = none)
    (hkeeps : Keeps P a.response a.answers rs) (hcount : a.answers + n < 65536)
    (hP : ∀ p ∈ answerStarts pkt n a.ptr, (headAt pkt p).type = q.qtype → (answerAt pkt p).root = false ∧ P (headAt pkt p)) :
    ∃ rs', Keeps P a'.response a'.answers rs' := by
  induction n generalizing a rs with
  | zero =>
    cases h
    exact ⟨rs,hkeeps⟩
  | succ n ih =>
    obtain ⟨rr,b,hrr,hok,hrest,hptr,-,hkept⟩ := parseAnswers_step h herr
    obtain ⟨hat,hnext,hrsp⟩ := parseRr_spec hrr hok
    have hlater : ∀ p ∈ answerStarts pkt n b.ptr, (headAt pkt p).type = q.qtype →
        (answerAt pkt p).root = false ∧ P (headAt pkt p) := by
      intro p hp
      rw [hptr,hnext] at hp
      exact hP p (.tail _ hp)
    cases hkept with
    | skipped _ hresp hans =>
      rw [← hresp,← hans] at hkeeps
      exact ih hrest hkeeps (by omega) hlater
    | added ht hresp hans =>
      rw [Nat.mod_eq_of_lt (by omega)] at hans
      obtain ⟨hroot,hhead⟩ := hP _ mem_cons_self (hat ▸ ht)
      obtain ⟨r,hr,hrh⟩ := hrsp hroot
      have hnew := keeps_snoc hkeeps (hrh.trans hat ▸ hhead)
      rw [← hr,← hresp,← hans] at hnew
      exact ih hrest hnew (by omega) hlater

end

theorem strncpy_eq {p : Nat} (h : strncpy pkt n p = .ok bs) :
    bs = (cstring (pkt.drop p)).take n := by
  induction n generalizing p bs with
  | zero =>
    cases h
    rfl
  | succ n ih =>
    obtain ⟨b,hb,h⟩ := bind_eq_ok h
    have hget := load_eq_ok hb
    obtain ⟨hlt,hbe⟩ := List.getElem?_eq_some_iff.mp hget
    rw [cstring,drop_eq_getElem_cons hlt,hbe]
    split at h
    · cases h
      rename_i hb0
      simp [hb0]
    rename_i hb0
    obtain ⟨rest,hrest,h⟩ := bind_eq_ok h
    cases h
    rw [ih hrest,takeWhile_cons_of_pos (by simpa using hb0),take_succ_cons]
    rfl

end

theorem slice_getD {i n k : Nat} (hk : k < n) :
    ((bs.drop i).take n).getD k 0 = bs.getD (i + k) 0 := by
  simp [getD_eq_getElem?_getD,hk]

structure Answers.Sound (P : Head → Prop) (m : Reply) (r : Parsed) (rs : List StoredRr) : Prop where
  question : r.question = m.question
  qtype : r.qtype = m.queryType
  asked : r.qtype = 1 ∨ r.qtype = 28
  found : ∃ p ∈ m.answerStarts, (headAt m.pkt p).type = m.queryType
  last : ∃ p ∈ m.answerStarts.getLast?, r.head = headAt m.pkt p
  keeps : Keeps P r.response r.answers rs

theorem parseResponse_sound {m : Reply} {r : Parsed}
    (hP : ∀ p ∈ m.answerStarts, (headAt m.pkt p).type = m.queryType →
      (answerAt m.pkt p).root = false ∧ P (headAt m.pkt p))
    (h : parseResponse m.pkt m.pktLen nsMaxDname = .ok r) (herr : r.err = none) :
    ∃ rs, Answers.Sound P m r rs := by
  obtain ⟨counts,hcounts,h⟩ := bind_eq_ok h
  obtain ⟨-,rfl⟩ := loadSlice_eq_ok hcounts
  split at h
  · cases h
    cases herr
  obtain ⟨flags,-,h⟩ := bind_eq_ok h
  split at h
  · cases h
    cases herr
  obtain ⟨question,hq,h⟩ := bind_eq_ok h
  obtain rfl : question = m.question := strncpy_eq hq
  obtain ⟨word,hword,h⟩ := bind_eq_ok h
  obtain ⟨-,rfl⟩ := loadSlice_eq_ok hword
  simp only [slice_getD,Nat.reduceLT,Nat.add_zero,Nat.reduceAdd] at h
  split at h
  · cases h
    cases herr
  obtain ⟨cls,-,h⟩ := bind_eq_ok h
  obtain ⟨a,ha,h⟩ := bind_eq_ok h
  cases h
  have hhead := parseAnswers_head ha herr
  obtain ⟨x,hx,hxt⟩ := parseAnswers_found ha herr (by simp)
  obtain ⟨z,hz⟩ := getLast?_isSome.mpr (ne_nil_of_mem hx) |> Option.isSome_iff_exists.mp
  rw [hz] at hhead
  obtain ⟨rs,hkeeps⟩ := parseAnswers_keeps ha herr ⟨rfl,rfl,forall_mem_nil _⟩ (by simpa using be16_lt _ _) hP
  exact ⟨rs,rfl,rfl,by dsimp only; omega,⟨x,hx,hxt⟩,⟨z,hz,hhead⟩,hkeeps⟩

section

variable {P : Head → Prop} {m : Reply} {r : Parsed} {rs : List StoredRr} {header : List UInt8}

theorem positiveData_layout (now : Int) (hr : Answers.Sound P m r rs) (hheader : header.length = 12) :
    (positiveData now header r).question = r.question ∧ (positiveData now header r).body =
        lengthBytes r.head.type ++ (lengthBytes r.head.cls ++ r.response) := by
  have hfree : 0 ∉ r.question := by
    rw [hr.question]
    exact fun h => cstring_nulFree _ (mem_of_mem_take h)
  have hdrop : (positiveData now header r).data.drop 14 = r.question ++ 0 ::
      (lengthBytes r.head.type ++ (lengthBytes r.head.cls ++ r.response)) := by
    obtain ⟨n,hsplit⟩ : ∃ n, (positiveData now header r).data = (lengthBytes n ++ header) ++
        (r.question ++ 0 :: (lengthBytes r.head.type ++ (lengthBytes r.head.cls ++ r.response))) :=
      ⟨_,by simp only [positiveData,append_assoc,singleton_append]; rfl⟩
    rw [hsplit,drop_left' (by rw [length_append,hheader]; rfl)]
  have hquestion : (positiveData now header r).question = r.question := by
    rw [CacheData.question,hdrop,cstring_terminated hfree]
  refine ⟨hquestion,?_⟩
  rw [CacheData.body,hquestion,Nat.add_assoc,← drop_drop,hdrop,← drop_drop,drop_left]
  rfl

theorem positiveData_typed (now : Int) (hr : Answers.Sound (fun h => h.type = r.qtype) m r rs)
    (htype : r.head.type = r.qtype) (hheader : header.length = 12) :
    (positiveData now header r).Typed r.qtype := by
  intro _
  obtain ⟨-,hbody⟩ := positiveData_layout now hr hheader
  have hasked := hr.asked
  refine ⟨htype,?_,?_⟩
  · rw [CacheData.queryType,hbody]
    exact (be16_split (by rw [htype]; omega)).trans htype
  · rw [CacheData.answerTypes,hbody]
    exact keeps_recordTypes hr.keeps

end

def SlotTyped (_ : List UInt8) (t : Nat) (d : CacheData) : Prop := d.Typed t

theorem uniform_storesPositive {now : Int} {m : Reply} (hu : Uniform m) :
    StoresPositive SlotTyped now m := by
  intro r header hr herr hheader _
  have hrecords : ∀ p ∈ m.answerStarts, (headAt m.pkt p).type = m.queryType →
      (answerAt m.pkt p).root = false ∧ ∀ z ∈ m.answerStarts.getLast?,
        (headAt m.pkt z).type = m.queryType := by
    intro p hp hpt
    rw [Uniform,Reply.answers,answerSection_eq_map] at hu
    obtain ⟨hroot,hlast⟩ := hu _ (mem_map_of_mem hp) hpt
    refine ⟨hroot,fun z hz => hlast (answerAt m.pkt z) ?_⟩
    rw [getLast?_map]
    exact Option.mem_map_of_mem _ hz
  obtain ⟨rs,hsound⟩ := @parseResponse_sound (fun h => h.type = m.queryType) m r
    (fun p hp hpt => ⟨(hrecords p hp hpt).1,hpt⟩) hr herr
  obtain ⟨p,hp,hpt⟩ := hsound.found
  obtain ⟨z,hz,hhead⟩ := hsound.last
  have htype : r.head.type = r.qtype := by
    rw [hhead,hsound.qtype]
    exact (hrecords p hp hpt).2 z hz
  have hslot : slotOf r.head.type = r.qtype := by
    rw [htype,slotOf]
    rcases hsound.asked with h | h <;> simp [h]
  rw [SlotTyped,hslot]
  rw [← hsound.qtype] at hsound
  exact positiveData_typed now hsound htype hheader

theorem step_typed (s : State) (e : Event) (s' : State) (hs : s.Typed)
    (h : Guarded Admits Step s e s') : s'.Typed := by
  obtain ⟨hguard,hstep⟩ := h
  refine apply_every (P := SlotTyped) hs (fun now oom m he => ?_) hstep
  subst he
  exact ⟨uniform_storesPositive hguard,fun _ _ _ _ _ _ _ hpos => by cases hpos⟩

theorem uniform_runs_typed {s : State} (h : Reach empty (Guarded Admits Step) s) : s.Typed :=
  reach_invariant (by simp [State.Typed,empty]) step_typed h

def replyTo (ancount : UInt8) (answers : List UInt8) : Reply :=
  let msg := [9,0,0x81,0x80,0,1,0,ancount,0,0,0,0,1,104,0,0,1,0,1] ++ answers
  ⟨.udp,msg,msg.length⟩

def addressRecord : List UInt8 := [0xC0,0x0C,0,1,0,1,0,0,0,60,0,4,10,0,0,1]

def address6Record : List UInt8 :=
  [0xC0,0x0C,0,28,0,1,0,0,0,60,0,16] ++ replicate 16 0

def cachedAddress (ancount : UInt8) (type : Nat) : CacheData :=
  { inserted := 1000
    validUntil := 1060
    cacheUntil := 1060
    timeout := 60
    type := type
    answers := 1
    data := [0,35,9,0,0x81,0x80,0,1,0,ancount,0,0,0,0,1,104,0,0,UInt8.ofNat type,
      0,1] ++ addressRecord
    positive := true
    asked := 1 }

theorem addressReply_typed :
    Reach empty (Guarded Admits Step)
        ⟨[⟨[1,104],false,0,some (cachedAddress 1 1),none⟩],1,1030,0⟩ ∧
      State.Typed ⟨[⟨[1,104],false,0,some (cachedAddress 1 1),none⟩],1,1030,0⟩ := by
  have huniform : Uniform (replyTo 1 addressRecord) := by decide +kernel
  have hstep : Guarded Admits Step empty (.update 1000 false (replyTo 1 addressRecord))
      ⟨[⟨[1,104],false,0,some (cachedAddress 1 1),none⟩],1,1030,0⟩ := by
    refine ⟨huniform,?_⟩
    unfold Step
    decide +kernel
  exact ⟨.next .start hstep,uniform_runs_typed (.next .start hstep)⟩

theorem mixedReply_mistyped :
    Reach empty Step ⟨[⟨[1,104],false,0,none,some (cachedAddress 2 28)⟩],1,1030,0⟩ ∧
      (cachedAddress 2 28).positive = true ∧ (cachedAddress 2 28).asked = 1 ∧
      (cachedAddress 2 28).queryType = 28 ∧ (cachedAddress 2 28).answerTypes = some [1] ∧
      ¬(cachedAddress 2 28).Typed 28 := by
  refine ⟨?_,rfl,rfl,by decide +kernel,by decide +kernel,by decide +kernel⟩
  have hstep : Step empty (.update 1000 false (replyTo 2 (addressRecord ++ address6Record)))
      ⟨[⟨[1,104],false,0,none,some (cachedAddress 2 28)⟩],1,1030,0⟩ := by
    unfold Step
    decide +kernel
  exact .next .start hstep

end FuzzingTargets.DnsProxy.Cache
