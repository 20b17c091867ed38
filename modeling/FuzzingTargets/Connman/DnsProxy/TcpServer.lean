import FuzzingTargets.Connman.DnsProxy.Names

namespace FuzzingTargets.DnsProxy.TcpServer
open Bytes List

inductive Ending where
  | open
  | closed
  | failed
  deriving DecidableEq

inductive Recv where
  | data (bytes : List UInt8)
  | again
  | closed
  | failed
  deriving DecidableEq

structure Socket where
  pending : List UInt8
  ending : Ending
  deriving DecidableEq

structure PartialReply where
  len : Nat
  buf : List UInt8
  deriving DecidableEq

def Ending.result : Ending → Recv
  | .open => .again
  | .closed => .closed
  | .failed => .failed

def Socket.peek (s : Socket) : Recv :=
  if s.pending = [] then s.ending.result else .data (s.pending.take 2)

def chunkSize (want chunk available : Nat) : Nat := max 1 (min chunk (min want available))

def Socket.recv (s : Socket) (want chunk : Nat) : Recv × Socket :=
  if s.pending = [] then (s.ending.result,s)
  else (.data (s.pending.take (chunkSize want chunk s.pending.length)),
    { s with pending := s.pending.drop (chunkSize want chunk s.pending.length) })

inductive Served where
  | waiting (incoming : Option PartialReply) (socket : Socket)
  | forwarded (reply : List UInt8)
  | hangup
  deriving DecidableEq

def receiveReply (chunks : Nat → Nat) : Nat → PartialReply → Socket → Served
  | 0, reply, _ => .forwarded reply.buf
  | fuel + 1, reply, s =>
    if reply.buf.length < reply.len then
      match s.recv (reply.len - reply.buf.length) (chunks fuel) with
      | (.data bytes,s) => receiveReply chunks fuel { reply with buf := reply.buf ++ bytes } s
      | (.again,s) => .waiting (some reply) s
      | (.closed,_) => .forwarded reply.buf
      | (.failed,_) => .forwarded reply.buf
    else .forwarded reply.buf

def replyLen (bytes : List UInt8) : Nat := (be16 (bytes.getD 0 0) (bytes.getD 1 0) + 2) % 65536

def tcpServerEvent (chunks : Nat → Nat) (incoming : Option PartialReply) (s : Socket) : Served :=
  match incoming with
  | some reply => receiveReply chunks reply.len reply s
  | none =>
    match s.peek with
    | .data bytes =>
      if bytes.length < 2 then .waiting none s
      else receiveReply chunks (replyLen bytes) ⟨replyLen bytes,[]⟩ s
    | .again => .waiting none s
    | .closed => .hangup
    | .failed => .hangup

inductive Activation where
  | input (data : List UInt8) (ending : Ending) (chunks : Nat → Nat)
  | hangup (data : List UInt8)

def Activation.data : Activation → List UInt8
  | .input data _ _ => data
  | .hangup data => data

def serve : Option PartialReply → List UInt8 → List Activation → List (List UInt8)
  | _, _, [] => []
  | _, _, .hangup _ :: _ => []
  | incoming, pending, .input data ending chunks :: script =>
    match tcpServerEvent chunks incoming ⟨pending ++ data,ending⟩ with
    | .waiting incoming s => serve incoming s.pending script
    | .forwarded reply => [reply]
    | .hangup => []

def arrived (script : List Activation) : List UInt8 := script.flatMap Activation.data

def Stops (bytes : List UInt8) (ending : Ending) : Prop := ending ≠ .open ∧ bytes.length ≠ 1

instance (bytes : List UInt8) (ending : Ending) : Decidable (Stops bytes ending) :=
  inferInstanceAs (Decidable (_ ∧ _))

def heard : List UInt8 → List Activation → List UInt8
  | before, [] => before
  | before, .hangup _ :: _ => before
  | before, .input data ending _ :: script =>
    if Stops (before ++ data) ending then before ++ data else heard (before ++ data) script

def Broken : List UInt8 → List Activation → Prop
  | _, [] => False
  | _, .hangup _ :: _ => False
  | before, .input data ending _ :: script =>
    Stops (before ++ data) ending ∨ Broken (before ++ data) script

def decideBroken : (before : List UInt8) → (script : List Activation) →
    Decidable (Broken before script)
  | _, [] => inferInstanceAs (Decidable False)
  | _, .hangup _ :: _ => inferInstanceAs (Decidable False)
  | before, .input data _ _ :: script =>
    haveI := decideBroken (before ++ data) script
    inferInstanceAs (Decidable (_ ∨ _))

instance (before : List UInt8) (script : List Activation) : Decidable (Broken before script) :=
  decideBroken before script

section

variable {chunks : Nat → Nat} {reply : PartialReply} {s : Socket} {fuel : Nat}

theorem chunkSize_bounds {want chunk available : Nat} (hw : 0 < want) (ha : 0 < available) :
    0 < chunkSize want chunk available ∧ chunkSize want chunk available ≤ want ∧
      chunkSize want chunk available ≤ available := by
  unfold chunkSize
  omega

theorem receiveReply_full (h : reply.len ≤ reply.buf.length) :
    receiveReply chunks fuel reply s = .forwarded reply.buf := by
  cases fuel with
  | zero => rfl
  | succ fuel => simp [receiveReply,Nat.not_lt.mpr h]

theorem receiveReply_spec (hfuel : reply.len ≤ reply.buf.length + fuel)
    (hlen : reply.buf.length ≤ reply.len) :
    receiveReply chunks fuel reply s =
      if reply.len ≤ (reply.buf ++ s.pending).length then
        .forwarded ((reply.buf ++ s.pending).take reply.len)
      else if s.ending = .open then
        .waiting (some { reply with buf := reply.buf ++ s.pending }) { s with pending := [] }
      else .forwarded (reply.buf ++ s.pending) := by
  induction fuel generalizing reply s with
  | zero =>
    have heq : reply.len = reply.buf.length := by omega
    rw [receiveReply_full (by omega),if_pos (by rw [length_append]; omega),heq,take_left]
  | succ fuel ih =>
    by_cases hfull : reply.len ≤ reply.buf.length
    · have heq : reply.len = reply.buf.length := by omega
      rw [receiveReply_full hfull,if_pos (by rw [length_append]; omega),heq,take_left]
    obtain ⟨pending,ending⟩ := s
    unfold receiveReply Socket.recv
    rw [if_pos (by omega)]
    by_cases hempty : pending = []
    · subst hempty
      cases ending <;> simp [Ending.result,hfull]
    have hpos : 0 < pending.length := length_pos_iff.mpr hempty
    obtain ⟨hone,hwant,havail⟩ := @chunkSize_bounds (reply.len - reply.buf.length)
      (chunks fuel) pending.length (by omega) hpos
    simp only [hempty,if_false]
    generalize chunkSize (reply.len - reply.buf.length) (chunks fuel) pending.length = k at *
    have htake : (pending.take k).length = k := by
      rw [length_take]
      omega
    rw [ih (by simp only [length_append,htake]; omega)
      (by simp only [length_append,htake]; omega)]
    simp only [append_assoc,take_append_drop]

end

def stateOf (bytes : List UInt8) : Option PartialReply × List UInt8 :=
  if bytes.length < 2 then (none,bytes) else (some ⟨replyLen bytes,bytes⟩,[])

def Unfinished (bytes : List UInt8) : Prop := bytes.length < 2 ∨ bytes.length < replyLen bytes

section

variable {before bytes bytes' : List UInt8} {script : List Activation} {ending : Ending}
  {chunks : Nat → Nat}

theorem replyLen_of_leading (h : bytes <+: bytes') (hlen : 2 ≤ bytes.length) :
    replyLen bytes' = replyLen bytes := by
  obtain ⟨rest,rfl⟩ := h
  unfold replyLen
  simp only [getD_eq_getElem?_getD]
  rw [getElem?_append_left (by omega),getElem?_append_left (by omega)]

theorem replyLen_take (hlen : 2 ≤ bytes.length) : replyLen (bytes.take 2) = replyLen bytes :=
  (replyLen_of_leading (List.take_prefix 2 bytes) (by rw [length_take]; omega)).symm

theorem peek_short (h : bytes.length < 2) (hne : bytes ≠ []) :
    Socket.peek ⟨bytes,ending⟩ = .data bytes := by
  simp [Socket.peek,hne,take_of_length_le (Nat.le_of_lt_succ (Nat.lt_succ_of_lt h))]

theorem peek_long (h : 2 ≤ bytes.length) : Socket.peek ⟨bytes,ending⟩ = .data (bytes.take 2) := by
  have hne : bytes ≠ [] := by
    rintro rfl
    simp at h
  simp [Socket.peek,hne]

theorem tcpServerEvent_spec {data : List UInt8} (h : Unfinished before) :
    tcpServerEvent chunks (stateOf before).1 ⟨(stateOf before).2 ++ data,ending⟩ =
      if (before ++ data).length < 2 then
        if before ++ data = [] ∧ ending ≠ .open then .hangup
        else .waiting none ⟨before ++ data,ending⟩
      else if replyLen (before ++ data) ≤ (before ++ data).length then
        .forwarded ((before ++ data).take (replyLen (before ++ data)))
      else if ending = .open then
        .waiting (some ⟨replyLen (before ++ data),before ++ data⟩) ⟨[],ending⟩
      else .forwarded (before ++ data) := by
  by_cases hb : before.length < 2
  · rw [stateOf,if_pos hb]
    generalize before ++ data = bytes
    by_cases hs : bytes.length < 2
    · rw [if_pos hs]
      by_cases hne : bytes = []
      · subst hne
        cases ending <;> simp [tcpServerEvent,Socket.peek,Ending.result]
      · simp [tcpServerEvent,peek_short hs hne,hs,hne]
    have hl : 2 ≤ bytes.length := Nat.not_lt.mp hs
    rw [if_neg hs]
    simp only [tcpServerEvent,peek_long hl,replyLen_take hl]
    rw [if_neg (by rw [length_take]; omega),receiveReply_spec (by simp) (by simp)]
    simp
  have hl : 2 ≤ before.length := Nat.not_lt.mp hb
  have hlen : before.length < replyLen before := h.resolve_left hb
  rw [stateOf,if_neg (by omega),if_neg (by rw [length_append]; omega),
    replyLen_of_leading (prefix_append before data) hl]
  simp only [tcpServerEvent,nil_append]
  rw [receiveReply_spec (by simp) (by simpa using hlen.le)]

theorem prefix_heard : before <+: heard before script := by
  induction script generalizing before with
  | nil => exact prefix_refl _
  | cons activation script ih =>
    cases activation with
    | hangup data => exact prefix_refl _
    | input data ending chunks =>
      rw [heard]
      split
      · exact prefix_append _ _
      · exact (prefix_append _ _).trans ih

theorem heard_leads : heard before script <+: before ++ arrived script := by
  induction script generalizing before with
  | nil => simp [heard,arrived]
  | cons activation script ih =>
    have hsplit : arrived (activation :: script) = activation.data ++ arrived script := rfl
    rw [hsplit,← append_assoc]
    cases activation with
    | hangup data => exact (prefix_append _ _).trans (prefix_append _ _)
    | input data ending chunks =>
      rw [heard]
      split
      · exact prefix_append _ _
      · exact ih

theorem broken_input {data : List UInt8} : Broken before (.input data ending chunks :: script) ↔
      Stops (before ++ data) ending ∨ Broken (before ++ data) script :=
  Iff.rfl

theorem serve_eq (h : Unfinished before) :
    serve (stateOf before).1 (stateOf before).2 script =
      if (heard before script).length < 2 then []
      else if replyLen (heard before script) ≤ (heard before script).length then
        [(heard before script).take (replyLen (heard before script))]
      else if Broken before script then [heard before script] else [] := by
  induction script generalizing before with
  | nil =>
    rcases h with h | h <;> simp [serve,heard,Broken,h]
  | cons activation script ih =>
    cases activation with
    | hangup data => rcases h with h | h <;> simp [serve,heard,Broken,h]
    | input data ending chunks =>
      rw [serve,tcpServerEvent_spec h,heard]
      simp only [broken_input]
      generalize before ++ data = bytes at *
      by_cases hs : bytes.length < 2
      · rw [if_pos hs]
        by_cases hstop : Stops bytes ending
        · have hnil : bytes = [] := length_eq_zero_iff.mp (by have := hstop.2; omega)
          subst hnil
          simp [hstop,hstop.1]
        have hgo : ¬ (bytes = [] ∧ ending ≠ .open) := by
          rintro ⟨rfl,he⟩
          exact hstop ⟨he,by simp⟩
        have hrest := ih (Or.inl hs)
        rw [stateOf,if_pos hs] at hrest
        simpa only [if_neg hgo,hstop,if_false,false_or] using hrest
      have hl : 2 ≤ bytes.length := Nat.not_lt.mp hs
      rw [if_neg hs]
      by_cases hfull : replyLen bytes ≤ bytes.length
      · rw [if_pos hfull]
        have hpre : bytes <+: if Stops bytes ending then bytes else heard bytes script := by
          split
          · exact prefix_refl _
          · exact prefix_heard
        generalize (if Stops bytes ending then bytes else heard bytes script) = total at *
        have hle := hpre.length_le
        rw [if_neg (by omega),replyLen_of_leading hpre hl,if_pos (by omega)]
        obtain ⟨rest,rfl⟩ := hpre
        rw [take_append_of_le_length hfull]
      rw [if_neg hfull]
      by_cases he : ending = .open
      · have hstop : ¬ Stops bytes ending := fun hst => hst.1 he
        have hrest := @ih bytes (Or.inr (Nat.not_le.mp hfull))
        rw [stateOf,if_neg (by omega)] at hrest
        simpa only [if_pos he,hstop,if_false,false_or] using hrest
      · have hstop : Stops bytes ending := ⟨he,by omega⟩
        simp [he,hstop,hs,hfull]

end

def completed : List (List UInt8) → Nat → List (List UInt8)
  | [], _ => []
  | message :: messages, available =>
    if (frame message).length ≤ available then
      frame message :: completed messages (available - (frame message).length)
    else []

def ReassembledAlone (message : List UInt8) (later : List (List UInt8))
    (script : List Activation) : Prop :=
  ((heard [] script).length < (frame message).length →
    (arrived script).length < (frame message).length) ∧
  (2 ≤ (heard [] script).length → message.length ≤ 65533 ∧
    ((heard [] script).length < (frame message).length → ¬ Broken [] script)) ∧
  ∀ next ∈ later.head?, (arrived script).length < (frame message).length + (frame next).length

section

variable {message : List UInt8} {messages : List (List UInt8)} {script : List Activation}

@[simp] theorem length_frame : (frame message).length = message.length + 2 := by
  simp [frame,lengthBytes]

theorem replyLen_frame {rest : List UInt8} (h : message.length ≤ 65535) :
    replyLen (frame message ++ rest) = (message.length + 2) % 65536 := by
  have hbe : be16 (UInt8.ofNat (message.length / 256)) (UInt8.ofNat message.length) =
      message.length := by
    simp only [be16,UInt8.toNat_ofNat']
    omega
  simp [replyLen,frame,lengthBytes,hbe]

theorem completed_nil_iff {available : Nat} : completed messages available = [] ↔
      ∀ next ∈ messages.head?, available < (frame next).length := by
  cases messages with
  | nil => simp [completed]
  | cons message messages =>
    rw [completed]
    split <;> simp_all

theorem completed_length_frame {available : Nat} {reply : List UInt8}
    (h : completed (message :: messages) available = [reply]) : reply = frame message := by
  rw [completed] at h
  split at h
  · exact (cons.inj h).1.symm
  · cases h

theorem replyLen_heard {later : List UInt8} (hsize : message.length ≤ 65535)
    (harrived : arrived script <+: frame message ++ later) (hlen : 2 ≤ (heard [] script).length) :
    replyLen (heard [] script) = (message.length + 2) % 65536 := by
  have hpre : heard [] script <+: frame message ++ later := heard_leads.trans harrived
  rw [← replyLen_of_leading hpre hlen,replyLen_frame hsize]

theorem take_heard {later : List UInt8} (harrived : arrived script <+: frame message ++ later)
    (hlen : (frame message).length ≤ (heard [] script).length) :
    (heard [] script).take (frame message).length = frame message := by
  have hpre : heard [] script <+: frame message ++ later := heard_leads.trans harrived
  obtain ⟨rest,hrest⟩ := hpre
  have htake := congrArg (List.take (frame message).length) hrest
  rwa [take_append_of_le_length hlen,take_left] at htake

theorem serve_one_iff (hsize : message.length ≤ 65535)
    (harrived : arrived script <+: (message :: messages).flatMap frame) :
    serve none [] script = completed (message :: messages) (arrived script).length ↔
      ReassembledAlone message messages script := by
  have hserve := @serve_eq [] script (Or.inl (by simp))
  have hle : (heard [] script).length ≤ (arrived script).length := heard_leads.length_le
  change serve none [] script = _ at hserve
  rw [hserve]
  by_cases hshort : (heard [] script).length < 2
  · rw [if_pos hshort,eq_comm,completed_nil_iff]
    simp only [ReassembledAlone,head?_cons,Option.mem_some_iff,forall_eq',length_frame]
    constructor
    · intro hlt
      exact ⟨fun _ => hlt,fun h => absurd h (by omega),fun next _ => by omega⟩
    · rintro ⟨hlt,-,-⟩
      exact hlt (by omega)
  have hlong : 2 ≤ (heard [] script).length := Nat.not_lt.mp hshort
  rw [if_neg hshort,replyLen_heard hsize harrived hlong]
  by_cases hfits : message.length ≤ 65533
  · rw [Nat.mod_eq_of_lt (by omega)]
    by_cases hfull : message.length + 2 ≤ (heard [] script).length
    · have htake := take_heard harrived (by rwa [length_frame])
      rw [length_frame] at htake
      rw [if_pos hfull,htake,completed,if_pos (by rw [length_frame]; omega),cons.injEq,
        @eq_comm _ [],completed_nil_iff]
      simp only [ReassembledAlone,true_and,length_frame]
      constructor
      · intro hnext
        refine ⟨by omega,fun _ => ⟨hfits,by omega⟩,fun next hmem => ?_⟩
        have := hnext next hmem
        omega
      · rintro ⟨-,-,hnext⟩ next hmem
        have := hnext next hmem
        omega
    rw [if_neg hfull]
    simp only [ReassembledAlone,length_frame]
    by_cases hbroken : Broken [] script
    · rw [if_pos hbroken]
      constructor
      · intro h
        have heq := completed_length_frame h.symm
        rw [heq,length_frame] at hfull
        omega
      · rintro ⟨-,h,-⟩
        exact absurd hbroken ((h hlong).2 (by omega))
    rw [if_neg hbroken,eq_comm,completed_nil_iff]
    simp only [head?_cons,Option.mem_some_iff,forall_eq',length_frame]
    constructor
    · intro hlt
      exact ⟨fun _ => hlt,fun _ => ⟨hfits,fun _ => hbroken⟩,fun next _ => by omega⟩
    · rintro ⟨hlt,-,-⟩
      exact hlt (by omega)
  have hwrap : (message.length + 2) % 65536 ≤ 1 := by omega
  rw [if_pos (by omega)]
  constructor
  · intro h
    have hlen := congrArg List.length (completed_length_frame h.symm)
    rw [length_take,length_frame] at hlen
    omega
  · rintro ⟨-,h,-⟩
    exact absurd (h hlong).1 hfits

end

theorem replies_reassembled_iff (messages : List (List UInt8)) (script : List Activation)
    (hsize : ∀ message ∈ messages, 12 ≤ message.length ∧ message.length ≤ 65535)
    (harrived : arrived script <+: messages.flatMap frame) :
    serve none [] script = completed messages (arrived script).length ↔
      ∀ message later, messages = message :: later → ReassembledAlone message later script := by
  cases messages with
  | nil =>
    have hnil : arrived script = [] := prefix_nil.mp harrived
    have hheard : heard [] script = [] := by
      have hpre := @heard_leads [] script
      rwa [hnil,append_nil,prefix_nil] at hpre
    have hserve := @serve_eq [] script (Or.inl (by simp))
    simpa [hheard,completed,stateOf] using hserve
  | cons message messages =>
    rw [serve_one_iff (hsize message mem_cons_self).2 harrived]
    constructor
    · rintro h _ _ heq
      obtain ⟨rfl,rfl⟩ := cons.inj heq
      exact h
    · intro h
      exact h message messages rfl

def splitReply : List Activation :=
  [.input ((frame (replicate 12 7)).take 5) .open (fun _ => 1),
    .input ((frame (replicate 12 7)).drop 5) .closed (fun _ => 4)]

theorem splitReply_reassembled :
    serve none [] splitReply = completed [List.replicate 12 7] (arrived splitReply).length :=
  (replies_reassembled_iff [List.replicate 12 7] splitReply (by decide) (by decide)).mpr (by
    intro message later heq
    obtain ⟨rfl,rfl⟩ := cons.inj heq
    refine ⟨by decide,fun _ => ⟨by decide,by decide⟩,by simp⟩)

def closedEarly : List Activation :=
  [.input ((frame (replicate 12 7)).take 5) .closed (fun _ => 2048)]

theorem closedEarly_forwards_fragment :
    arrived closedEarly <+: [List.replicate 12 7].flatMap frame ∧
      completed [List.replicate 12 7] (arrived closedEarly).length = [] ∧
      serve none [] closedEarly = [(frame (List.replicate 12 7)).take 5] := by
  decide

end FuzzingTargets.DnsProxy.TcpServer
