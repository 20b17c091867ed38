import FuzzingTargets.Connman.DnsProxy.ParseRequest
import FuzzingTargets.Connman.DnsProxy.RequestTable

namespace FuzzingTargets.DnsProxy.TcpClient
open Bytes Checked List

def tcpMaxBufLen : Nat := 4096

def nameBuffer : List UInt8 := replicate tcpMaxBufLen 0

inductive Fate where
  | queued
  | cached
  | refused
  | noServer
  deriving DecidableEq

structure Env where
  fate : Nat → Fate
  dstid : Nat → UInt16

structure Client where
  buf : List UInt8
  bufEnd : Nat
  connected : Bool
  requests : List (List UInt8)
  deriving DecidableEq

def getMsgLen (buf : List UInt8) : Nat := be16 (buf.getD 0 0) (buf.getD 1 0)

variable (env : Env) (c : Client)

def reject (msgLen : Nat) : Client :=
  { c with buf := if msgLen + 2 < 12 then c.buf else servfail .tcp c.buf }

def serve (msgLen : Nat) : Client × Bool :=
  match parseRequest (c.buf.drop 2) msgLen nameBuffer with
  | .error _ => (reject c msgLen,false)
  | .ok (_,mem) =>
    let message := c.buf.take (msgLen + 2)
    let n := c.requests.length
    let parsed := { c with buf := c.buf.take 2 ++ mem }
    let tagged := { c with buf := setId .tcp (env.dstid n) (c.buf.take 2 ++ mem) }
    match env.fate n with
    | .noServer => (reject parsed msgLen,false)
    | .refused => (reject tagged msgLen,false)
    | .cached => ({ tagged with requests := c.requests ++ [message] },true)
    | .queued => ({ tagged with requests := c.requests ++ [message] },true)

def clearBuffer : Client :=
  { c with buf := replicate tcpMaxBufLen 0, bufEnd := 0 }

def shiftBuffer (msgLen : Nat) : Client :=
  { c with
    buf := (c.buf.drop (msgLen + 2)).take (tcpMaxBufLen - c.bufEnd) ++
      c.buf.drop (tcpMaxBufLen - c.bufEnd)
    bufEnd := c.bufEnd - (msgLen + 2) }

def readAnother : Client :=
  let msgLen := getMsgLen c.buf
  if msgLen + 2 = c.bufEnd then
    match serve env c msgLen with
    | (c,false) => c
    | (c,true) => clearBuffer c
  else c

def readMessages : Client :=
  let msgLen := getMsgLen c.buf
  if c.bufEnd < 2 then c
  else if tcpMaxBufLen < msgLen then { c with connected := false }
  else if c.bufEnd < msgLen + 2 then c
  else
    match serve env c msgLen with
    | (c,false) => c
    | (c,true) =>
      if msgLen + 2 < c.bufEnd then readAnother env (shiftBuffer c msgLen) else clearBuffer c

def readTcpData (readLen : Nat) : Client :=
  if readLen = 0 then { c with connected := false }
  else readMessages env { c with bufEnd := c.bufEnd + readLen }

def tcpClientEvent (seg : List UInt8) : Client :=
  if c.connected then
    readTcpData env
      { c with buf := c.buf.take c.bufEnd ++ seg ++ c.buf.drop (c.bufEnd + seg.length) } seg.length
  else c

def newClient : Client := ⟨replicate tcpMaxBufLen 0,0,true,[]⟩

def tcpListenerEvent (seg : List UInt8) : Client :=
  let c := { newClient with buf := seg ++ newClient.buf.drop seg.length }
  let msgLen := getMsgLen c.buf
  if seg.length < 2 then { c with bufEnd := seg.length }
  else if tcpMaxBufLen < msgLen then { c with connected := false }
  else if msgLen + 2 ≠ seg.length then { c with bufEnd := seg.length }
  else readTcpData env c seg.length

def receive (first : Option (List UInt8)) (segs : List (List UInt8)) : Client :=
  segs.foldl (tcpClientEvent env) ((first.map (tcpListenerEvent env)).getD newClient)

structure WellFramed (f : List UInt8) : Prop where
  size : f.length ≤ tcpMaxBufLen
  framed : getMsgLen f + 2 = f.length
  accepted : ∃ r, parseRequest (f.drop 2) (f.length - 2) nameBuffer = .ok r

def settle : List Nat → Nat → List Nat × Nat
  | [], fill => ([],fill)
  | l :: ls, fill => if fill = l then (ls,0) else (l :: ls,fill)

def advance : List Nat → Nat → List Nat × Nat
  | [], fill => ([],fill)
  | l :: ls, fill => if fill < l then (l :: ls,fill) else settle ls (fill - l)

def accepted (ls : List Nat) (first : Option Nat) : List Nat × Nat :=
  (first.map (settle ls)).getD (ls,0)

def backlog : List Nat → Nat → List Nat → List Nat
  | ls, _, [] => ls
  | ls, fill, r :: rs => backlog (advance ls (fill + r)).1 (advance ls (fill + r)).2 rs

def SegmentsFit : List Nat → Nat → List Nat → Prop
  | _, _, [] => True
  | ls, fill, r :: rs => 0 < r ∧ fill + r ≤ tcpMaxBufLen ∧
      SegmentsFit (advance ls (fill + r)).1 (advance ls (fill + r)).2 rs

def MovesWhole (ls : List Nat) (fill : Nat) : Prop :=
  ∀ l ∈ ls.head?, l < fill → fill + (fill - l) ≤ tcpMaxBufLen

def ShiftsWhole : List Nat → Nat → List Nat → Prop
  | _, _, [] => True
  | ls, fill, r :: rs => MovesWhole ls (fill + r) ∧
      ShiftsWhole (advance ls (fill + r)).1 (advance ls (fill + r)).2 rs

section

variable {env : Env} {c : Client} {f rest : List UInt8}

theorem wellFramed_length (hf : WellFramed f) : 14 ≤ f.length := by
  obtain ⟨r,hr⟩ := hf.accepted
  obtain ⟨qdHi,-,hr⟩ := bind_eq_ok hr
  obtain ⟨qdLo,-,hr⟩ := bind_eq_ok hr
  obtain ⟨arHi,-,hr⟩ := bind_eq_ok hr
  obtain ⟨arLo,-,hr⟩ := bind_eq_ok hr
  split_ifs at hr with hlen
  omega

theorem setId_append {g : List UInt8} (id : UInt16) (hg : 4 ≤ g.length) :
    setId .tcp id (g ++ rest) = setId .tcp id g ++ rest := by
  unfold setId protocolOffset
  dsimp only
  rw [set_append_left _ _ (by omega),set_append_left _ _ (by rw [length_set]; omega)]

theorem serve_frame (hf : WellFramed f) (hb : c.buf = f ++ rest)
    (hfate : env.fate c.requests.length = .queued ∨ env.fate c.requests.length = .cached) :
    ∃ f', f'.length = f.length ∧ serve env c (f.length - 2) =
      ({ c with buf := f' ++ rest, requests := c.requests ++ [f] },true) := by
  have hlen := wellFramed_length hf
  obtain ⟨⟨name,mem⟩,hparse⟩ := hf.accepted
  obtain ⟨hext,hmem⟩ := parseRequest_extends rest hparse
  have hdrop : c.buf.drop 2 = f.drop 2 ++ rest := by
    rw [hb,drop_append_of_le_length (by omega)]
  have htake : c.buf.take 2 ++ (mem ++ rest) = f.take 2 ++ mem ++ rest := by
    rw [hb,take_append_of_le_length (by omega),append_assoc]
  have hmsg : c.buf.take (f.length - 2 + 2) = f := by
    rw [hb,Nat.sub_add_cancel (by omega),take_left]
  have hg : (f.take 2 ++ mem).length = f.length := by
    rw [length_append,length_take,hmem,length_drop]
    omega
  refine ⟨setId .tcp (env.dstid c.requests.length) (f.take 2 ++ mem),?_,?_⟩
  · rw [setId_length,hg]
  unfold serve
  rw [hdrop,hext]
  dsimp only
  rw [htake,setId_append _ (by omega),hmsg]
  rcases hfate with h | h <;> rw [h]

end

structure Holding (frames rem : List (List UInt8)) (unread : List UInt8) (c : Client) : Prop where
  size : c.buf.length = tcpMaxBufLen
  fill : c.bufEnd ≤ tcpMaxBufLen
  connected : c.connected = true
  done : c.requests ++ rem = frames
  bytes : rem.flatten = c.buf.take c.bufEnd ++ unread

variable {seg : List UInt8}

section

variable {env : Env} {c : Client} {frames : List (List UInt8)} {f : List UInt8}
  {rem : List (List UInt8)} {unread : List UInt8}

theorem holding_split (h : Holding frames (f :: rem) unread c) (hfill : f.length ≤ c.bufEnd) :
    ∃ rest, c.buf = f ++ rest ∧ rest.length = tcpMaxBufLen - f.length ∧
      rem.flatten = rest.take (c.bufEnd - f.length) ++ unread := by
  have hfl := h.fill
  have hlen : (c.buf.take c.bufEnd).length = c.bufEnd := by
    rw [length_take,h.size]
    omega
  have hpre : f <+: c.buf.take c.bufEnd := by
    have hhead : f <+: (f :: rem).flatten := ⟨rem.flatten,rfl⟩
    rw [h.bytes] at hhead
    exact prefix_of_prefix_length_le hhead (prefix_append _ _) (by omega)
  obtain ⟨rest,hrest⟩ := hpre.trans (List.take_prefix _ _)
  refine ⟨rest,hrest.symm,?_,?_⟩
  · have := congrArg List.length hrest
    rw [length_append,h.size] at this
    omega
  · have hb := h.bytes
    rw [flatten_cons,← hrest,take_append,take_of_length_le hfill,append_assoc] at hb
    exact append_cancel_left hb

theorem getMsgLen_holding (hf : WellFramed f) (h : Holding frames (f :: rem) unread c)
    (h2 : 2 ≤ c.bufEnd) : getMsgLen c.buf + 2 = f.length := by
  have hlen := wellFramed_length hf
  have hfl := h.fill
  have htwo : c.buf.take 2 = f.take 2 := by
    have hb := congrArg (List.take 2) h.bytes
    rw [flatten_cons,take_append_of_le_length (by omega),
      take_append_of_le_length (by rw [length_take,h.size]; omega),take_take,
      Nat.min_eq_left h2] at hb
    exact hb.symm
  have hget : ∀ xs : List UInt8, getMsgLen xs = getMsgLen (xs.take 2) := by
    intro xs
    match xs with
    | [] => rfl
    | [_] => rfl
    | _ :: _ :: _ => rfl
  rw [hget,htwo,← hget,hf.framed]

theorem holding_nonempty (h : Holding frames rem unread c) (hpos : 0 < c.bufEnd) : rem ≠ [] := by
  rintro rfl
  have hlen := congrArg List.length h.bytes
  have hfl := h.fill
  rw [length_append,length_take,h.size,flatten_nil,length_nil] at hlen
  omega

theorem readAnother_holding (hrem : ∀ g ∈ rem, WellFramed g)
    (hfate : ∀ n, env.fate n = .queued ∨ env.fate n = .cached)
    (h : Holding frames rem unread c) (hpos : 0 < c.bufEnd) :
    ∃ rem', rem' <:+ rem ∧ Holding frames rem' unread (readAnother env c) ∧
      (rem'.map List.length,(readAnother env c).bufEnd) =
        settle (rem.map List.length) c.bufEnd := by
  unfold readAnother
  cases rem with
  | nil => exact absurd rfl (holding_nonempty h hpos)
  | cons g gs =>
    have hg := hrem g mem_cons_self
    have hlen := wellFramed_length hg
    rw [map_cons,settle]
    rcases Nat.lt_or_ge c.bufEnd 2 with h1 | h2
    · rw [if_neg (by omega),if_neg (by omega)]
      exact ⟨g :: gs,suffix_rfl,h,rfl⟩
    have hmsg := getMsgLen_holding hg h h2
    by_cases hend : c.bufEnd = g.length
    · obtain ⟨rest,hb,hrl,hflat⟩ := holding_split h (by omega)
      obtain ⟨g',hgl,hserve⟩ := serve_frame hg hb (hfate _)
      rw [if_pos (by omega),if_pos hend,show getMsgLen c.buf = g.length - 2 by omega,hserve]
      refine ⟨gs,suffix_cons _ _,⟨?_,?_,h.connected,?_,?_⟩,rfl⟩
      · simp [clearBuffer]
      · simp [clearBuffer]
      · simpa [clearBuffer] using h.done
      · rw [hflat,hend,Nat.sub_self]
        rfl
    · rw [if_neg (by omega),if_neg hend]
      exact ⟨g :: gs,suffix_rfl,h,rfl⟩

theorem shiftBuffer_holding {f' rest : List UInt8} {requests : List (List UInt8)}
    (hl : f'.length = f.length) (hrl : rest.length = tcpMaxBufLen - f.length) (hpos : 2 ≤ f.length)
    (hlt : f.length < c.bufEnd) (hwhole : c.bufEnd + (c.bufEnd - f.length) ≤ tcpMaxBufLen)
    (hconn : c.connected = true) (hdone : requests ++ rem = frames)
    (hflat : rem.flatten = rest.take (c.bufEnd - f.length) ++ unread) :
    Holding frames rem unread
      (shiftBuffer { c with buf := f' ++ rest, requests := requests } (f.length - 2)) := by
  have hshift : f.length - 2 + 2 = f'.length := by omega
  unfold shiftBuffer
  rw [hshift,drop_left]
  refine ⟨?_,?_,hconn,hdone,?_⟩
  · simp only [length_append,length_take,length_drop]
    omega
  · simp only
    omega
  simp only
  rw [hl,take_append_of_le_length (by rw [length_take]; omega),take_take,
    Nat.min_eq_left (by omega)]
  exact hflat

theorem clearBuffer_holding (hconn : c.connected = true)
    (hdone : c.requests ++ rem = frames) (hflat : rem.flatten = unread) :
    Holding frames rem unread (clearBuffer c) := by
  refine ⟨by simp [clearBuffer],by simp [clearBuffer],hconn,hdone,?_⟩
  rw [hflat]
  rfl

theorem receive_bytes (h : Holding frames rem (seg ++ unread) c)
    (hfits : c.bufEnd + seg.length ≤ tcpMaxBufLen) :
    Holding frames rem unread
      { c with
        buf := c.buf.take c.bufEnd ++ seg ++ c.buf.drop (c.bufEnd + seg.length)
        bufEnd := c.bufEnd + seg.length } := by
  have hs := h.size
  have hlen : (c.buf.take c.bufEnd ++ seg).length = c.bufEnd + seg.length := by
    rw [length_append,length_take]
    omega
  refine ⟨?_,hfits,h.connected,h.done,?_⟩
  · rw [length_append,hlen,length_drop]
    omega
  · simp only
    rw [← hlen,take_left,h.bytes,append_assoc]

section

variable (hrem : ∀ g ∈ rem, WellFramed g) (hfate : ∀ n, env.fate n = .queued ∨ env.fate n = .cached)
include hrem hfate

theorem readMessages_holding (h : Holding frames rem unread c) (hpos : 0 < c.bufEnd)
    (hwhole : MovesWhole (rem.map List.length) c.bufEnd) :
    ∃ rem', rem' <:+ rem ∧ Holding frames rem' unread (readMessages env c) ∧
      (rem'.map List.length,(readMessages env c).bufEnd) =
        advance (rem.map List.length) c.bufEnd := by
  cases rem with
  | nil => exact absurd rfl (holding_nonempty h hpos)
  | cons f gs =>
    have hf := hrem f mem_cons_self
    have hlen := wellFramed_length hf
    have hsize := hf.size
    rw [map_cons,advance]
    unfold readMessages
    rcases Nat.lt_or_ge c.bufEnd 2 with h1 | h2
    · rw [if_pos h1,if_pos (by omega)]
      exact ⟨f :: gs,suffix_rfl,h,rfl⟩
    have hmsg := getMsgLen_holding hf h h2
    rw [if_neg (by omega),if_neg (by omega)]
    rcases Nat.lt_or_ge c.bufEnd f.length with hshort | hfull
    · rw [if_pos (by omega),if_pos hshort]
      exact ⟨f :: gs,suffix_rfl,h,rfl⟩
    obtain ⟨rest,hb,hrl,hflat⟩ := holding_split h hfull
    obtain ⟨f',hfl,hserve⟩ := serve_frame hf hb (hfate _)
    have hdone : c.requests ++ [f] ++ gs = frames := by
      rw [append_assoc]
      exact h.done
    rw [if_neg (by omega),if_neg (by omega),show getMsgLen c.buf = f.length - 2 by omega,hserve]
    dsimp only
    rcases Nat.lt_or_ge f.length c.bufEnd with hmore | hexact
    · have hshift := shiftBuffer_holding hfl hrl (by omega) hmore
        (hwhole f.length (by simp) hmore) h.connected hdone hflat
      rw [if_pos (by omega)]
      have hgs : ∀ g ∈ gs, WellFramed g := fun g hg => hrem g (.tail _ hg)
      obtain ⟨rem',hsuf,hhold,hnum⟩ := readAnother_holding hgs hfate hshift (by
        simp only [shiftBuffer]
        omega)
      refine ⟨rem',hsuf.trans (suffix_cons _ _),hhold,?_⟩
      rw [hnum]
      simp only [shiftBuffer]
      congr 1
      omega
    rw [if_neg (by omega)]
    have heq : c.bufEnd - f.length = 0 := by omega
    rw [heq,take_zero,nil_append] at hflat
    refine ⟨gs,suffix_cons _ _,clearBuffer_holding h.connected hdone hflat,?_⟩
    rw [heq]
    cases gs with
    | nil => rfl
    | cons g gs =>
      have hg := wellFramed_length (hrem g (by simp))
      rw [map_cons,settle,if_neg (by omega)]
      rfl

theorem tcpClientEvent_holding (h : Holding frames rem (seg ++ unread) c)
    (hseg : 0 < seg.length) (hfits : c.bufEnd + seg.length ≤ tcpMaxBufLen)
    (hwhole : MovesWhole (rem.map List.length) (c.bufEnd + seg.length)) :
    ∃ rem', rem' <:+ rem ∧ Holding frames rem' unread (tcpClientEvent env c seg) ∧
      (rem'.map List.length,(tcpClientEvent env c seg).bufEnd) =
        advance (rem.map List.length) (c.bufEnd + seg.length) := by
  unfold tcpClientEvent readTcpData
  rw [if_pos h.connected,if_neg (by omega)]
  exact readMessages_holding hrem hfate (receive_bytes h hfits) (by simp only; omega) hwhole

theorem foldl_holding {segs : List (List UInt8)} (h : Holding frames rem segs.flatten c)
    (hfits : SegmentsFit (rem.map List.length) c.bufEnd (segs.map List.length))
    (hwhole : ShiftsWhole (rem.map List.length) c.bufEnd (segs.map List.length)) :
    ∃ rem', Holding frames rem' [] (segs.foldl (tcpClientEvent env) c) ∧
      rem'.map List.length = backlog (rem.map List.length) c.bufEnd (segs.map List.length) := by
  induction segs generalizing c rem with
  | nil => exact ⟨rem,h,rfl⟩
  | cons seg segs ih =>
    obtain ⟨hpos,hfit,hfits⟩ := hfits
    obtain ⟨rem',hsuf,hhold,hnum⟩ := tcpClientEvent_holding hrem hfate h hpos hfit hwhole.1
    have hone := hwhole.2
    rw [← hnum] at hfits hone
    obtain ⟨rem'',hhold',hnum'⟩ := ih (fun g hg => hrem g (hsuf.subset hg)) hhold hfits hone
    refine ⟨rem'',hhold',?_⟩
    rw [hnum',map_cons,backlog,← hnum]

end

theorem newClient_holding (hstream : frames.flatten = unread) :
    Holding frames frames unread newClient :=
  ⟨by simp [newClient],by simp [newClient],rfl,rfl,hstream⟩

theorem tcpListenerEvent_holding (hframes : ∀ f ∈ frames, WellFramed f)
    (hfate : ∀ n, env.fate n = .queued ∨ env.fate n = .cached)
    (hstream : frames.flatten = seg ++ unread) (hpos : 0 < seg.length)
    (hfits : seg.length ≤ tcpMaxBufLen) :
    ∃ rem, rem <:+ frames ∧ Holding frames rem unread (tcpListenerEvent env seg) ∧
      (rem.map List.length,(tcpListenerEvent env seg).bufEnd) =
        settle (frames.map List.length) seg.length := by
  have hfilled := receive_bytes (newClient_holding hstream) (by simpa [newClient] using hfits)
  have hzero : newClient.bufEnd = 0 := rfl
  rw [hzero,take_zero,nil_append,Nat.zero_add] at hfilled
  cases frames with
  | nil => exact absurd rfl (holding_nonempty hfilled hpos)
  | cons f fs =>
    have hf := hframes f mem_cons_self
    have hlen := wellFramed_length hf
    have hsize := hf.size
    have hwait : seg.length ≠ f.length → ∃ rem, rem <:+ f :: fs ∧
        Holding (f :: fs) rem unread { newClient with
          buf := seg ++ newClient.buf.drop seg.length
          bufEnd := seg.length } ∧
        (rem.map List.length,seg.length) = settle ((f :: fs).map List.length) seg.length := by
      intro hne
      refine ⟨f :: fs,suffix_rfl,hfilled,?_⟩
      rw [map_cons,settle,if_neg hne]
    unfold tcpListenerEvent
    dsimp only
    rcases Nat.lt_or_ge seg.length 2 with h1 | h2
    · rw [if_pos h1]
      exact hwait (by omega)
    have hmsg := getMsgLen_holding hf hfilled h2
    dsimp only at hmsg
    rw [if_neg (by omega),if_neg (by omega)]
    by_cases hexact : seg.length = f.length
    · rw [if_neg (by omega),readTcpData,if_neg (by omega)]
      have hread := readMessages_holding hframes hfate hfilled hpos fun l hl hlt => by
        obtain rfl : f.length = l := by simpa using hl
        exact absurd hexact hlt.ne'
      rw [map_cons,advance,if_neg (by dsimp only; omega)] at hread
      rw [map_cons,settle,if_pos hexact]
      have hrest : settle (fs.map List.length) (seg.length - f.length) = (fs.map List.length,0) := by
        rw [hexact,Nat.sub_self]
        cases fs with
        | nil => rfl
        | cons g gs =>
          have hg := wellFramed_length (hframes g (by simp))
          rw [map_cons,settle,if_neg (by omega)]
      rw [← hrest]
      simpa only [hzero,Nat.zero_add] using hread
    · rw [if_pos (by omega)]
      exact hwait hexact

end

theorem receive_frames_iff (env : Env) (frames : List (List UInt8)) (first : Option (List UInt8))
    (segs : List (List UInt8)) (hframes : ∀ f ∈ frames, WellFramed f)
    (hstream : (first.toList ++ segs).flatten = frames.flatten)
    (hfate : ∀ n, env.fate n = .queued ∨ env.fate n = .cached)
    (hfirst : ∀ seg ∈ first, 0 < seg.length ∧ seg.length ≤ tcpMaxBufLen)
    (hfits : SegmentsFit (accepted (frames.map List.length) (first.map List.length)).1
      (accepted (frames.map List.length) (first.map List.length)).2 (segs.map List.length))
    (hwhole : ShiftsWhole (accepted (frames.map List.length) (first.map List.length)).1
      (accepted (frames.map List.length) (first.map List.length)).2 (segs.map List.length)) :
    (receive env first segs).requests = frames ↔
      backlog (accepted (frames.map List.length) (first.map List.length)).1
        (accepted (frames.map List.length) (first.map List.length)).2 (segs.map List.length) = [] := by
  obtain ⟨rem0,hsuf,hstart,hnum0⟩ : ∃ rem, rem <:+ frames ∧
      Holding frames rem segs.flatten ((first.map (tcpListenerEvent env)).getD newClient) ∧
      (rem.map List.length,((first.map (tcpListenerEvent env)).getD newClient).bufEnd) =
        accepted (frames.map List.length) (first.map List.length) := by
    cases first with
    | none => exact ⟨frames,suffix_rfl,newClient_holding hstream.symm,rfl⟩
    | some seg =>
      obtain ⟨hpos,hfit⟩ := hfirst seg rfl
      exact tcpListenerEvent_holding hframes hfate hstream.symm hpos hfit
  rw [← hnum0] at hfits hwhole ⊢
  obtain ⟨rem,hhold,hnum⟩ := foldl_holding (fun f hf => hframes f (hsuf.subset hf)) hfate hstart
    hfits hwhole
  have hdone := hhold.done
  rw [← show _ = backlog _ _ _ from hnum,map_eq_nil_iff]
  constructor
  · intro heq
    rw [receive] at heq
    rw [heq] at hdone
    exact List.append_right_eq_self.mp hdone
  · rintro rfl
    rwa [append_nil] at hdone

def query : List UInt8 :=
  [0,19,9,0,1,0,0,1,0,0,0,0,0,0,1,104,0,0,1,0,1]

theorem query_framed : WellFramed query := by
  have hok : (parseRequest (query.drop 2) (query.length - 2) nameBuffer).isOk = true := by
    decide +kernel
  refine ⟨by decide,by decide,?_⟩
  cases h : parseRequest (query.drop 2) (query.length - 2) nameBuffer with
  | error e => simp [h,Except.isOk,Except.toBool] at hok
  | ok r => exact ⟨r,rfl⟩

def allQueued : Env := ⟨fun _ => .queued,fun _ => 0⟩

theorem query_pair_received :
    (receive allQueued (some query) [query ++ query]).requests = [query,query,query] :=
  (receive_frames_iff allQueued [query,query,query] (some query) [query ++ query]
    (fun f hf => by
      obtain rfl : f = query := by simpa using hf
      exact query_framed)
    (by decide) (fun _ => .inl rfl)
    (fun seg hseg => by
      cases hseg
      decide)
    ⟨by decide,by decide,trivial⟩
    ⟨fun l hl _ => by
      obtain rfl : 21 = l := by simpa [query,accepted,settle] using hl
      decide,trivial⟩).mpr (by decide)

theorem pipelined_queries_lost :
    (∀ f ∈ [query,query], WellFramed f) ∧
      (receive allQueued (some (query ++ query)) []).requests = [] ∧
      (receive allQueued none [query ++ query ++ query]).requests = [query] := by
  refine ⟨fun f hf => ?_,by decide +kernel,by decide +kernel⟩
  obtain rfl : f = query := by simpa using hf
  exact query_framed

end FuzzingTargets.DnsProxy.TcpClient
