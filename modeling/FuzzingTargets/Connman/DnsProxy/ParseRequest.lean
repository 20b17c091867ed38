import FuzzingTargets.Foundation.CStrings

namespace FuzzingTargets.DnsProxy
open Bytes Checked CStrings List

inductive Refusal where
  | einval
  | enobufs
  | overrun (i : Nat)
  | overflow (i : Nat)
  deriving DecidableEq

structure Scan where
  ptr : Nat
  remain : Nat
  used : Nat
  name : List UInt8
  lastLabel : Option Nat
  deriving DecidableEq

def labelText (mem : List UInt8) (start n : Nat) : Except Refusal (List UInt8) :=
  let label := (mem.drop start).take n
  if label.length = n ∨ 0 ∈ label then .ok (cstring label) else .error (.overrun mem.length)

def subtract32 (a b : Nat) : Nat := (a + 2 ^ 32 - b) % 2 ^ 32

def appendDotted (name label : List UInt8) : Except Refusal (List UInt8) := do
  let name ← append Refusal.overflow name label
  append Refusal.overflow name [46]

def Scan.past (s : Scan) (n : Nat) (name : List UInt8) : Scan :=
  { s with
    ptr := s.ptr + n + 1
    remain := subtract32 s.remain (n + 1)
    used := s.used + n + 1
    name := name }

def copyLabels (buf : List UInt8) (size : Nat) : Nat → Scan → Except Refusal Scan
  | 0, _ => .error .enobufs
  | fuel + 1, s =>
    if s.remain = 0 then .ok s
    else do
      let labelLen ← load Refusal.overrun buf s.ptr
      let n := labelLen.toNat
      if n = 0 then .ok { s with lastLabel := some (s.ptr + 1) }
      else if size < s.used + n + 1 then .error .enobufs
      else do
        let label ← labelText buf (s.ptr + 1) n
        let name ← appendDotted s.name label
        copyLabels buf size fuel (s.past n name)

def bumpEdns0 (mem : List UInt8) (arcount : Nat) (s : Scan) : Except Refusal (List UInt8) :=
  match s.lastLabel with
  | none => .ok mem
  | some label =>
    if arcount = 0 ∨ s.remain < 9 then .ok mem
    else do
      let root ← load Refusal.overrun mem (label + 4)
      let hi ← load Refusal.overrun mem (label + 5)
      let lo ← load Refusal.overrun mem (label + 6)
      if root = 0 ∧ hi = 0 ∧ lo = 0x29 then do
        let sizeHi ← load Refusal.overrun mem (label + 7)
        let sizeLo ← load Refusal.overrun mem (label + 8)
        if charWord16 sizeHi sizeLo < 0x1000 then .ok ((mem.set (label + 7) 0x10).set (label + 8) 0)
        else .ok mem
      else .ok mem

def parseRequest (buf : List UInt8) (len : Nat) (name : List UInt8) :
    Except Refusal (List UInt8 × List UInt8) := do
  let qdHi ← load Refusal.overrun buf 4
  let qdLo ← load Refusal.overrun buf 5
  let arHi ← load Refusal.overrun buf 10
  let arLo ← load Refusal.overrun buf 11
  if len < 12 then .error .einval
  else do
    let flags ← load Refusal.overrun buf 2
    if 128 ≤ flags.toNat ∨ be16 qdHi qdLo ≠ 1 then .error .einval
    else do
      let name ← storeSlice Refusal.overflow name 0 [0]
      let s ← copyLabels buf name.length (name.length + 1) ⟨12,len - 12,0,name,none⟩
      let buf ← bumpEdns0 buf (be16 arHi arLo) s
      .ok (s.name,buf)

section

variable {mem : List UInt8} (rest : List UInt8)

theorem load_extends {i : Nat} {b : UInt8} (h : load Refusal.overrun mem i = .ok b) :
    load Refusal.overrun (mem ++ rest) i = .ok b := by
  have hb := load_eq_ok h
  exact load_some (by rw [getElem?_append_left (List.getElem?_eq_some_iff.mp hb).1,hb])

theorem cstring_extends {xs : List UInt8} (h : 0 ∈ xs) : cstring (xs ++ rest) = cstring xs := by
  unfold cstring
  rw [takeWhile_append,if_neg]
  intro hlen
  have hall := (takeWhile_eq_self_iff.mp (IsPrefix.eq_of_length
    (List.takeWhile_prefix _) hlen)) 0 h
  simp at hall

theorem labelText_extends {start n : Nat} {t : List UInt8} (h : labelText mem start n = .ok t) :
    labelText (mem ++ rest) start n = .ok t := by
  have happ : ((mem ++ rest).drop start).take n =
      (mem.drop start).take n ++ (rest.drop (start - mem.length)).take (n - (mem.drop start).length) := by
    rw [drop_append,take_append]
  unfold labelText at h ⊢
  dsimp only at h ⊢
  rw [happ]
  split at h
  · rename_i hok
    cases h
    rcases hok with hlen | hzero
    · have hn : n - (mem.drop start).length = 0 := by
        rw [length_take] at hlen
        omega
      rw [hn,take_zero,append_nil,if_pos (.inl hlen)]
    · rw [if_pos (.inr (mem_append_left _ hzero)),cstring_extends _ hzero]
  · cases h

theorem copyLabels_extends {size fuel : Nat} {s s' : Scan}
    (h : copyLabels mem size fuel s = .ok s') : copyLabels (mem ++ rest) size fuel s = .ok s' := by
  induction fuel generalizing s with
  | zero => cases h
  | succ fuel ih =>
    unfold copyLabels at h ⊢
    split_ifs at h ⊢ with hrem
    · exact h
    obtain ⟨labelLen,hload,h⟩ := bind_eq_ok h
    rw [load_extends rest hload,bind_ok]
    dsimp only at h ⊢
    split_ifs at h ⊢
    · exact h
    · obtain ⟨t,ht,h⟩ := bind_eq_ok h
      obtain ⟨name,hname,h⟩ := bind_eq_ok h
      rw [labelText_extends rest ht,bind_ok,hname,bind_ok]
      exact ih h

theorem bumpEdns0_extends {arcount : Nat} {s : Scan} {mem' : List UInt8}
    (h : bumpEdns0 mem arcount s = .ok mem') :
    bumpEdns0 (mem ++ rest) arcount s = .ok (mem' ++ rest) ∧ mem'.length = mem.length := by
  unfold bumpEdns0 at h ⊢
  cases hl : s.lastLabel with
  | none =>
    rw [hl] at h
    cases h
    exact ⟨rfl,rfl⟩
  | some label =>
    simp only [hl] at h ⊢
    split_ifs at h ⊢ with hskip
    · cases h
      exact ⟨rfl,rfl⟩
    obtain ⟨root,hroot,h⟩ := bind_eq_ok h
    obtain ⟨hi,hhi,h⟩ := bind_eq_ok h
    obtain ⟨lo,hlo,h⟩ := bind_eq_ok h
    rw [load_extends rest hroot,bind_ok,load_extends rest hhi,bind_ok,
      load_extends rest hlo,bind_ok]
    split_ifs at h ⊢
    · obtain ⟨sizeHi,hsh,h⟩ := bind_eq_ok h
      obtain ⟨sizeLo,hsl,h⟩ := bind_eq_ok h
      rw [load_extends rest hsh,bind_ok,load_extends rest hsl,bind_ok]
      have h1 := (List.getElem?_eq_some_iff.mp (load_eq_ok hsh)).1
      have h2 := (List.getElem?_eq_some_iff.mp (load_eq_ok hsl)).1
      split_ifs at h ⊢
      · cases h
        rw [set_append_left _ _ h1,set_append_left _ _ (by rwa [length_set])]
        exact ⟨rfl,by simp⟩
      · cases h
        exact ⟨rfl,rfl⟩
    · cases h
      exact ⟨rfl,rfl⟩

theorem parseRequest_extends {len : Nat} {name name' mem' : List UInt8}
    (h : parseRequest mem len name = .ok (name',mem')) :
    parseRequest (mem ++ rest) len name = .ok (name',mem' ++ rest) ∧
      mem'.length = mem.length := by
  unfold parseRequest at h ⊢
  obtain ⟨qdHi,hqdHi,h⟩ := bind_eq_ok h
  obtain ⟨qdLo,hqdLo,h⟩ := bind_eq_ok h
  obtain ⟨arHi,harHi,h⟩ := bind_eq_ok h
  obtain ⟨arLo,harLo,h⟩ := bind_eq_ok h
  rw [load_extends rest hqdHi,bind_ok,load_extends rest hqdLo,bind_ok,
    load_extends rest harHi,bind_ok,load_extends rest harLo,bind_ok]
  split_ifs at h ⊢ with hlen
  obtain ⟨flags,hflags,h⟩ := bind_eq_ok h
  rw [load_extends rest hflags,bind_ok]
  split_ifs at h ⊢
  obtain ⟨_,hname,h⟩ := bind_eq_ok h
  obtain ⟨s,hs,h⟩ := bind_eq_ok h
  obtain ⟨m,hm,h⟩ := bind_eq_ok h
  cases h
  obtain ⟨hm',hlen'⟩ := bumpEdns0_extends rest hm
  rw [hname,bind_ok,copyLabels_extends rest hs,bind_ok,hm',bind_ok]
  exact ⟨rfl,hlen'⟩

end

end FuzzingTargets.DnsProxy
