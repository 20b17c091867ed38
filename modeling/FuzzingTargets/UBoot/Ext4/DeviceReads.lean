import FuzzingTargets.UBoot.Ext4.Mount

namespace FuzzingTargets.UBoot.Ext4
open Memory

inductive Part where
  | head
  | short
  | blocks
  | tail
  deriving DecidableEq

structure Partition extends Device where
  fails : Part → Bool

structure Access where
  sector : Nat
  byteOffset : Nat
  byteLen : Nat

def copied (buf : Buffer) (o n : Nat) (src : Buffer) : Buffer :=
  fun k => if o ≤ k ∧ k < o + n then src (k - o) else buf k

section

variable (d : Partition) (stale : Buffer)

def blkDread (part : Part) (sector : Nat) : Buffer :=
  if d.fails part then stale else d.byte sector

def readAligned (sector byteLen o : Nat) (buf : Buffer) : Bool × Buffer :=
  let blockLen := byteLen / d.blksz * d.blksz
  if byteLen = 0 then (true,buf)
  else if blockLen = 0 then (true,copied buf o byteLen (blkDread d stale .short sector))
  else
    let buf := copied buf o blockLen (blkDread d stale .blocks sector)
    if d.fails .blocks then (false,buf)
    else if byteLen - blockLen = 0 then (true,buf)
    else if d.fails .tail then (false,buf)
    else (true,copied buf (o + blockLen) (byteLen - blockLen)
      (blkDread d stale .tail (sector + blockLen / d.blksz)))

def readOutside (a : Access) : Bool :=
  d.sectors ≤ unsigned 64 (a.sector + signed 32 (a.byteOffset + a.byteLen - 1) / d.blksz)

def readHead (a : Access) (buf : Buffer) : Option (Nat × Nat × Buffer) :=
  let sector := a.sector + a.byteOffset / d.blksz
  let offset := a.byteOffset % d.blksz
  if offset = 0 then some (sector,0,buf)
  else if d.fails .head then none
  else
    let readlen := min (d.blksz - offset) a.byteLen
    some (sector + 1,readlen,
      copied buf 0 readlen fun k => blkDread d stale .head sector (offset + k))

def fsDevreadInto (a : Access) (buf : Buffer) : Bool × Buffer :=
  if readOutside d a then (false,buf)
  else
    match readHead d stale a buf with
    | none => (false,buf)
    | some (sector,done,buf) => readAligned d stale sector (a.byteLen - done) done buf

end

section

variable (d : Partition) (a : Access)

def lead : Nat :=
  if a.byteOffset % d.blksz = 0 then 0 else min (d.blksz - a.byteOffset % d.blksz) a.byteLen

def Completes (n : Nat) : Prop :=
  d.blksz ≤ n → d.fails .blocks = false ∧ (n % d.blksz ≠ 0 → d.fails .tail = false)

def Accepted : Prop :=
  readOutside d a = false ∧ (a.byteOffset % d.blksz ≠ 0 → d.fails .head = false) ∧
    Completes d (a.byteLen - lead d a)

def shortFails (n : Nat) : Bool := (0 < n ∧ n < d.blksz) ∧ d.fails .short

def arrived (stale : Buffer) (n : Nat) (src : Buffer) : Buffer := if shortFails d n then stale else src

def ReadsExactly : Prop := ∀ stale buf ok out, fsDevreadInto d stale a buf = (ok,out) →
  (ok = true → ∀ k < a.byteLen, a.sector + (a.byteOffset + k) / d.blksz < d.sectors ∧
    out k = d.byte a.sector (a.byteOffset + k)) ∧ ∀ k, a.byteLen ≤ k → out k = buf k

end

section

variable {buf src : Buffer} {n o k : Nat}

theorem copied_inside (h : k < n) : copied buf o n src (o + k) = src k := by
  rw [copied,if_pos (by omega),Nat.add_sub_cancel_left]

theorem copied_outside (h : k < o ∨ o + n ≤ k) : copied buf o n src k = buf k := by
  rw [copied,if_neg (by omega)]

variable (d : Partition) (stale : Buffer)

theorem readAligned_spec (sector n o : Nat) (buf : Buffer) :
    ∃ ok out, readAligned d stale sector n o buf = (ok,out) ∧ (ok = true ↔ Completes d n) ∧
      (ok = true → ∀ k < n, out (o + k) = arrived d stale n (d.byte sector) k) ∧
      ∀ k, k < o ∨ o + n ≤ k → out k = buf k := by
  have hsplit := Nat.div_add_mod' n d.blksz
  have hmod := Nat.mod_lt n (blksz_pos d.toDevice)
  unfold readAligned
  dsimp only
  split_ifs with hzero hwhole hblocks heven htail
  · subst hzero
    exact ⟨_,_,rfl,iff_of_true rfl fun h => absurd h (by omega),fun _ k hk => absurd hk (by omega),
      fun _ _ => rfl⟩
  · refine ⟨_,_,rfl,iff_of_true rfl fun h => absurd h (by omega),fun _ k hk => ?_,
      fun _ => copied_outside⟩
    rw [copied_inside hk,blkDread,arrived]
    simp [shortFails,show 0 < n by omega,show n < d.blksz by omega]
  all_goals
    have hge : d.blksz ≤ n := Nat.le_trans (Nat.le_of_dvd (by omega) (Nat.dvd_mul_left _ _))
      (Nat.div_mul_le_self n _)
    have hlong : arrived d stale n (d.byte sector) = d.byte sector :=
      if_neg (by simp [shortFails,hge])
    refine ⟨_,_,rfl,?_,fun hret k hk => ?_,fun k hk => ?_⟩
  · simp [Completes,hge,hblocks]
  · cases hret
  · exact copied_outside (by omega)
  · simp [Completes,hge,hblocks,show n % d.blksz = 0 by omega]
  · rw [hlong,copied_inside (by omega),blkDread,if_neg hblocks]
  · exact copied_outside (by omega)
  · simp [Completes,hge,hblocks,htail,show n % d.blksz ≠ 0 by omega]
  · cases hret
  · exact copied_outside (by omega)
  · simp [Completes,hge,hblocks,htail]
  · rw [hlong]
    rcases Nat.lt_or_ge k (n / d.blksz * d.blksz) with hlow | hhigh
    · rw [copied_outside (.inl (by omega)),copied_inside hlow,blkDread,if_neg hblocks]
    obtain ⟨j,rfl⟩ := Nat.exists_eq_add_of_le hhigh
    rw [← Nat.add_assoc,copied_inside (by omega),blkDread,if_neg htail,byte_add_sectors,
      Nat.mul_div_cancel _ (blksz_pos _)]
  · rw [copied_outside (by omega),copied_outside (by omega)]

theorem readHead_cases (a : Access) (buf : Buffer) :
    a.byteOffset % d.blksz ≠ 0 ∧ d.fails .head = true ∧ readHead d stale a buf = none ∨
    (a.byteOffset % d.blksz ≠ 0 → d.fails .head = false) ∧ lead d a ≤ a.byteLen ∧ ∃ next buf',
      readHead d stale a buf = some (next,lead d a,buf') ∧
      (∀ k < lead d a, buf' k = d.byte a.sector (a.byteOffset + k)) ∧
      (∀ k, lead d a ≤ k → buf' k = buf k) ∧ ∀ k < a.byteLen - lead d a,
        d.byte next k = d.byte a.sector (a.byteOffset + (lead d a + k)) := by
  have hsplit := Nat.div_add_mod' a.byteOffset d.blksz
  have hmod := Nat.mod_lt a.byteOffset (blksz_pos d.toDevice)
  unfold readHead lead
  dsimp only
  split_ifs with hoff hhead
  · refine .inr ⟨fun h => absurd hoff h,Nat.zero_le _,_,_,rfl,nofun,fun _ _ => rfl,fun k _ => ?_⟩
    rw [byte_add_sectors]
    congr 1
    omega
  · exact .inl ⟨hoff,hhead,rfl⟩
  · refine .inr ⟨fun _ => Bool.eq_false_iff.mpr hhead,Nat.min_le_right _ _,_,_,rfl,?_,
      fun k hk => copied_outside (.inr (by omega)),fun k hk => ?_⟩
    · intro k hk
      rw [← Nat.zero_add k,copied_inside hk,blkDread,if_neg hhead,byte_add_sectors]
      congr 1
      omega
    · rw [byte_add_sectors,byte_add_sectors]
      congr 1
      omega

theorem fsDevreadInto_spec (a : Access) (buf : Buffer) : ∃ ok out,
    fsDevreadInto d stale a buf = (ok,out) ∧ (ok = true ↔ Accepted d a) ∧
      (ok = true → (∀ k < lead d a, out k = d.byte a.sector (a.byteOffset + k)) ∧
        ∀ k < a.byteLen - lead d a, out (lead d a + k) = if shortFails d (a.byteLen - lead d a)
          then stale k else d.byte a.sector (a.byteOffset + (lead d a + k))) ∧
      ∀ k, a.byteLen ≤ k → out k = buf k := by
  unfold fsDevreadInto Accepted
  by_cases hout : readOutside d a = true
  · rw [if_pos hout]
    exact ⟨_,_,rfl,by simp [hout],nofun,fun _ _ => rfl⟩
  rw [if_neg hout]
  rcases readHead_cases d stale a buf with
    ⟨hoff,hfail,hnone⟩ | ⟨hok,hle,next,buf',hsome,hhead,hkept,hnext⟩
  · rw [hnone]
    exact ⟨_,_,rfl,by simp [hoff,hfail],nofun,fun _ _ => rfl⟩
  obtain ⟨ok,out,hrun,hret,hread,hframe⟩ := readAligned_spec d stale next
    (a.byteLen - lead d a) (lead d a) buf'
  rw [hsome]
  refine ⟨ok,out,hrun,hret.trans ?_,fun htrue => ⟨fun k hk => ?_,fun k hk => ?_⟩,fun k hk => ?_⟩
  · exact ⟨fun h => ⟨Bool.eq_false_iff.mpr hout,hok,h⟩,fun h => h.2.2⟩
  · rw [hframe k (.inl hk),hhead k hk]
  · rw [hread htrue k hk,arrived,← hnext k hk]
    split <;> rfl
  · rw [hframe k (.inr (by omega)),hkept k (by omega)]

end

theorem fsDevreadInto_reliable {d : Partition} (hworks : ∀ part, d.fails part = false) {a : Access}
    (hlen : a.byteLen < 2 ^ 31) (stale buf : Buffer) :
    match fsDevread d.toDevice a.sector a.byteOffset a.byteLen with
    | .ok (some bytes) =>
      ∃ out, fsDevreadInto d stale a buf = (true,out) ∧ ∀ k < a.byteLen, out k = bytes k
    | _ => fsDevreadInto d stale a buf = (false,buf) := by
  by_cases hout : readOutside d a = true
  · have hcheck : d.sectors ≤ unsigned 64 (a.sector +
        signed 32 ((a.byteOffset : Int) + a.byteLen - 1) / d.blksz) := of_decide_eq_true hout
    rw [fsDevread,if_pos hcheck,fsDevreadInto,if_pos hout]
  have hacc : Accepted d a :=
    ⟨Bool.eq_false_iff.mpr hout,fun _ => hworks _,fun _ => ⟨hworks _,fun _ => hworks _⟩⟩
  obtain ⟨ok,out,hrun,hret,hread,-⟩ := fsDevreadInto_spec d stale a buf
  obtain rfl := hret.mpr hacc
  obtain ⟨hhead,hrest⟩ := hread rfl
  split
  · rename_i bytes hbytes
    rw [← signed_natCast hlen] at hbytes
    refine ⟨out,hrun,fun k hk => ?_⟩
    rw [fsDevread_bytes (by omega) hbytes,Device.bytes,if_pos hk]
    rcases Nat.lt_or_ge k (lead d a) with hlow | hhigh
    · exact hhead k hlow
    · obtain ⟨j,rfl⟩ := Nat.exists_eq_add_of_le hhigh
      rw [hrest j (by omega),shortFails,hworks,if_neg (by simp)]
  · rename_i hnone
    obtain ⟨r,hr⟩ := fsDevread_runs d.toDevice a.sector a.byteOffset (Int.natCast_nonneg a.byteLen)
    cases r with
    | some bytes => exact absurd hr (hnone bytes)
    | none =>
      exfalso
      unfold fsDevread at hr
      split at hr
      · rename_i hcheck
        exact hout (decide_eq_true hcheck)
      · dsimp only at hr
        split_ifs at hr <;> cases hr

theorem fsDevread_exact_iff (d : Partition) (a : Access) (hlen : 0 < a.byteLen) :
    ReadsExactly d a ↔ (Accepted d a →
      a.sector + (a.byteOffset + a.byteLen - 1) / d.blksz < d.sectors ∧
        shortFails d (a.byteLen - lead d a) = false) := by
  constructor
  · intro hex hacc
    constructor
    · obtain ⟨ok,out,hrun,hret,-⟩ := fsDevreadInto_spec d (fun _ => 0) a fun _ => 0
      have hlast := ((hex _ _ _ _ hrun).1 (hret.mpr hacc) (a.byteLen - 1) (by omega)).1
      rwa [← Nat.add_sub_assoc hlen] at hlast
    by_contra hshort
    rw [Bool.not_eq_false] at hshort
    have hpos : 0 < a.byteLen - lead d a := by
      simp only [shortFails,decide_eq_true_eq] at hshort
      exact hshort.1.1
    obtain ⟨ok,out,hrun,hret,hread,-⟩ := fsDevreadInto_spec d
      (fun _ => d.byte a.sector (a.byteOffset + lead d a) + 1) a fun _ => 0
    have hbyte := ((hex _ _ _ _ hrun).1 (hret.mpr hacc) (lead d a) (by omega)).2
    rw [← Nat.add_zero (lead d a),(hread (hret.mpr hacc)).2 0 hpos,if_pos hshort] at hbyte
    simp at hbyte
  · intro h stale buf ok out hrun
    obtain ⟨ok',out',hrun',hret,hread,hframe⟩ := fsDevreadInto_spec d stale a buf
    cases hrun.symm.trans hrun'
    refine ⟨fun hok k hk => ?_,hframe⟩
    obtain ⟨hin,hshort⟩ := h (hret.mp hok)
    refine ⟨Nat.lt_of_le_of_lt (Nat.add_le_add_left (Nat.div_le_div_right (by omega)) _) hin,?_⟩
    rcases Nat.lt_or_ge k (lead d a) with hlow | hhigh
    · exact (hread hok).1 k hlow
    · obtain ⟨j,rfl⟩ := Nat.exists_eq_add_of_le hhigh
      rw [(hread hok).2 j (by omega),hshort,if_neg Bool.false_ne_true]

def blankPartition (part : Part) : Partition where
  log2blksz := 9
  sectors := 4
  data := fun _ => 0
  wide := sector_wide
  narrow := sector_narrow
  fails := (· = part)

theorem tail_failure_reported : ReadsExactly (blankPartition .tail) ⟨1,500,600⟩ :=
  (fsDevread_exact_iff (blankPartition .tail) ⟨1,500,600⟩ (by decide)).mpr fun _ => by decide

theorem short_failure_unreported :
    (∃ out, fsDevreadInto (blankPartition .short) (fun _ => 1) ⟨1,0,100⟩ (fun _ => 0) = (true,out) ∧
      out 0 ≠ (blankPartition .short).byte 1 0) ∧ ¬ReadsExactly (blankPartition .short) ⟨1,0,100⟩ := by
  refine ⟨⟨_,rfl,by decide⟩,fun hex => ?_⟩
  have hread := (hex (fun _ => 1) (fun _ => 0) _ _ rfl).1 rfl 0 (by decide)
  exact absurd hread.2 (by decide)

end FuzzingTargets.UBoot.Ext4
