import FuzzingTargets.Libbw64.FrameSize

namespace FuzzingTargets.Bw64
open LittleEndian Riff Checked

inductive Move where
  | seek (offset : Int32) (way : Reader.Seekdir)
  | read (rawDataBuffer : List UInt8) (frames : UInt64)

variable (r : Reader)

def Move.run : Move → Except Trap (Nat × Reader)
  | .seek offset way => (throwing (r.seek offset.toInt way)).map fun r' => (0,r')
  | .read raw frames => (r.readOrTrap raw frames.toNat).map fun read => (read.1,read.2.2)

namespace Reader

def dataStart : Nat :=
  match r.getChunkHeader dataId with
  | .ok h => h.position + 8
  | .error _ => 0

def seekBase : Seekdir → Int
  | .beg => r.dataStart
  | .cur => r.stream.tellg.1
  | .fin => r.dataStart + r.dataChunkSize

def seekTarget (offset : Int32) (way : Seekdir) : Int :=
  r.seekBase way + offset.toInt * r.blockAlignment

def landing (target : Int) : Int :=
  max (r.dataStart : Int) (min (r.dataStart + r.dataChunkSize) target)

def currentFrame : Nat := (r.stream.pos - r.dataStart) / r.blockAlignment

def framesTaken (frames : Nat) : Nat := min frames (r.numberOfFrames - r.currentFrame)

structure DataInside : Prop where
  located : ∃ h, r.getChunkHeader dataId = .ok h
  inside : r.dataStart + r.dataChunkSize ≤ r.stream.file.length
  addressable : r.stream.file.length < 2 ^ 63
  aligned : r.blockAlignment ≠ 0

structure OnFrame : Prop where
  position : ∃ k : Nat, r.stream.tellg.1 = r.dataStart + k * r.blockAlignment ∧
    k * r.blockAlignment ≤ r.dataChunkSize
  tell : ∃ k, r.tellOrTrap = .ok (k,r) ∧ k ≤ r.numberOfFrames

end Reader

def Move.Meets (n : Nat) (r' : Reader) : Move → Prop
  | .seek offset way => r'.stream.tellg.1 = r.landing (r.seekTarget offset way)
  | .read _ frames => ∃ k, r.tellOrTrap = .ok (k,r) ∧
      n = min frames.toNat (r.numberOfFrames - k) ∧ r'.tellOrTrap = .ok (k + n,r')

def Move.Guarded : Move → Prop
  | .seek offset way => r.seekTarget offset way < 2 ^ 63 ∧
      (r.blockAlignment ∣ r.dataChunkSize ∨ r.seekTarget offset way < r.dataStart ∨
        way ≠ .fin ∧ r.seekTarget offset way ≤ r.dataStart + r.dataChunkSize)
  | .read _ frames => r.currentFrame + frames.toNat < 2 ^ 64 ∧
      r.decodedBytes (r.framesTaken frames.toNat) ≤ r.framesTaken frames.toNat * r.blockAlignment

def ProperRun (r : Reader) : List Move → Prop
  | [] => r.OnFrame
  | m :: ms => r.OnFrame ∧ ∃ n r', m.run r = .ok (n,r') ∧ m.Meets r n r' ∧ ProperRun r' ms

def GuardedRun (r : Reader) : List Move → Prop
  | [] => True
  | m :: ms => m.Guarded r ∧ match m.run r with
    | .ok (_,r') => GuardedRun r' ms
    | .error _ => True

instance (r : Reader) : (m : Move) → Decidable (m.Guarded r)
  | .seek offset way => inferInstanceAs (Decidable (r.seekTarget offset way < 2 ^ 63 ∧
      (r.blockAlignment ∣ r.dataChunkSize ∨ r.seekTarget offset way < r.dataStart ∨
        way ≠ .fin ∧ r.seekTarget offset way ≤ r.dataStart + r.dataChunkSize)))
  | .read _ frames => inferInstanceAs (Decidable (r.currentFrame + frames.toNat < 2 ^ 64 ∧
      r.decodedBytes (r.framesTaken frames.toNat) ≤ r.framesTaken frames.toNat * r.blockAlignment))

instance decidableGuardedRun (r : Reader) : (ms : List Move) → Decidable (GuardedRun r ms)
  | [] => inferInstanceAs (Decidable True)
  | m :: ms =>
    have : Decidable (match m.run r with
        | .ok (_,r') => GuardedRun r' ms
        | .error _ => True) :=
      match m.run r with
      | .ok (_,r') => decidableGuardedRun r' ms
      | .error _ => inferInstanceAs (Decidable True)
    inferInstanceAs (Decidable (m.Guarded r ∧ match m.run r with
      | .ok (_,r') => GuardedRun r' ms
      | .error _ => True))

structure Reader.AtFrame (k : Nat) : Prop where
  good : r.stream.Good
  position : r.stream.pos = r.dataStart + k * r.blockAlignment
  fits : k * r.blockAlignment ≤ r.dataChunkSize

section

variable {r : Reader} {k : Nat} {s : IStream} {offset : Int32} {way : Reader.Seekdir}

theorem dataInside_stream (h : r.DataInside) (hs : s.file = r.stream.file) :
    Reader.DataInside { r with stream := s } :=
  ⟨h.located,by rw [hs]; exact h.inside,by rw [hs]; exact h.addressable,h.aligned⟩

theorem tellg_good (hs : s.Good) : s.tellg = ((s.pos : Int),s) := by
  unfold IStream.tellg
  rw [if_neg (by simp [hs.1,hs.2])]

theorem onFrame_atFrame (h : r.OnFrame) : ∃ k, r.AtFrame k := by
  obtain ⟨k,hpos,hfits⟩ := h.position
  have hgood : r.stream.Good := by
    unfold IStream.tellg at hpos
    split at hpos
    · have : (0 : Int) ≤ r.dataStart + k * r.blockAlignment := by positivity
      omega
    · rename_i hs
      simpa [IStream.Good] using hs
  refine ⟨k,hgood,?_,hfits⟩
  rw [tellg_good hgood] at hpos
  dsimp only at hpos
  exact_mod_cast hpos

theorem dataStart_eq {header : ChunkHeader} (hheader : r.getChunkHeader dataId = .ok header) :
    r.dataStart = header.position + 8 := by
  unfold Reader.dataStart
  rw [hheader]

section

variable (h : r.DataInside) (hk : r.AtFrame k)
include h hk

theorem atFrame_le : k ≤ r.numberOfFrames :=
  (Nat.le_div_iff_mul_le (Nat.pos_of_ne_zero h.aligned)).mpr hk.fits

theorem atFrame_current : r.currentFrame = k := by
  unfold Reader.currentFrame
  rw [hk.position,Nat.add_sub_cancel_left,Nat.mul_div_cancel _ (Nat.pos_of_ne_zero h.aligned)]

theorem frameOffset_eq {header : ChunkHeader} (hheader : r.getChunkHeader dataId = .ok header) :
    (((r.stream.pos : Int) - header.position - 8) % 2 ^ 64).toNat = k * r.blockAlignment := by
  have hstart := dataStart_eq hheader
  have hpos := hk.position
  have hfits := hk.fits
  have hinside := h.inside
  have hsmall := h.addressable
  generalize k * r.blockAlignment = offset at hpos hfits ⊢
  have hoff : (r.stream.pos : Int) - header.position - 8 = (offset : Int) := by omega
  rw [hoff,Int.emod_eq_of_lt (by omega) (by omega),Int.toNat_natCast]

theorem tellOrTrap_atFrame : r.tellOrTrap = .ok (k,r) := by
  obtain ⟨header,hheader⟩ := h.located
  have hoffset := frameOffset_eq h hk hheader
  have haligned : r.info.blockAlignment ≠ 0 := h.aligned
  unfold Reader.tellOrTrap
  rw [hheader,throwing,bind_ok,tellg_good hk.good]
  rw [hoffset,quotient_ok haligned,bind_ok]
  exact congrArg (fun t => Except.ok (t,r)) (Nat.mul_div_cancel k (Nat.pos_of_ne_zero h.aligned))

theorem atFrame_onFrame : r.OnFrame := by
  refine ⟨⟨k,?_,hk.fits⟩,k,tellOrTrap_atFrame h hk,atFrame_le h hk⟩
  rw [tellg_good hk.good,hk.position]
  rfl

theorem clampOrTrap_atFrame (frames : Nat) :
    r.clampOrTrap frames = .ok
      (if r.numberOfFrames < (k + frames) % 2 ^ 64 then r.numberOfFrames - k else frames,r) := by
  have htell := tellOrTrap_atFrame h hk
  have hle := atFrame_le h hk
  unfold Reader.clampOrTrap
  rw [htell,bind_ok]
  dsimp only
  rw [framesOrTrap_ok ⟨h.located,h.aligned⟩,bind_ok,htell,bind_ok]
  split
  · rw [show ((r.numberOfFrames : Int) - k) % 2 ^ 64 = ((r.numberOfFrames - k : Nat) : Int) by omega,
      Int.toNat_natCast]
  · rfl

theorem readOrTrap_atFrame (raw : List UInt8) {frames n : Nat} (hframes : k + frames < 2 ^ 64)
    (hn : min frames (r.numberOfFrames - k) = n) :
    ∃ bytes s, r.readOrTrap raw frames =
        (if n * r.blockAlignment < r.decodedBytes n then .error .outOfBounds
          else .ok (n,bytes,{ r with stream := s })) ∧
      s.file = r.stream.file ∧ Reader.AtFrame { r with stream := s } (k + n) := by
  have hle := atFrame_le h hk
  have hcount : (if r.numberOfFrames < (k + frames) % 2 ^ 64 then r.numberOfFrames - k else frames) =
      n := by
    rw [Nat.mod_eq_of_lt hframes]
    split <;> omega
  have hcap : k + n ≤ r.numberOfFrames := by omega
  have hwhole : (k + n) * r.blockAlignment ≤ r.dataChunkSize :=
    (Nat.mul_le_mul_right _ hcap).trans (Nat.div_mul_le_self _ _)
  have hinside := h.inside
  have hsmall := h.addressable
  have hpos := hk.position
  have hfit := hwhole
  rw [Nat.add_mul] at hfit
  unfold Reader.readOrTrap
  rw [clampOrTrap_atFrame h hk,hcount,bind_ok]
  dsimp only
  rw [Nat.mod_eq_of_lt (by omega),if_neg (by unfold maxSize; omega)]
  refine ⟨_,_,rfl,read_file _,?_⟩
  rw [read_within _ hk.good (by omega)]
  refine ⟨hk.good,?_,hwhole⟩
  change r.stream.pos + n * r.blockAlignment = r.dataStart + (k + n) * r.blockAlignment
  rw [hpos,Nat.add_mul,Nat.add_assoc]

theorem readOrTrap_wraps (raw : List UInt8) {frames : Nat} (hframes : 2 ^ 64 ≤ k + frames)
    (hlt : frames < 2 ^ 64) : r.readOrTrap raw frames = .error .lengthError := by
  have hle := atFrame_le h hk
  have hinside := h.inside
  have hsmall := h.addressable
  have hfits := hk.fits
  obtain ⟨m,hm,hmpos,hmk⟩ : ∃ m, frames + m = 2 ^ 64 ∧ 0 < m ∧ m ≤ k :=
    ⟨2 ^ 64 - frames,by omega,by omega,by omega⟩
  have hmbytes : m * r.blockAlignment ≤ k * r.blockAlignment := Nat.mul_le_mul_right _ hmk
  have hmbytes_pos : 0 < m * r.blockAlignment := Nat.mul_pos hmpos (Nat.pos_of_ne_zero h.aligned)
  have hsum : frames * r.blockAlignment + m * r.blockAlignment = 2 ^ 64 * r.blockAlignment := by
    rw [← Nat.add_mul,hm]
  have hlarge : maxSize < frames * r.blockAlignment % 2 ^ 64 := by
    unfold maxSize
    generalize frames * r.blockAlignment = x at hsum ⊢
    generalize m * r.blockAlignment = y at hsum hmbytes hmbytes_pos
    omega
  unfold Reader.readOrTrap
  rw [clampOrTrap_atFrame h hk,if_neg (by omega),bind_ok]
  dsimp only
  rw [if_pos hlarge]

end

theorem restart_seekg (s : IStream) (n : Nat) {target : Int} (h : 0 ≤ target) :
    (s.restart n).seekg target = s.restart target.toNat := by
  unfold IStream.seekg
  rw [if_neg (by simp [IStream.restart]),if_neg (by omega)]
  rfl

theorem clear_seekg (s : IStream) {target : Int} (h : 0 ≤ target) :
    s.clear.seekg target = s.restart target.toNat := restart_seekg s s.pos h

def jump (r : Reader) (offset : Int32) (way : Reader.Seekdir) : IStream :=
  if offset.toInt * r.blockAlignment < 0 ∧
      r.seekBase way < -(offset.toInt * r.blockAlignment) then r.stream.clear.seekg 0
  else r.stream.clear.seekg (IStream.streamoff (r.seekTarget offset way))

def settle (r : Reader) (s : IStream) : IStream :=
  if s.tellg.1 < r.dataStart then s.seekg r.dataStart
  else if (r.dataStart : Int) + r.dataChunkSize < s.tellg.1 then
    s.seekg (r.dataStart + r.dataChunkSize)
  else s

theorem settle_restart (r : Reader) (s : IStream) {n : Int} (hn : 0 ≤ n) :
    settle r (s.restart n.toNat) = s.restart (r.landing n).toNat := by
  have htell : (s.restart n.toNat).tellg.1 = n := Int.toNat_of_nonneg hn
  unfold settle Reader.landing
  split
  · rw [restart_seekg s _ (by omega),max_eq_left (by omega)]
  · split
    · rw [restart_seekg s _ (by omega),min_eq_left (by omega),max_eq_right (by omega)]
    · rw [min_eq_right (by omega),max_eq_right (by omega)]

theorem settle_failed (r : Reader) (hs : s.fail = true) : (settle r s).fail = true := by
  have hseek : ∀ target, (s.seekg target).fail = true := by
    intro target
    unfold IStream.seekg
    rw [if_pos hs]
    exact hs
  unfold settle
  split
  · exact hseek _
  · split
    · exact hseek _
    · exact hs

theorem landing_bounds (r : Reader) (target : Int) : (r.dataStart : Int) ≤ r.landing target ∧
    r.landing target ≤ r.dataStart + r.dataChunkSize := by
  unfold Reader.landing
  omega

theorem seekBase_bounds (hk : r.AtFrame k) (way : Reader.Seekdir) :
    0 ≤ r.seekBase way ∧ r.seekBase way ≤ r.dataStart + r.dataChunkSize := by
  have hpos := hk.position
  have hfits := hk.fits
  cases way with
  | beg =>
    change (0 : Int) ≤ r.dataStart ∧ (r.dataStart : Int) ≤ r.dataStart + r.dataChunkSize
    omega
  | cur =>
    change (0 : Int) ≤ r.stream.tellg.1 ∧ r.stream.tellg.1 ≤ r.dataStart + r.dataChunkSize
    rw [tellg_good hk.good]
    omega
  | fin =>
    change (0 : Int) ≤ r.dataStart + r.dataChunkSize ∧ _ ≤ _
    exact ⟨by omega,le_rfl⟩

theorem seekBase_aligned (hk : r.AtFrame k) (hway : way ≠ .fin) :
    (r.blockAlignment : Int) ∣ r.seekBase way - r.dataStart := by
  cases way with
  | beg =>
    change (r.blockAlignment : Int) ∣ (r.dataStart : Int) - r.dataStart
    rw [sub_self]
    exact dvd_zero _
  | cur =>
    change (r.blockAlignment : Int) ∣ r.stream.tellg.1 - r.dataStart
    rw [tellg_good hk.good]
    rw [hk.position]
    push_cast
    rw [add_sub_cancel_left]
    exact dvd_mul_left _ _
  | fin => exact absurd rfl hway

theorem landing_aligned_iff (hk : r.AtFrame k) (offset : Int32) (way : Reader.Seekdir) :
    (r.blockAlignment : Int) ∣ r.landing (r.seekTarget offset way) - r.dataStart ↔
      r.blockAlignment ∣ r.dataChunkSize ∨ r.seekTarget offset way < r.dataStart ∨
        way ≠ .fin ∧ r.seekTarget offset way ≤ r.dataStart + r.dataChunkSize := by
  have hmoved : r.seekTarget offset way - r.dataStart =
      r.seekBase way - r.dataStart + offset.toInt * r.blockAlignment := by
    unfold Reader.seekTarget
    ring
  by_cases hlow : r.seekTarget offset way < r.dataStart
  · have hland : r.landing (r.seekTarget offset way) - r.dataStart = 0 := by
      unfold Reader.landing
      omega
    rw [hland]
    exact ⟨fun _ => .inr (.inl hlow),fun _ => dvd_zero _⟩
  by_cases hhigh : r.seekTarget offset way ≤ r.dataStart + r.dataChunkSize
  · have hland : r.landing (r.seekTarget offset way) = r.seekTarget offset way := by
      unfold Reader.landing
      omega
    rw [hland,hmoved,dvd_add_left (dvd_mul_left _ _)]
    by_cases hway : way = .fin
    · subst hway
      have hend : r.seekBase .fin - r.dataStart = r.dataChunkSize := by
        change (r.dataStart : Int) + r.dataChunkSize - r.dataStart = r.dataChunkSize
        ring
      rw [hend,Int.natCast_dvd_natCast]
      exact ⟨.inl,fun h => h.elim id fun h => h.elim (absurd · hlow) fun h => absurd rfl h.1⟩
    · exact ⟨fun _ => .inr (.inr ⟨hway,hhigh⟩),fun _ => seekBase_aligned hk hway⟩
  have hland : r.landing (r.seekTarget offset way) - r.dataStart = r.dataChunkSize := by
    unfold Reader.landing
    omega
  rw [hland,Int.natCast_dvd_natCast]
  exact ⟨.inl,fun h => h.elim id fun h => h.elim (absurd · hlow) fun h => absurd h.2 hhigh⟩

section

variable (h : r.DataInside)
include h

theorem seekTarget_lt (hbase : r.seekBase way ≤ r.dataStart + r.dataChunkSize) :
    r.seekTarget offset way < 2 ^ 64 := by
  have hoffset := offset.toInt_lt
  have halign := blockAlignment_lt r
  have hinside := h.inside
  have hsmall := h.addressable
  have hmul : offset.toInt * (r.blockAlignment : Int) ≤ 2 ^ 31 * r.blockAlignment :=
    Int.mul_le_mul_of_nonneg_right hoffset.le (by omega)
  unfold Reader.seekTarget
  omega

theorem seek_eq (offset : Int32) (way : Reader.Seekdir) :
    r.seek offset.toInt way = .ok { r with stream := settle r (jump r offset way) } := by
  obtain ⟨header,hheader⟩ := h.located
  have hstart := dataStart_eq hheader
  have hinside := h.inside
  have hsmall := h.addressable
  have hposition : IStream.streamoff ((header.position : Int) + 8) = r.dataStart := by
    rw [hstart]
    exact_mod_cast streamoff_small (n := header.position + 8) (by omega)
  have hend : IStream.streamoff ((r.dataStart : Int) + r.dataChunkSize) =
      r.dataStart + r.dataChunkSize := by
    exact_mod_cast streamoff_small (n := r.dataStart + r.dataChunkSize) (by omega)
  unfold Reader.seek
  rw [hheader,bind_ok]
  dsimp only
  rw [hposition,hend]
  cases way <;> rfl

theorem seek_lands (hbase : 0 ≤ r.seekBase way) (htarget : r.seekTarget offset way < 2 ^ 63) :
    r.seek offset.toInt way =
      .ok { r with stream := r.stream.restart (r.landing (r.seekTarget offset way)).toNat } := by
  rw [seek_eq h]
  have htargetDef : r.seekTarget offset way =
    r.seekBase way + offset.toInt * r.blockAlignment := rfl
  unfold jump
  split
  · rw [clear_seekg _ le_rfl,settle_restart r _ le_rfl]
    unfold Reader.landing
    rw [max_eq_left (by omega),max_eq_left (by omega)]
  have hnonneg : 0 ≤ r.seekTarget offset way := by omega
  have hwrap : IStream.streamoff (r.seekTarget offset way) = r.seekTarget offset way := by
    unfold IStream.streamoff
    rw [Int.bmod_eq_of_le (by omega) (by omega)]
  rw [hwrap,clear_seekg _ hnonneg,settle_restart r _ hnonneg]

theorem seek_overflows (hbase : r.seekBase way ≤ r.dataStart + r.dataChunkSize)
    (htarget : 2 ^ 63 ≤ r.seekTarget offset way) :
    ∃ s, r.seek offset.toInt way = .ok { r with stream := s } ∧ s.fail = true := by
  refine ⟨_,seek_eq h offset way,settle_failed r ?_⟩
  have hlt : r.seekTarget offset way < 2 ^ 64 := seekTarget_lt h hbase
  have htargetDef : r.seekTarget offset way =
    r.seekBase way + offset.toInt * r.blockAlignment := rfl
  have hwrap : IStream.streamoff (r.seekTarget offset way) < 0 := by
    unfold IStream.streamoff
    rw [Int.bmod_def]
    omega
  unfold jump
  rw [if_neg (by omega)]
  unfold IStream.seekg
  rw [if_neg (by simp [IStream.clear]),if_pos hwrap]

theorem landed_atFrame_iff (target : Int) :
    (∃ k, Reader.AtFrame { r with stream := r.stream.restart (r.landing target).toNat } k) ↔
      (r.blockAlignment : Int) ∣ r.landing target - r.dataStart := by
  obtain ⟨hlow,hhigh⟩ := landing_bounds r target
  constructor
  · rintro ⟨k,-,hpos,-⟩
    change (r.landing target).toNat = r.dataStart + k * r.blockAlignment at hpos
    have hland : r.landing target - r.dataStart = (k * r.blockAlignment : Nat) := by omega
    rw [hland]
    push_cast
    exact dvd_mul_left _ _
  rintro ⟨k,hk⟩
  have halign := h.aligned
  have hnonneg : 0 ≤ k := by
    by_contra hneg
    have : (r.blockAlignment : Int) * k < 0 :=
      Int.mul_neg_of_pos_of_neg (by omega) (by omega)
    omega
  obtain ⟨k,rfl⟩ := Int.eq_ofNat_of_zero_le hnonneg
  have hcast : (r.blockAlignment : Int) * k = ((k * r.blockAlignment : Nat) : Int) := by
    push_cast
    ring
  refine ⟨k,⟨rfl,rfl⟩,?_,?_⟩
  · change (r.landing target).toNat = r.dataStart + k * r.blockAlignment
    omega
  · change k * r.blockAlignment ≤ r.dataChunkSize
    omega

end

def Move.Lands (r : Reader) (m : Move) : Prop :=
  ∃ n r' k', m.run r = .ok (n,r') ∧ m.Meets r n r' ∧ r'.DataInside ∧ r'.AtFrame k'

theorem properRun_onFrame {ms : List Move} (h : ProperRun r ms) : r.OnFrame := by
  cases ms with
  | nil => exact h
  | cons m ms => exact h.1

section

variable (h : r.DataInside) (hk : r.AtFrame k)
include h hk

theorem seek_guarded (hguard : (Move.seek offset way).Guarded r) :
    (Move.seek offset way).Lands r := by
  obtain ⟨hsmall,haligned⟩ := hguard
  obtain ⟨hbase,-⟩ := seekBase_bounds hk way
  have hlow := (landing_bounds r (r.seekTarget offset way)).1
  obtain ⟨k',hk'⟩ := (landed_atFrame_iff h (r.seekTarget offset way)).mpr
    ((landing_aligned_iff hk offset way).mpr haligned)
  refine ⟨0,_,k',?_,?_,?_,hk'⟩
  · rw [Move.run,seek_lands h hbase hsmall]
    rfl
  · exact Int.toNat_of_nonneg (by omega)
  · exact dataInside_stream h rfl

theorem seek_unguarded (hguard : ¬(Move.seek offset way).Guarded r) {n : Nat} {r' : Reader}
    (hrun : (Move.seek offset way).run r = .ok (n,r')) (k' : Nat) : ¬r'.AtFrame k' := by
  intro hk'
  obtain ⟨hbase,hend⟩ := seekBase_bounds hk way
  by_cases hsmall : r.seekTarget offset way < 2 ^ 63
  · rw [Move.run,seek_lands h hbase hsmall] at hrun
    cases hrun
    exact hguard ⟨hsmall,(landing_aligned_iff hk offset way).mp
      ((landed_atFrame_iff h _).mp ⟨k',hk'⟩)⟩
  obtain ⟨s,hseek,hfail⟩ := seek_overflows h hend (not_lt.mp hsmall)
  rw [Move.run,hseek] at hrun
  cases hrun
  have hgood : s.fail = false := hk'.good.2
  rw [hfail] at hgood
  cases hgood

theorem framesTaken_eq (frames : Nat) : min frames (r.numberOfFrames - k) = r.framesTaken frames := by
  rw [Reader.framesTaken,atFrame_current h hk]

theorem read_guarded {raw : List UInt8} {frames : UInt64}
    (hguard : (Move.read raw frames).Guarded r) : (Move.read raw frames).Lands r := by
  obtain ⟨hframes,hdecoded⟩ := hguard
  rw [atFrame_current h hk] at hframes
  have hn := framesTaken_eq h hk frames.toNat
  obtain ⟨bytes,s,hread,hfile,hat⟩ := readOrTrap_atFrame h hk raw hframes hn
  rw [if_neg (not_lt.mpr hdecoded)] at hread
  have hinside := dataInside_stream h hfile
  refine ⟨_,_,_,?_,⟨k,tellOrTrap_atFrame h hk,hn.symm,tellOrTrap_atFrame hinside hat⟩,
    hinside,hat⟩
  rw [Move.run,hread]
  rfl

theorem read_unguarded {raw : List UInt8} {frames : UInt64}
    (hguard : ¬(Move.read raw frames).Guarded r) :
    ∃ trap, (Move.read raw frames).run r = .error trap := by
  by_cases hframes : k + frames.toNat < 2 ^ 64
  · have hn := framesTaken_eq h hk frames.toNat
    obtain ⟨bytes,s,hread,-⟩ := readOrTrap_atFrame h hk raw hframes hn
    have hdecoded : r.framesTaken frames.toNat * r.blockAlignment <
        r.decodedBytes (r.framesTaken frames.toNat) := by
      rw [← atFrame_current h hk] at hframes
      exact not_le.mp fun hle => hguard ⟨hframes,hle⟩
    rw [if_pos hdecoded] at hread
    exact ⟨.outOfBounds,by rw [Move.run,hread]; rfl⟩
  · refine ⟨.lengthError,?_⟩
    rw [Move.run,readOrTrap_wraps h hk raw (not_lt.mp hframes) frames.toNat_lt]
    rfl

theorem move_guarded {m : Move} (hguard : m.Guarded r) : m.Lands r := by
  cases m with
  | seek offset way => exact seek_guarded h hk hguard
  | read raw frames => exact read_guarded h hk hguard

theorem move_unguarded {m : Move} (hguard : ¬m.Guarded r) {n : Nat} {r' : Reader}
    (hrun : m.run r = .ok (n,r')) : ¬r'.OnFrame := by
  intro hframe
  obtain ⟨k',hk'⟩ := onFrame_atFrame hframe
  cases m with
  | seek offset way => exact seek_unguarded h hk hguard hrun k' hk'
  | read raw frames =>
    obtain ⟨trap,htrap⟩ := read_unguarded h hk hguard
    rw [htrap] at hrun
    cases hrun

theorem properRun_iff (ms : List Move) : ProperRun r ms ↔ GuardedRun r ms := by
  induction ms generalizing r k with
  | nil => exact ⟨fun _ => trivial,fun _ => atFrame_onFrame h hk⟩
  | cons m ms ih =>
    by_cases hguard : m.Guarded r
    · obtain ⟨n,r',k',hrun,hmeets,hinside,hat⟩ := move_guarded h hk hguard
      rw [GuardedRun,hrun]
      constructor
      · rintro ⟨-,n1,r1,hrun1,-,hrest⟩
        rw [hrun] at hrun1
        cases hrun1
        exact ⟨hguard,(ih hinside hat).mp hrest⟩
      · rintro ⟨-,hrest⟩
        exact ⟨atFrame_onFrame h hk,n,r',hrun,hmeets,(ih hinside hat).mpr hrest⟩
    constructor
    · rintro ⟨-,n,r',hrun,-,hrest⟩
      exact absurd (properRun_onFrame hrest) (move_unguarded h hk hguard hrun)
    · exact fun hrun => absurd hrun.1 hguard

end

theorem opened_atFrame {fuel : Nat} {file : List UInt8} {stale : Nat → Nat → UInt8}
    (h : Reader.readFile fuel file stale = .ok r) (hsmall : file.length < 2 ^ 63)
    (hinside : r.dataStart + r.dataChunkSize ≤ file.length) (haligned : 0 < r.blockAlignment) :
    r.DataInside ∧ r.AtFrame 0 := by
  obtain ⟨r0,hfile,hseek⟩ := readFile_stream h
  obtain ⟨header,hheader,-⟩ := bind_eq_ok hseek
  obtain ⟨s,hstream⟩ := seek_ok (r := r0) 0 .beg ⟨header,hheader⟩
  rw [hseek] at hstream
  cases hstream
  have h0 : r0.DataInside :=
    ⟨⟨header,hheader⟩,by rwa [hfile],by rwa [hfile],haligned.ne'⟩
  have htarget : r0.seekTarget 0 .beg = r0.dataStart := by
    change (r0.dataStart : Int) + (0 : Int32).toInt * r0.blockAlignment = r0.dataStart
    rw [show (0 : Int32).toInt = 0 from rfl,zero_mul,add_zero]
  have hland : r0.landing (r0.seekTarget 0 .beg) = r0.dataStart := by
    unfold Reader.landing
    omega
  have hbound : (r0.dataStart : Int) < 2 ^ 63 := by
    have hend : r0.dataStart + r0.dataChunkSize ≤ file.length := hinside
    omega
  have hbase : 0 ≤ r0.seekBase .beg := Int.natCast_nonneg _
  have hopen := seek_lands h0 hbase (htarget ▸ hbound)
  rw [show (0 : Int32).toInt = 0 from rfl,hseek,hland,Int.toNat_natCast] at hopen
  rw [Except.ok.inj hopen]
  refine ⟨dataInside_stream h0 rfl,⟨rfl,rfl⟩,?_,?_⟩
  · change r0.dataStart = r0.dataStart + 0 * r0.blockAlignment
    omega
  · change 0 * r0.blockAlignment ≤ r0.dataChunkSize
    omega

end

theorem readFile_cursor_iff {fuel : Nat} {file : List UInt8} {stale : Nat → Nat → UInt8} {r : Reader}
    (h : Reader.readFile fuel file stale = .ok r) (hsmall : file.length < 2 ^ 63)
    (hinside : r.dataStart + r.dataChunkSize ≤ file.length) (haligned : 0 < r.blockAlignment)
    (ms : List Move) : ProperRun r ms ↔ GuardedRun r ms := by
  obtain ⟨hdata,hframe⟩ := opened_atFrame h hsmall hinside haligned
  exact properRun_iff hdata hframe ms

def monoFile (content : List UInt8) : List UInt8 :=
  le 4 riffId.toNat ++ le 4 (36 + content.length) ++ le 4 waveId.toNat ++ header fmtId 16 ++ le 2 1 ++
    le 2 1 ++ le 4 48000 ++ le 4 96000 ++ le 2 2 ++ le 2 16 ++ header dataId content.length ++ content

theorem monoFile_cursor :
    ∃ r, Reader.readFile 3 (monoFile [1,2,3,4]) (fun _ _ => 0) = .ok r ∧
      ProperRun r [.seek 1 .beg,.read [] 5,.seek (-1) .fin,.read [] 1] := by
  obtain ⟨r,hopen,hinside,haligned,hguard⟩ : ∃ r,
      Reader.readFile 3 (monoFile [1,2,3,4]) (fun _ _ => 0) = .ok r ∧
        r.dataStart + r.dataChunkSize ≤ (monoFile [1,2,3,4]).length ∧ 0 < r.blockAlignment ∧
        GuardedRun r [.seek 1 .beg,.read [] 5,.seek (-1) .fin,.read [] 1] :=
    ⟨_,rfl,by decide +kernel,by decide +kernel,by decide +kernel⟩
  exact ⟨r,hopen,(readFile_cursor_iff hopen (by decide) hinside haligned _).mpr hguard⟩

theorem oddFile_cursor_lost :
    ∃ r, Reader.readFile 3 (monoFile [1,2,3,4,5]) (fun _ _ => 0) = .ok r ∧
      r.dataStart + r.dataChunkSize ≤ (monoFile [1,2,3,4,5]).length ∧ 0 < r.blockAlignment ∧
      ¬ProperRun r [.seek 0 .fin] ∧ ¬ProperRun r [.seek 1 .beg,.read [] (-1)] := by
  obtain ⟨r,hopen,hinside,haligned,hend,hwrap⟩ : ∃ r,
      Reader.readFile 3 (monoFile [1,2,3,4,5]) (fun _ _ => 0) = .ok r ∧
        r.dataStart + r.dataChunkSize ≤ (monoFile [1,2,3,4,5]).length ∧ 0 < r.blockAlignment ∧
        ¬GuardedRun r [.seek 0 .fin] ∧ ¬GuardedRun r [.seek 1 .beg,.read [] (-1)] :=
    ⟨_,rfl,by decide +kernel,by decide +kernel,by decide +kernel,by decide +kernel⟩
  obtain ⟨hdata,hframe⟩ := opened_atFrame hopen (by decide) hinside haligned
  exact ⟨r,hopen,hinside,haligned,fun h => hend ((properRun_iff hdata hframe _).mp h),
    fun h => hwrap ((properRun_iff hdata hframe _).mp h)⟩

end FuzzingTargets.Bw64
