import FuzzingTargets.Libbw64.Reader
import FuzzingTargets.Foundation.Runs

namespace FuzzingTargets.Bw64
open LittleEndian Riff Checked Runs List

variable (ds64 : Option DataSize64)

def readHeader (s : IStream) : ChunkHeader × IStream :=
  let (id,s1) := s.readUninitialised 4
  let (size,s2) := s1.readUninitialised 4
  let id := UInt32.ofNat (ofLe id)
  (⟨id,getChunkSize64 ds64 id (getChunkSize64 ds64 id (ofLe size)),s.pos % 2 ^ 64⟩,s2)

def paddedSize (size : Nat) : Nat := if size % 2 = 0 then size else size + 1

def scanStep (s : IStream) (h : ChunkHeader) (s' : IStream) : Prop :=
  s.peekEof.1 = false ∧ h = (readHeader ds64 s).1 ∧
    s' = (readHeader ds64 s).2.seekCur (paddedSize h.size)

def Advances (start : IStream) : Prop :=
  ∀ s, Reach start (scanStep ds64) s → ∀ h s', scanStep ds64 s h s' →
    s.pos < s'.pos ∨ s'.peekEof.1 = true

def Finishes (start : IStream) : Prop :=
  ∃ fuel headers s, parseChunkHeaders ds64 fuel start = .ok (headers,s)

def StepsBack (s : IStream) (h : ChunkHeader) : Prop :=
  s.pos + 8 ≤ s.file.length ∧ -((s.pos : Int) + 8) ≤ IStream.streamoff (paddedSize h.size) ∧
    IStream.streamoff (paddedSize h.size) ≤ -8

def NeverStepsBack (start : IStream) : Prop :=
  ∀ s, Reach start (scanStep ds64) s → ∀ h s', scanStep ds64 s h s' → ¬StepsBack s h

section

variable {s : IStream} {n : Nat}

theorem peekEof_good (h : s.peekEof.1 = false) : s.Good ∧ s.pos < s.file.length := by
  unfold IStream.peekEof at h
  split at h
  · cases h
  rename_i hflags
  split at h
  · cases h
  · rename_i hpos
    simp only [not_or,Bool.not_eq_true] at hflags
    exact ⟨hflags,Nat.lt_of_not_le hpos⟩

theorem peekEof_within (hs : s.Good) (h : s.pos < s.file.length) : s.peekEof = (false,s) := by
  unfold IStream.peekEof
  rw [if_neg (by simp [hs.1,hs.2]),if_neg (by omega)]

theorem peekEof_failed (h : s.fail = true) : s.peekEof.1 = true := by
  unfold IStream.peekEof
  rw [if_pos (.inr h)]

theorem peekEof_beyond (h : s.file.length ≤ s.pos) : s.peekEof.1 = true := by
  unfold IStream.peekEof
  split <;> rfl

theorem read_file (fill : Nat → UInt8) : (s.read fill n).2.file = s.file := by
  unfold IStream.read
  dsimp only
  split
  · rfl
  · split <;> rfl

theorem read_within (fill : Nat → UInt8) (hs : s.Good) (h : s.pos + n ≤ s.file.length) :
    (s.read fill n).2 = s.skip n := by
  unfold IStream.read
  rw [if_neg (by simp [hs.1,hs.2]),if_neg (by rw [length_take,length_drop]; omega)]

theorem read_short (fill : Nat → UInt8) (hn : 0 < n) (h : s.file.length < s.pos + n) :
    (s.read fill n).2.fail = true := by
  unfold IStream.read
  split
  · rfl
  · rw [if_pos (by rw [length_take,length_drop]; omega)]

theorem read_failed (fill : Nat → UInt8) (h : s.fail = true) : (s.read fill n).2.fail = true := by
  unfold IStream.read
  rw [if_pos (.inr h)]

theorem seekCur_file (offset : Int) : (s.seekCur offset).file = s.file := by
  unfold IStream.seekCur IStream.seekg
  split
  · rfl
  · split <;> rfl

theorem seekCur_failed {offset : Int} (h : s.fail = true) : (s.seekCur offset).fail = true := by
  unfold IStream.seekCur IStream.seekg
  rw [if_pos h]
  exact h

theorem seekCur_below {offset : Int} (h : (s.pos : Int) + IStream.streamoff offset < 0) :
    (s.seekCur offset).fail = true := by
  unfold IStream.seekCur IStream.seekg
  split
  · assumption
  · rfl

theorem seekCur_within {offset : Int} (hs : s.Good)
    (h : 0 ≤ (s.pos : Int) + IStream.streamoff offset) : (s.seekCur offset).Good ∧
      ((s.seekCur offset).pos : Int) = s.pos + IStream.streamoff offset := by
  unfold IStream.seekCur IStream.seekg
  rw [if_neg (by simp [hs.2]),if_neg (by omega)]
  exact ⟨⟨rfl,hs.2⟩,Int.toNat_of_nonneg h⟩

end

section

variable {ds64 : Option DataSize64} {s s' start : IStream} {h : ChunkHeader}

theorem readHeader_within (hs : s.Good) (hlen : s.pos + 8 ≤ s.file.length) :
    (readHeader ds64 s).2 = s.skip 8 := by
  have hfirst : (s.readUninitialised 4).2 = s.skip 4 := read_within _ hs (by omega)
  have hsecond : ((s.skip 4).readUninitialised 4).2 = (s.skip 4).skip 4 :=
    read_within _ hs (by simp only [IStream.skip]; omega)
  unfold readHeader
  dsimp only
  rw [hfirst,hsecond]
  rfl

theorem readHeader_short (hlen : s.file.length < s.pos + 8) (hs : s.Good) :
    (readHeader ds64 s).2.fail = true := by
  unfold readHeader
  dsimp only
  rcases Nat.lt_or_ge s.file.length (s.pos + 4) with hlt | hge
  · exact read_failed _ (read_short _ (by decide) hlt)
  have hfirst : (s.readUninitialised 4).2 = s.skip 4 := read_within _ hs hge
  rw [hfirst]
  refine read_short _ (by decide) ?_
  simp only [IStream.skip]
  omega

section

variable (hstep : scanStep ds64 s h s')
include hstep

theorem scanStep_file : s'.file = s.file := by
  obtain ⟨-,-,rfl⟩ := hstep
  exact (seekCur_file ..).trans ((read_file _).trans (read_file _))

theorem scanStep_ends (hlen : s.file.length < s.pos + 8) : s'.peekEof.1 = true := by
  obtain ⟨hmore,-,rfl⟩ := hstep
  exact peekEof_failed (seekCur_failed (readHeader_short hlen (peekEof_good hmore).1))

theorem scanStep_moves (hlen : s.pos + 8 ≤ s.file.length)
    (htarget : 0 ≤ (s.pos : Int) + 8 + IStream.streamoff (paddedSize h.size)) :
    s'.Good ∧ (s'.pos : Int) = s.pos + 8 + IStream.streamoff (paddedSize h.size) := by
  obtain ⟨hmore,-,rfl⟩ := hstep
  have hgood := (peekEof_good hmore).1
  rw [readHeader_within hgood hlen]
  have hpos : ((s.skip 8).pos : Int) = s.pos + 8 := by
    simp only [IStream.skip]
    omega
  exact @seekCur_within (s.skip 8) (paddedSize h.size) hgood (by rwa [hpos])

theorem scanStep_fails (hlen : s.pos + 8 ≤ s.file.length)
    (htarget : (s.pos : Int) + 8 + IStream.streamoff (paddedSize h.size) < 0) :
    s'.peekEof.1 = true := by
  obtain ⟨hmore,-,rfl⟩ := hstep
  rw [readHeader_within (peekEof_good hmore).1 hlen]
  refine peekEof_failed (seekCur_below ?_)
  simp only [IStream.skip]
  omega

theorem scanStep_advances : (s.pos < s'.pos ∨ s'.peekEof.1 = true) ↔ ¬StepsBack s h := by
  rcases Nat.lt_or_ge s.file.length (s.pos + 8) with hshort | hlen
  · constructor
    · rintro - ⟨hfull,-,-⟩
      omega
    · intro _
      exact .inr (scanStep_ends hstep hshort)
  rcases lt_or_ge ((s.pos : Int) + 8 + IStream.streamoff (paddedSize h.size)) 0 with hneg | hpos
  · constructor
    · rintro - ⟨-,hlow,-⟩
      omega
    · intro _
      exact .inr (scanStep_fails hstep hlen hneg)
  obtain ⟨hgood,hmoved⟩ := scanStep_moves hstep hlen hpos
  constructor
  · rintro hadvance ⟨-,-,hhigh⟩
    rcases hadvance with hlt | hend
    · omega
    · rw [peekEof_within hgood (by rw [scanStep_file hstep]; omega)] at hend
      cases hend
  intro hnot
  refine .inl ?_
  by_contra hle
  exact hnot ⟨hlen,by omega,by omega⟩

end

theorem parseChunkHeaders_end (hend : s.peekEof.1 = true) (fuel : Nat) :
    parseChunkHeaders ds64 (fuel + 1) s = .ok ([],s.peekEof.2) := by
  have hpeek : peekEnd s = .ok (true,s.peekEof.2) := by
    rw [peekEnd,← hend]
  rw [parseChunkHeaders,run_bind,hpeek,bind_ok]
  rfl

theorem parseHeader_good (hs : s.Good) : parseHeader ds64 s =
    .ok (⟨(readHeader ds64 s).1.id,getChunkSize64 ds64 (readHeader ds64 s).1.id
      (ofLe ((s.readUninitialised 4).2.readUninitialised 4).1),s.pos % 2 ^ 64⟩,
      (readHeader ds64 s).2) := by
  have htell : tellPosition s = .ok (s.pos % 2 ^ 64,s) := by
    unfold tellPosition IStream.tellg
    rw [if_neg (by simp [hs.1,hs.2])]
    rfl
  unfold parseHeader
  rw [run_bind,htell,bind_ok]
  rfl

theorem parseChunkHeaders_next (hmore : s.peekEof.1 = false) (fuel : Nat) :
    parseChunkHeaders ds64 (fuel + 1) s = (parseChunkHeaders ds64 fuel
        ((readHeader ds64 s).2.seekCur (paddedSize (readHeader ds64 s).1.size)) >>= fun r =>
          .ok ((readHeader ds64 s).1 :: r.1,r.2)) := by
  obtain ⟨hgood,hpos⟩ := peekEof_good hmore
  have hpeek : peekEnd s = .ok (false,s) := by
    rw [peekEnd,peekEof_within hgood hpos]
  have hpadded (n : Nat) : (if n % 2 = 0 then (n : Int) else n + 1) = (paddedSize n : Nat) := by
    unfold paddedSize
    split <;> rfl
  rw [parseChunkHeaders,run_bind,hpeek,bind_ok,if_neg Bool.false_ne_true,run_bind,
    parseHeader_good hgood,bind_ok]
  rw [hpadded,run_bind]
  rfl

theorem finishes_next (hmore : s.peekEof.1 = false)
    (h : Finishes ds64 ((readHeader ds64 s).2.seekCur (paddedSize (readHeader ds64 s).1.size))) :
    Finishes ds64 s := by
  obtain ⟨fuel,headers,s',hrun⟩ := h
  refine ⟨fuel + 1,(readHeader ds64 s).1 :: headers,s',?_⟩
  rw [parseChunkHeaders_next hmore,hrun,bind_ok]

theorem advances_finishes (hadv : Advances ds64 start) {n : Nat}
    (hs : Reach start (scanStep ds64) s) (hn : s.file.length - s.pos ≤ n) : Finishes ds64 s := by
  induction n generalizing s with
  | zero =>
    exact ⟨1,[],_,parseChunkHeaders_end (peekEof_beyond (by omega)) 0⟩
  | succ n ih =>
    rcases Bool.eq_false_or_eq_true s.peekEof.1 with hend | hmore
    · exact ⟨1,[],_,parseChunkHeaders_end hend 0⟩
    have hstep : scanStep ds64 s (readHeader ds64 s).1 _ := ⟨hmore,rfl,rfl⟩
    have hnext := Reach.next hs hstep
    refine finishes_next hmore ?_
    rcases hadv s hs _ _ hstep with hlt | hend
    · refine ih hnext ?_
      rw [scanStep_file hstep]
      omega
    · exact ⟨1,[],_,parseChunkHeaders_end hend 0⟩

end

theorem chunk_scan_terminates (ds64 : Option DataSize64) (start : IStream) :
    (Finishes ds64 start ∧ Advances ds64 start) ↔ NeverStepsBack ds64 start := by
  constructor
  · rintro ⟨-,hadv⟩ s hs h s' hstep
    exact (scanStep_advances hstep).mp (hadv s hs h s' hstep)
  intro hnever
  have hadv : Advances ds64 start := by
    intro s hs h s' hstep
    exact (scanStep_advances hstep).mpr (hnever s hs h s' hstep)
  exact ⟨advances_finishes hadv .start le_rfl,hadv⟩

def foldedFile : List UInt8 :=
  le 4 bw64Id.toNat ++ le 4 (2 ^ 32 - 1) ++ le 4 waveId.toNat ++ header ds64Id 40 ++ le 8 64 ++ le 8 0 ++
    le 8 0 ++ le 4 1 ++ le 4 junkId.toNat ++ le 8 (2 ^ 64 - 8) ++ header junkId 0

section

variable {ds64 : Option DataSize64} {s : IStream} (hmore : s.peekEof.1 = false)
  (hlen : s.pos + 8 ≤ s.file.length)
include hmore hlen

theorem readHeader_back {size : Nat} (hback : IStream.streamoff (paddedSize size) = -8) :
    (readHeader ds64 s).2.seekCur (paddedSize size) = s := by
  have hgood := (peekEof_good hmore).1
  have htarget : ((s.skip 8).pos : Int) + IStream.streamoff (paddedSize size) = s.pos := by
    simp only [IStream.skip]
    omega
  rw [readHeader_within hgood hlen]
  unfold IStream.seekCur IStream.seekg
  rw [htarget,if_neg (by simp [IStream.skip,hgood.2]),if_neg (by omega),Int.toNat_natCast]
  simp only [IStream.skip]
  rw [← hgood.1]

theorem parseChunkHeaders_back
    (hback : IStream.streamoff (paddedSize (readHeader ds64 s).1.size) = -8) (fuel : Nat) :
    parseChunkHeaders ds64 fuel s = .error .loops := by
  induction fuel with
  | zero => rfl
  | succ fuel ih => rw [parseChunkHeaders_next hmore,readHeader_back hmore hlen hback,ih,bind_error]

end

theorem foldedFile_opens : ∃ format ds64 first s1 s, readRiffChunk (IStream.openFile foldedFile
    fun _ _ => 0) = .ok (format,s1) ∧ readDs64 format.1 s1 = .ok ((ds64,first),s) ∧
      s.peekEof.1 = false ∧ s.pos + 8 ≤ s.file.length ∧
      IStream.streamoff (paddedSize (readHeader ds64 s).1.size) = -8 := by
  refine ⟨_,_,_,_,_,rfl,rfl,?_,?_,?_⟩
  · decide +kernel
  · decide +kernel
  · decide +kernel

def NeverRead (file : List UInt8) : Prop :=
  ∀ fuel : Nat, Reader.readFile fuel file (fun _ _ => 0) = .error .loops

theorem foldedFile_never_read : NeverRead foldedFile := by
  intro fuel
  obtain ⟨format,ds64,first,s1,s,hriff,hds64,hmore,hlen,hback⟩ := foldedFile_opens
  unfold Reader.readFile
  rw [hriff,bind_ok]
  dsimp only
  rw [hds64,bind_ok]
  rw [parseChunkHeaders_back hmore hlen hback,bind_error]

variable {α β : Type}

def KeepsFile (p : Parse α) : Prop := ∀ s a s', p s = .ok (a,s') → s'.file = s.file

theorem KeepsFile.bind {p : Parse α} {q : α → Parse β} (hp : KeepsFile p) (hq : ∀ a, KeepsFile (q a)) :
    KeepsFile (p >>= q) := by
  intro s b s' h
  obtain ⟨⟨a,s1⟩,h1,h2⟩ := bind_eq_ok h
  exact (hq a s1 b s' h2).trans (hp s a s1 h1)

theorem KeepsFile.result (a : α) : KeepsFile (pure a : Parse α) := by
  intro s b s' h
  cases h
  rfl

theorem KeepsFile.ite {p q : Parse α} {c : Prop} [Decidable c] (hp : KeepsFile p) (hq : KeepsFile q) :
    KeepsFile (if c then p else q) := by
  split
  · exact hp
  · exact hq

theorem KeepsFile.step {f : IStream → α × IStream} (hf : ∀ s, (f s).2.file = s.file) :
    KeepsFile (fun s => .ok (f s)) := by
  intro s a s' h
  rw [← hf s,Except.ok.inj h]

theorem KeepsFile.lifted (x : Except Error α) : KeepsFile (lift x) := by
  intro s a s' h
  cases x with
  | ok b =>
    cases h
    rfl
  | error e => cases h

theorem keepsFile_readChars (n : Nat) : KeepsFile (readChars n) := .step fun _ => read_file _

theorem keepsFile_readBuffer (n : Nat) : KeepsFile (readBuffer n) := .step fun _ => read_file _

theorem KeepsFile.value {n : Nat} {q : Nat → Parse β} (hq : ∀ a, KeepsFile (q a)) :
    KeepsFile (readValue n >>= q) := .bind (.step fun _ => read_file _) hq

theorem KeepsFile.check {c : Prop} [Decidable c] {e : Error} {q : Parse β} (hq : KeepsFile q) :
    KeepsFile (require c e >>= fun _ => q) := by
  refine .bind ?_ fun _ => hq
  intro s a s' h
  unfold require at h
  split at h
  · cases h
    rfl
  · cases h

theorem keepsFile_seekgCur (offset : Int) : KeepsFile (seekgCur offset) :=
  .step fun _ => seekCur_file offset

theorem tellg_file (s : IStream) : s.tellg.2.file = s.file := by
  unfold IStream.tellg
  split <;> rfl

theorem peekEof_file (s : IStream) : s.peekEof.2.file = s.file := by
  unfold IStream.peekEof
  split
  · rfl
  · split <;> rfl

theorem seekg_file (s : IStream) (target : Int) : (s.seekg target).file = s.file := by
  unfold IStream.seekg
  split
  · rfl
  · split <;> rfl

theorem keepsFile_readRiffChunk : KeepsFile readRiffChunk :=
  .value fun _ => .value fun _ => .value fun _ =>
    .check (.check (.result _))

theorem keepsFile_parseHeader (ds64 : Option DataSize64) : KeepsFile (parseHeader ds64) :=
  .bind (.step tellg_file) fun _ =>
    .value fun _ => .value fun _ => .result _

theorem keepsFile_parseTable (n : Nat) (table : List (UInt32 × Nat)) :
    KeepsFile (parseTable n table) := by
  induction n generalizing table with
  | zero => exact .result table
  | succ n ih => exact .value fun _ => .value fun _ => ih _

theorem keepsFile_parseDataSize64Chunk (size : Nat) : KeepsFile (parseDataSize64Chunk size) :=
  .check <| .value fun _ => .value fun _ => .value fun _ =>
    .value fun _ => .bind (keepsFile_parseTable _ _) fun _ =>
      .bind (keepsFile_seekgCur _) fun _ => .result _

theorem keepsFile_readDs64 (fileFormat : UInt32) : KeepsFile (readDs64 fileFormat) :=
  .ite
    (.bind (keepsFile_parseHeader none) fun h => .check <|
      .bind (keepsFile_parseDataSize64Chunk h.size) fun _ => .result _)
    (.result _)

theorem keepsFile_parseExtension (size : Nat) : KeepsFile (parseExtension size) := by
  have hextra : KeepsFile parseExtraData :=
    .value fun _ => .value fun _ => .value fun _ =>
      .bind (keepsFile_readChars 14) fun _ => .result _
  have hsome : KeepsFile (some <$> parseExtraData) := by
    rw [map_eq_pure_bind]
    exact .bind hextra fun _ => .result _
  have hrest : ∀ cbSize : Nat, KeepsFile (do
      let extraData ← if 18 < size ∧ 0 < cbSize then some <$> parseExtraData else pure none
      require (cbSize = 0 ∨ cbSize = 22) .cbSize
      pure extraData) := fun _ =>
    .ite (.bind hsome fun _ => .check (.result _))
      (.bind (.result none) fun _ => .check (.result _))
  unfold parseExtension
  split
  · exact .value hrest
  · exact .bind (.result 0) hrest

theorem keepsFile_parseFormatInfoChunk (size : Nat) : KeepsFile (parseFormatInfoChunk size) := by
  unfold parseFormatInfoChunk checkSubFormat
  simp only [bind_assoc]
  refine .check <| .value fun _ => .value fun _ => .value fun _ =>
    .value fun _ => .value fun _ => .value fun _ => ?_
  refine .bind (keepsFile_parseExtension size) fun _ => ?_
  refine .check <| .check <| .check ?_
  exact .bind (.lifted _) fun _ => .check (.check (.result _))

theorem keepsFile_parseAudioIds (n : Nat) : KeepsFile (parseAudioIds n) := by
  have hone : KeepsFile parseAudioId :=
    .value fun _ => .bind (keepsFile_readChars 12) fun _ =>
      .bind (keepsFile_readChars 14) fun _ => .bind (keepsFile_readChars 11) fun _ =>
        .bind (keepsFile_seekgCur 1) fun _ => .lifted _
  induction n with
  | zero => exact .result []
  | succ n ih => exact .bind hone fun _ => .bind ih fun _ => .result _

theorem keepsFile_parseChnaChunk (size : Nat) : KeepsFile (parseChnaChunk size) :=
  .check <| .value fun _ => .value fun _ =>
    .bind (keepsFile_parseAudioIds _) fun _ =>
      .check (.check (.result _))

theorem keepsFile_parseValue (id : UInt32) (size : Nat) : KeepsFile (parseValue id size) :=
  .ite (.bind (keepsFile_parseDataSize64Chunk size) fun _ => .result _)
    (.ite (.bind (keepsFile_parseFormatInfoChunk size) fun _ => .result _)
      (.ite (.bind (keepsFile_readBuffer size) fun _ => .result _)
        (.ite (.bind (keepsFile_parseChnaChunk size) fun _ => .result _)
          (.ite (.result _)
            (.bind (keepsFile_readBuffer size) fun _ => .result _)))))

theorem keepsFile_parseChunk (h : ChunkHeader) : KeepsFile (parseChunk h) := by
  refine .bind (fun s p s' hp => ?_) fun _ => .result _
  exact (keepsFile_parseValue h.id h.size _ p s' hp).trans (seekg_file _ _)

theorem keepsFile_parseChunks (hs : List ChunkHeader) : KeepsFile (parseChunks hs) := by
  induction hs with
  | nil => exact .result []
  | cons h hs ih =>
    exact .ite ih (.bind (keepsFile_parseChunk h) fun _ =>
      .bind ih fun _ => .result _)

theorem keepsFile_parseChunkHeaders (ds64 : Option DataSize64) (fuel : Nat) :
    KeepsFile (parseChunkHeaders ds64 fuel) := by
  induction fuel with
  | zero => exact fun s a s' h => nomatch h
  | succ fuel ih =>
    refine .bind (.step peekEof_file) fun atEnd => .ite (.result []) ?_
    exact .bind (keepsFile_parseHeader ds64) fun h =>
      .bind (keepsFile_seekgCur _) fun _ => .bind ih fun _ => .result _

variable {fuel : Nat} {file : List UInt8} {stale : Nat → Nat → UInt8} {r : Reader}

theorem readFile_stream (h : Reader.readFile fuel file stale = .ok r) :
    ∃ r0 : Reader, r0.stream.file = file ∧ r0.seek 0 .beg = .ok r := by
  obtain ⟨⟨riff,s1⟩,h1,h⟩ := bind_eq_ok h
  obtain ⟨⟨table,s2⟩,h2,h⟩ := bind_eq_ok h
  obtain ⟨⟨rest,s3⟩,h3,h⟩ := bind_eq_ok h
  obtain ⟨⟨chunks,s4⟩,h4,h⟩ := bind_eq_ok h
  obtain ⟨info,-,h⟩ := bind_eq_ok h
  refine ⟨_,?_,h⟩
  have hfirst := keepsFile_readRiffChunk _ _ _ h1
  have hsecond := keepsFile_readDs64 _ _ _ _ h2
  have hthird := keepsFile_parseChunkHeaders _ _ _ _ _ h3
  have hfourth := keepsFile_parseChunks _ _ _ _ h4
  exact hfourth.trans (hthird.trans (hsecond.trans hfirst))

inductive Access where
  | numberOfFrames
  | tell
  | eof
  | read (rawDataBuffer : List UInt8) (frames : Nat)
  | seek (offset : Int) (way : Reader.Seekdir)
  deriving DecidableEq

def Access.run (r : Reader) : Access → Except Trap Reader
  | .numberOfFrames => r.framesOrTrap.map fun _ => r
  | .tell => r.tellOrTrap.map Prod.snd
  | .eof => r.eofOrTrap.map Prod.snd
  | .read raw frames => (r.readOrTrap raw frames).map fun read => read.2.2
  | .seek offset way => throwing (r.seek offset way)

def Access.runAll (r : Reader) : List Access → Except Trap Reader
  | [] => .ok r
  | a :: calls => do
    let r ← a.run r
    Access.runAll r calls

def FramesMeasured (r : Reader) : Prop :=
  r.blockAlignment ≠ 0 ∧ 8 * r.blockAlignment = r.channels.toNat * r.bitDepth.toNat ∧
    ∀ calls, Access.runAll r calls ≠ .error .divideByZero

structure Seekable (r : Reader) : Prop where
  located : ∃ h, r.getChunkHeader dataId = .ok h
  aligned : r.blockAlignment ≠ 0

section

variable {r : Reader}

theorem bitDepth_cases (r : Reader) :
    r.bitDepth.toNat = 16 ∨ r.bitDepth.toNat = 24 ∨ r.bitDepth.toNat = 32 := by
  rcases r.info.bits_supported with h | h | h <;> simp [Reader.bitDepth,h]

theorem frameBytes_exact (r : Reader) :
    8 * (r.channels.toNat * r.bitDepth.toNat / 8) = r.channels.toNat * r.bitDepth.toNat := by
  rcases bitDepth_cases r with h | h | h <;> rw [h] <;> omega

theorem frameBytes_pos (r : Reader) : 0 < r.channels.toNat * r.bitDepth.toNat := by
  refine Nat.mul_pos (UInt16.le_iff_toNat_le.mp r.info.channelCount_pos) ?_
  rcases bitDepth_cases r with h | h | h <;> omega

theorem blockAlignment_exact (h : r.channels.toNat * r.bitDepth.toNat < 2 ^ 19) :
    r.blockAlignment ≠ 0 ∧ 8 * r.blockAlignment = r.channels.toNat * r.bitDepth.toNat := by
  have hexact := frameBytes_exact r
  have hpos := frameBytes_pos r
  have hsmall : r.blockAlignment = r.channels.toNat * r.bitDepth.toNat / 8 :=
    Nat.mod_eq_of_lt (by omega)
  rw [hsmall]
  exact ⟨by omega,hexact⟩

theorem blockAlignment_lt (r : Reader) : r.blockAlignment < 65536 := Nat.mod_lt _ (by decide)

end

section

variable {r r' : Reader}

theorem quotient_ok {n d : Nat} (h : d ≠ 0) : quotient n d = .ok (n / d) := if_neg h

theorem tellOrTrap_zero (hlocated : ∃ header, r.getChunkHeader dataId = .ok header)
    (h : r.blockAlignment = 0) : r.tellOrTrap = .error .divideByZero := by
  obtain ⟨header,hheader⟩ := hlocated
  have hzero : r.info.blockAlignment = 0 := h
  unfold Reader.tellOrTrap
  rw [hheader,throwing,bind_ok,quotient,if_pos hzero,bind_error]

theorem seek_ok (offset : Int) (way : Reader.Seekdir)
    (h : ∃ h, r.getChunkHeader dataId = .ok h) :
    ∃ s, r.seek offset way = .ok { r with stream := s } := by
  obtain ⟨header,hheader⟩ := h
  unfold Reader.seek
  rw [hheader,bind_ok]
  exact ⟨_,rfl⟩

section

variable (h : Seekable r)
include h

theorem seekable_stream (s : IStream) : Seekable { r with stream := s } :=
  ⟨h.located,h.aligned⟩

theorem framesOrTrap_ok : r.framesOrTrap = .ok r.numberOfFrames :=
  quotient_ok h.aligned

theorem tellOrTrap_ok :
    ∃ frame, r.tellOrTrap = .ok (frame,{ r with stream := r.stream.tellg.2 }) := by
  obtain ⟨header,hheader⟩ := h.located
  have haligned : r.info.blockAlignment ≠ 0 := h.aligned
  refine ⟨((r.stream.tellg.1 - header.position - 8) % 2 ^ 64).toNat / r.info.blockAlignment,?_⟩
  unfold Reader.tellOrTrap
  rw [hheader,throwing,bind_ok,quotient_ok haligned,bind_ok]

theorem clampOrTrap_ok (frames : Nat) :
    ∃ n s, r.clampOrTrap frames = .ok (n,{ r with stream := s }) := by
  obtain ⟨current,htrap⟩ := tellOrTrap_ok h
  have h1 := seekable_stream h r.stream.tellg.2
  obtain ⟨again,htrap'⟩ := tellOrTrap_ok h1
  unfold Reader.clampOrTrap
  rw [htrap,bind_ok]
  dsimp only
  rw [framesOrTrap_ok h1,bind_ok]
  split
  · rw [htrap',bind_ok]
    exact ⟨_,_,rfl⟩
  · exact ⟨_,_,rfl⟩

theorem readOrTrap_spec (raw : List UInt8) (frames : Nat) :
    (∃ n bytes s, r.readOrTrap raw frames = .ok (n,bytes,{ r with stream := s })) ∨
      ∃ trap ≠ .divideByZero, r.readOrTrap raw frames = .error trap := by
  obtain ⟨n,s,htrap⟩ := clampOrTrap_ok h frames
  unfold Reader.readOrTrap
  rw [htrap,bind_ok]
  dsimp only
  split
  · exact .inr ⟨.lengthError,by decide,rfl⟩
  · split
    · exact .inr ⟨.outOfBounds,by decide,rfl⟩
    · exact .inl ⟨_,_,_,rfl⟩

theorem access_spec (a : Access) :
    (∃ s, a.run r = .ok { r with stream := s }) ∨
      ∃ trap ≠ .divideByZero, a.run r = .error trap := by
  cases a with
  | numberOfFrames =>
    refine .inl ⟨r.stream,?_⟩
    rw [Access.run,framesOrTrap_ok h]
    rfl
  | tell =>
    obtain ⟨frame,htell⟩ := tellOrTrap_ok h
    refine .inl ⟨r.stream.tellg.2,?_⟩
    rw [Access.run,htell]
    rfl
  | eof =>
    obtain ⟨frame,htell⟩ := tellOrTrap_ok h
    have h1 := seekable_stream h r.stream.tellg.2
    refine .inl ⟨r.stream.tellg.2,?_⟩
    rw [Access.run,Reader.eofOrTrap,htell,bind_ok]
    dsimp only
    rw [framesOrTrap_ok h1]
    rfl
  | read raw frames =>
    rcases readOrTrap_spec h raw frames with ⟨n,bytes,s,hread⟩ | ⟨trap,hne,hread⟩
    · refine .inl ⟨s,?_⟩
      rw [Access.run,hread]
      rfl
    · refine .inr ⟨trap,hne,?_⟩
      rw [Access.run,hread]
      rfl
  | seek offset way =>
    obtain ⟨s,hseek⟩ := seek_ok offset way h.located
    refine .inl ⟨s,?_⟩
    rw [Access.run,hseek]
    rfl

theorem accesses_undivided (calls : List Access) :
    Access.runAll r calls ≠ .error .divideByZero := by
  induction calls generalizing r with
  | nil => exact nofun
  | cons a calls ih =>
    rw [Access.runAll]
    rcases access_spec h a with ⟨s,hrun⟩ | ⟨trap,hne,hrun⟩
    · rw [hrun,bind_ok]
      exact ih (seekable_stream h s)
    · rw [hrun,bind_error]
      exact fun heq => hne (Except.error.inj heq)

end

theorem seek_located {offset : Int} {way : Reader.Seekdir} (h : r.seek offset way = .ok r') :
    ∃ header, r'.getChunkHeader dataId = .ok header := by
  obtain ⟨header,hheader,-⟩ := bind_eq_ok h
  obtain ⟨s,hseek⟩ := seek_ok offset way ⟨header,hheader⟩
  rw [h] at hseek
  cases hseek
  exact ⟨header,hheader⟩

theorem readFile_located {fuel : Nat} {file : List UInt8} {stale : Nat → Nat → UInt8}
    (h : Reader.readFile fuel file stale = .ok r) :
    ∃ header, r.getChunkHeader dataId = .ok header := by
  obtain ⟨_,-,h⟩ := readFile_stream h
  exact seek_located h

end

theorem readFile_measures (h : Reader.readFile fuel file stale = .ok r) :
    FramesMeasured r ↔ r.channels.toNat * r.bitDepth.toNat < 2 ^ 19 := by
  constructor
  · rintro ⟨-,hexact,-⟩
    have hlt := blockAlignment_lt r
    omega
  · intro hsmall
    obtain ⟨hne,hexact⟩ := blockAlignment_exact hsmall
    exact ⟨hne,hexact,fun calls => accesses_undivided ⟨readFile_located h,hne⟩ calls⟩

def plainFile (channels blockAlignment : Nat) : List UInt8 :=
  le 4 riffId.toNat ++ le 4 36 ++ le 4 waveId.toNat ++ header fmtId 16 ++ le 2 1 ++ le 2 channels ++
    le 4 48000 ++ le 4 (48000 * blockAlignment) ++ le 2 blockAlignment ++ le 2 16 ++ header dataId 0

theorem stereoFile_measured :
    ∃ r, Reader.readFile 3 (plainFile 2 4) (fun _ _ => 0) = .ok r ∧ FramesMeasured r := by
  obtain ⟨r,hopen,hchannels,hbits⟩ : ∃ r,
      Reader.readFile 3 (plainFile 2 4) (fun _ _ => 0) = .ok r ∧ r.channels.toNat = 2 ∧
        r.bitDepth.toNat = 16 := ⟨_,rfl,by decide +kernel,by decide +kernel⟩
  refine ⟨r,hopen,(readFile_measures hopen).mpr ?_⟩
  rw [hchannels,hbits]
  decide

theorem wideFile_divides_by_zero :
    ∃ r, Reader.readFile 3 (plainFile 32768 0) (fun _ _ => 0) = .ok r ∧ r.blockAlignment = 0 ∧
      r.framesOrTrap = .error .divideByZero ∧ r.tellOrTrap = .error .divideByZero := by
  obtain ⟨r,hopen,hzero⟩ : ∃ r,
      Reader.readFile 3 (plainFile 32768 0) (fun _ _ => 0) = .ok r ∧ r.blockAlignment = 0 :=
    ⟨_,rfl,by decide +kernel⟩
  exact ⟨r,hopen,hzero,if_pos hzero,tellOrTrap_zero (readFile_located hopen) hzero⟩

end FuzzingTargets.Bw64
