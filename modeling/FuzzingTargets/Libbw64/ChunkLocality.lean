import FuzzingTargets.Libbw64.ChunkCodec

namespace FuzzingTargets.Bw64
open LittleEndian Checked Slices List

variable (s : IStream) (h : ChunkHeader) (payload : List UInt8)

def Parsed.Same : Parsed → Parsed → Prop
  | .value c, .value c' => c.SameGetters c'
  | .data size, .data size' => size = size'
  | _, _ => False

def SameOutcome : Except Error (Parsed × IStream) → Except Error (Parsed × IStream) → Prop
  | .ok (p,_), .ok (p',_) => p.Same p'
  | .error _, .error _ => True
  | _, _ => False

structure Contains : Prop where
  size : payload.length = h.size
  inside : h.position + 8 + h.size ≤ s.file.length
  bytes : At s.file (h.position + 8) payload

def Local : Prop :=
  ∀ s1 s2 : IStream, Contains s1 h payload → Contains s2 h payload →
    SameOutcome (parseChunkValue h s1) (parseChunkValue h s2)

def imagesOf (entries : List (AudioId × UInt8)) : List UInt8 :=
  (entries.map fun e => e.1.image e.2).flatten

def chnaTracks : Nat := ofLe (payload.take 2)

def chnaUids : Nat := ofLe ((payload.drop 2).take 2)

def ds64TableLength : Nat := ofLe ((payload.drop 24).take 4)

def Completable : Prop :=
  ∃ entries : List (AudioId × UInt8), entries.length = chnaUids payload ∧
    numTracks (entries.map Prod.fst) = chnaTracks payload ∧
    payload.drop 4 <+: imagesOf entries

def CountsInside (id : UInt32) (payload : List UInt8) : Prop :=
  (id = ds64Id → payload.length < 28 ∨ 28 + 12 * ds64TableLength payload ≤ payload.length) ∧
    (id = chnaId → payload.length < 4 ∨ 4 + 40 * chnaUids payload ≤ payload.length + 1 ∨
      ¬Completable payload)

section

variable {α β : Type} {bytes rest : List UInt8} {p : Parse α} {n : Nat} {k : α → Parse β}

def Produces (p : Parse α) (bytes : List UInt8) (a : α) : Prop :=
  ∀ s : IStream, s.Good → At s.file s.pos bytes → ∃ s', p s = .ok (a,s')

def Settled (p : Parse α) (bytes : List UInt8) : Prop :=
  (∃ a, Produces p bytes a) ∨
    ∀ s : IStream, s.Good → At s.file s.pos bytes → ∃ e, p s = .error e

theorem Settled.result (a : α) : Settled (pure a) bytes := .inl ⟨a,fun s _ _ => ⟨s,rfl⟩⟩

theorem Settled.step {q : Parse α} (hstep : ∀ s : IStream, s.Good →
    At s.file s.pos bytes → p s = q (s.skip n) ∧ At s.file (s.pos + n) rest) (hq : Settled q rest) :
    Settled p bytes := by
  refine hq.imp (fun ⟨a,hq⟩ => ⟨a,fun s hs hat => ?_⟩) fun hq s hs hat => ?_
  all_goals
    obtain ⟨heq,hrest⟩ := hstep s hs hat
    rw [heq]
    exact hq (s.skip n) hs hrest

theorem Settled.reads {xs ys : List UInt8} {a : α} (hp : Reads p xs a) (hk : Settled (k a) ys) :
    Settled (p >>= k) (xs ++ ys) := by
  refine .step (n := xs.length) (fun s hs hat => ?_) hk
  obtain ⟨hx,hy⟩ := at_append.mp hat
  exact ⟨by rw [run_bind,hp s hs hx,bind_ok],hy⟩

theorem produces_map {a : α} (hp : Produces p bytes a) (f : α → β) :
    Produces (p >>= fun a => pure (f a)) bytes (f a) := by
  intro s hs hat
  obtain ⟨s',hrun⟩ := hp s hs hat
  exact ⟨s',by rw [run_bind,hrun,bind_ok]; rfl⟩

theorem Settled.mapped (hp : Settled p bytes) (f : α → β) :
    Settled (p >>= fun a => pure (f a)) bytes := by
  rcases hp with ⟨a,hp⟩ | hp
  · exact .inl ⟨f a,produces_map hp f⟩
  · refine .inr fun s hs hat => ?_
    obtain ⟨e,hrun⟩ := hp s hs hat
    exact ⟨e,by rw [run_bind,hrun,bind_error]⟩

theorem Reads.word (h : bytes.length = n) : Reads (readValue n) bytes (ofLe bytes) := by
  subst h
  intro s hs hat
  have hread := read_exact hs hat (s.stale s.shortReads)
  unfold readValue IStream.readUninitialised
  rw [hread]

theorem drop_split (i n : Nat) : (bytes.drop i).take n ++ bytes.drop (i + n) = bytes.drop i := by
  rw [← drop_drop,take_append_drop]

theorem length_piece {i n : Nat} (h : i + n ≤ bytes.length) : ((bytes.drop i).take n).length = n :=
  length_take_of_le (by rw [length_drop]; omega)

theorem Settled.value (i : Nat) {k : Nat → Parse β} (hn : i + n ≤ bytes.length)
    (hk : Settled (k (ofLe ((bytes.drop i).take n))) (bytes.drop (i + n))) :
    Settled (readValue n >>= k) (bytes.drop i) := by
  have h := Settled.reads (.word (length_piece hn)) hk
  rwa [drop_split] at h

theorem Settled.chars (i : Nat) {k : List UInt8 → Parse β} (hn : i + n ≤ bytes.length)
    (hk : ∀ chars, Settled (k chars) (bytes.drop (i + n))) :
    Settled (readChars n >>= k) (bytes.drop i) := by
  have hread := reads_readChars ((bytes.drop i).take n)
  rw [length_piece hn] at hread
  have h := Settled.reads hread (hk _)
  rwa [drop_split] at h

theorem Settled.buffer {k : List UInt8 → Parse β} (hk : Settled (k bytes) []) :
    Settled (readBuffer bytes.length >>= k) bytes := by
  have h := Settled.reads (reads_readBuffer bytes) hk
  rwa [append_nil] at h

theorem Settled.check {c : Prop} [Decidable c] {e : Error} {k : Unit → Parse β}
    (hk : c → Settled (k ()) bytes) : Settled (require c e >>= k) bytes := by
  by_cases hc : c
  · exact .reads (.check hc e) (hk hc)
  · refine .inr fun s _ _ => ⟨e,?_⟩
    rw [run_bind,require,if_neg hc,bind_error]

theorem Settled.lifted {r : Except Error α} (hk : ∀ a, Settled (k a) bytes) :
    Settled (lift r >>= k) bytes := by
  cases hr : r with
  | ok a => exact .reads (.lifted rfl) (hk a)
  | error e => exact .inr fun s _ _ => ⟨e,rfl⟩

theorem Settled.ite {c : Prop} [Decidable c] {q : Parse α} (hp : c → Settled p bytes)
    (hq : ¬c → Settled q bytes) : Settled (if c then p else q) bytes := by
  split
  · exact hp ‹_›
  · exact hq ‹_›

theorem settled_skip (i : Nat) {k : Unit → Parse β} (hk : Settled (k ()) (bytes.drop (i + 1))) :
    Settled (seekgCur 1 >>= k) (bytes.drop i) := by
  refine .step (n := 1) (fun s hs hat => ⟨?_,?_⟩) hk
  · have hseek : s.seekCur 1 = s.skip 1 := seekCur_small hs (by decide : 1 < 2 ^ 63)
    rw [run_bind,seekgCur,hseek,bind_ok]
  · have hdrop := hat.drop 1
    rwa [drop_drop,drop_drop] at hdrop

theorem settled_parseAudioId {i : Nat} {k : AudioId → Parse β} (hn : i + 39 ≤ bytes.length)
    (hk : ∀ a, Settled (k a) (bytes.drop (i + 40))) :
    Settled (parseAudioId >>= k) (bytes.drop i) := by
  unfold parseAudioId
  simp only [bind_assoc]
  refine .value i (by omega) ?_
  refine .chars (i + 2) (by omega) fun uid => ?_
  refine .chars (i + 14) (by omega) fun trackRef => ?_
  refine .chars (i + 28) (by omega) fun packRef => ?_
  exact settled_skip (i + 39) (.lifted hk)

theorem settled_parseAudioIds {i n : Nat} {k : List AudioId → Parse β}
    (hn : i + 40 * n ≤ bytes.length + 1) (hk : ∀ ids, Settled (k ids) (bytes.drop (i + 40 * n))) :
    Settled (parseAudioIds n >>= k) (bytes.drop i) := by
  induction n generalizing i k with
  | zero => exact hk []
  | succ n ih =>
    unfold parseAudioIds
    simp only [bind_assoc]
    refine settled_parseAudioId (by omega) fun a => ih (by omega) fun ids => ?_
    rw [show i + 40 + 40 * n = i + 40 * (n + 1) by ring]
    exact hk (a :: ids)

theorem settled_parseChna (hn : bytes.length < 4 ∨ 4 + 40 * chnaUids bytes ≤ bytes.length + 1) :
    Settled (parseChnaChunk bytes.length) bytes := by
  refine .check fun hsize => ?_
  have hroom : 4 + 40 * chnaUids bytes ≤ bytes.length + 1 := by omega
  refine .value 0 (by omega) (.value 2 (by omega) ?_)
  refine @settled_parseAudioIds _ bytes 4 (chnaUids bytes) _ hroom fun ids => ?_
  exact .check fun _ => .check fun _ => .result ids

theorem settled_parseTable {i n : Nat} {table : List (UInt32 × Nat)}
    {k : List (UInt32 × Nat) → Parse β} (hn : i + 12 * n ≤ bytes.length)
    (hk : ∀ t, Settled (k t) (bytes.drop (i + 12 * n))) :
    Settled (parseTable n table >>= k) (bytes.drop i) := by
  induction n generalizing i table with
  | zero => exact hk table
  | succ n ih =>
    unfold parseTable
    simp only [bind_assoc]
    refine .value i (by omega) (.value (i + 4) (by omega) ?_)
    refine ih (by omega) fun t => ?_
    rw [show i + 4 + 8 + 12 * n = i + 12 * (n + 1) by ring]
    exact hk t

theorem settled_parseDs64 (hn : bytes.length < 28 ∨ 28 + 12 * ds64TableLength bytes ≤ bytes.length) :
    Settled (parseDataSize64Chunk bytes.length) bytes := by
  refine .check fun hsize => ?_
  have hroom : 28 + 12 * ds64TableLength bytes ≤ bytes.length := by omega
  refine .value 0 (by omega) (.value 8 (by omega) ?_)
  refine .value 16 (by omega) (.value 24 (by omega) ?_)
  refine @settled_parseTable _ bytes 28 (ds64TableLength bytes) _ _ hroom fun table => ?_
  exact .inl ⟨_,fun _ _ _ => ⟨_,rfl⟩⟩

theorem settled_parseExtraData {i : Nat} {k : ExtraData → Parse β} (hn : i + 22 ≤ bytes.length)
    (hk : ∀ e rest, Settled (k e) rest) : Settled (parseExtraData >>= k) (bytes.drop i) := by
  unfold parseExtraData
  simp only [bind_assoc,pure_bind]
  refine .value i (by omega) (.value (i + 2) (by omega) ?_)
  exact .value (i + 6) (by omega) (.chars (i + 8) (by omega) fun _ => hk _ _)

theorem settled_parseExtension {size : Nat} {k : Option ExtraData → Parse β}
    (hsize : size = 16 ∨ size = 18 ∨ size = 40) (hbytes : bytes.length = size)
    (hk : ∀ e rest, Settled (k e) rest) : Settled (parseExtension size >>= k) (bytes.drop 16) := by
  have hlast : ∀ cbSize (e : Option ExtraData) rest,
      Settled ((require (cbSize = 0 ∨ cbSize = 22) .cbSize >>= fun _ => pure e) >>= k) rest := by
    intro cbSize e rest
    rw [bind_assoc]
    refine .check fun _ => ?_
    exact hk e rest
  rcases hsize with rfl | rfl | rfl
  · exact hlast 0 none _
  · have hparse : parseExtension 18 = readValue 2 >>= fun cbSize =>
        require (cbSize = 0 ∨ cbSize = 22) .cbSize >>= fun _ => pure none := rfl
    rw [hparse,bind_assoc]
    exact .value 16 (by omega) (hlast _ none _)
  have hparse : parseExtension 40 = readValue 2 >>= fun cbSize =>
      if 0 < cbSize then some <$> parseExtraData >>= fun e =>
        require (cbSize = 0 ∨ cbSize = 22) .cbSize >>= fun _ => pure e
      else require (cbSize = 0 ∨ cbSize = 22) .cbSize >>= fun _ => pure none := by
    unfold parseExtension
    simp
  rw [hparse,bind_assoc]
  refine .value 16 (by omega) ?_
  split
  · rw [bind_assoc,map_eq_pure_bind,bind_assoc]
    exact settled_parseExtraData (by omega) fun e rest => hlast _ (some e) rest
  · exact hlast _ none _

theorem settled_parseFormatInfoChunk : Settled (parseFormatInfoChunk bytes.length) bytes := by
  unfold parseFormatInfoChunk checkSubFormat
  refine .check fun hsize => ?_
  simp only [bind_assoc]
  refine .value 0 (by omega) (.value 2 (by omega) ?_)
  refine .value 4 (by omega) (.value 8 (by omega) ?_)
  refine .value 12 (by omega) (.value 14 (by omega) ?_)
  refine settled_parseExtension hsize rfl fun e rest => ?_
  exact .check fun _ => .check fun _ => .check fun _ =>
    .lifted fun info => .check fun _ => .check fun _ => .result _

end

section

variable {bytes : List UInt8} {s : IStream} {payload : List UInt8}

def Covers (s : IStream) (bytes : List UInt8) : Prop := bytes = [] ∨ s.Good ∧ At s.file s.pos bytes

theorem take_append_of_pieces {xs ys : List UInt8} {a b : Nat} (hx : bytes.take a <+: xs)
    (hlen : xs.length = a) (hy : (bytes.drop a).take b <+: ys) : bytes.take (a + b) <+: xs ++ ys := by
  by_cases hshort : bytes.length ≤ a
  · rw [take_of_length_le (by omega)]
    rw [take_of_length_le hshort] at hx
    exact hx.trans (prefix_append xs ys)
  · have hfull : bytes.take a = xs := hx.eq_of_length (by rw [length_take,hlen]; omega)
    rw [take_add,hfull]
    exact (prefix_append_right_inj xs).mpr hy

theorem read_length (fill : Nat → UInt8) (n : Nat) (s : IStream) : (s.read fill n).1.length = n := by
  unfold IStream.read
  dsimp only
  split
  · simp
  split
  · simp
  · rename_i hlong
    rw [length_take,length_drop] at hlong ⊢
    omega

theorem read_covers (fill : Nat → UInt8) (n : Nat) (h : Covers s bytes) :
    ∃ r s', s.read fill n = (r,s') ∧ r.length = n ∧ bytes.take n <+: r ∧
      Covers s' (bytes.drop n) := by
  refine ⟨(s.read fill n).1,(s.read fill n).2,rfl,read_length fill n s,?_⟩
  rcases h with rfl | ⟨hs,hat⟩
  · rw [take_nil,drop_nil]
    exact ⟨List.nil_prefix,.inl rfl⟩
  have hgot : bytes.take n <+: (s.file.drop s.pos).take n := hat.take n
  unfold IStream.read
  rw [if_neg (by simp [hs.1,hs.2])]
  split
  · rename_i hshort
    have hdone : bytes.length ≤ n := by
      have hle := hat.length_le
      rw [length_take] at hshort
      omega
    exact ⟨hgot.trans (prefix_append _ _),.inl (drop_eq_nil_of_le hdone)⟩
  · refine ⟨hgot,.inr ⟨hs,?_⟩⟩
    have hdrop := hat.drop n
    rwa [drop_drop] at hdrop

theorem skip_covers (h : Covers s bytes) : ∃ padding, bytes.take 1 <+: [padding] ∧
    Covers (s.seekCur 1) (bytes.drop 1) := by
  cases bytes with
  | nil => exact ⟨0, nil_prefix,.inl rfl⟩
  | cons b bs =>
    obtain ⟨hs,hat⟩ := h.resolve_left (cons_ne_nil b bs)
    refine ⟨b,prefix_rfl,.inr ?_⟩
    have hseek : s.seekCur 1 = s.skip 1 := seekCur_small hs (by norm_num : 1 < 2 ^ 63)
    rw [hseek]
    exact ⟨hs,(at_cons.mp hat).2⟩

theorem le_trackIndex {index : List UInt8} (h : index.length = 2) :
    le 2 (UInt16.ofNat (ofLe index)).toNat = index := by
  rw [le_eq_iff h,UInt16.toNat_ofNat',show (256 : Nat) ^ 2 = 2 ^ 16 by norm_num,Nat.mod_mod]
  have hlt := ofLe_lt index
  rw [h] at hlt
  exact Nat.mod_eq_of_lt hlt

theorem parseAudioId_covers (h : Covers s bytes) : ∃ a padding s', parseAudioId s = .ok (a,s') ∧
    bytes.take 40 <+: a.image padding ∧ Covers s' (bytes.drop 40) := by
  obtain ⟨index,s1,hr1,hl1,hp1,hc1⟩ := read_covers (s.stale s.shortReads) 2 h
  obtain ⟨uid,s2,hr2,hl2,hp2,hc2⟩ := read_covers (s1.stale s1.shortReads) 12 hc1
  obtain ⟨trackRef,s3,hr3,hl3,hp3,hc3⟩ := read_covers (s2.stale s2.shortReads) 14 hc2
  obtain ⟨packRef,s4,hr4,hl4,hp4,hc4⟩ := read_covers (s3.stale s3.shortReads) 11 hc3
  obtain ⟨padding,hp5,hc5⟩ := skip_covers hc4
  have hmake := audioId_make ⟨UInt16.ofNat (ofLe index),uid,trackRef,packRef,hl2,hl3,hl4⟩
  refine ⟨⟨UInt16.ofNat (ofLe index),uid,trackRef,packRef,hl2,hl3,hl4⟩,padding,
    s4.seekCur 1,?_,?_,?_⟩
  · unfold parseAudioId readValue readChars IStream.readUninitialised seekgCur
    simp only [run_bind,hr1,hr2,hr3,hr4,bind_ok,lift]
    rw [hmake]
    rfl
  · unfold AudioId.image
    rw [le_trackIndex hl1]
    have h4 := take_append_of_pieces hp4 hl4 hp5
    have h3 := take_append_of_pieces hp3 hl3 h4
    have h2 := take_append_of_pieces hp2 hl2 h3
    exact take_append_of_pieces hp1 hl1 h2
  · simpa only [drop_drop] using hc5

theorem image_length (a : AudioId) (padding : UInt8) : (a.image padding).length = 40 := by
  simp only [AudioId.image,length_append,le_length,a.uid_length,a.trackRef_length,
    a.packRef_length,length_singleton]

theorem parseAudioIds_covers (n : Nat) (h : Covers s bytes) :
    ∃ (entries : List (AudioId × UInt8)) (s' : IStream), entries.length = n ∧
      parseAudioIds n s = .ok (entries.map Prod.fst,s') ∧ bytes.take (40 * n) <+: imagesOf entries := by
  induction n generalizing s bytes with
  | zero => exact ⟨[],s,rfl,rfl, nil_prefix⟩
  | succ n ih =>
    obtain ⟨a,padding,s1,hparse,himage,hc⟩ := parseAudioId_covers h
    obtain ⟨entries,s2,hlen,hrest,himages⟩ := ih hc
    refine ⟨(a,padding) :: entries,s2,by rw [length_cons,hlen],?_,?_⟩
    · unfold parseAudioIds
      rw [run_bind,hparse,bind_ok,run_bind,hrest,bind_ok]
      rfl
    · rw [show 40 * (n + 1) = 40 + 40 * n by ring]
      exact take_append_of_pieces himage (image_length a padding) himages

def chnaIds (tracks uids : Nat) : Parse (List AudioId) := do
  let ids ← parseAudioIds uids
  require (numUids ids = uids) (.numUids (numUids ids))
  require (numTracks ids = tracks) (.numTracks (numTracks ids))
  pure ids

def chnaCounts (size : Nat) : Parse (Nat × Nat) := do
  require (4 ≤ size) .chnaSize
  let tracks ← readValue 2
  let uids ← readValue 2
  pure (tracks,uids)

theorem parseChna_eq (size : Nat) :
    parseChnaChunk size = chnaCounts size >>= fun c => chnaIds c.1 c.2 := by
  unfold parseChnaChunk chnaCounts chnaIds
  simp only [bind_assoc,pure_bind]

theorem reads_chnaCounts (hlen : 4 ≤ payload.length) :
    Reads (chnaCounts payload.length) (payload.take 4) (chnaTracks payload,chnaUids payload) := by
  have hfields : payload.take (2 + 2) = payload.take 2 ++ (payload.drop 2).take 2 := take_add
  rw [hfields]
  refine .silent (.check hlen _) ?_
  refine .bind (.word (length_take_of_le (by omega))) ?_
  exact .mapped (.word (length_piece (by omega))) _

theorem parseChna_rejects (hlen : 4 ≤ payload.length) (hopen : ¬Completable payload)
    (hshort : payload.length ≤ 4 + 40 * chnaUids payload) (hs : s.Good)
    (hat : At s.file s.pos payload) : ∃ e, parseChnaChunk payload.length s = .error e := by
  rw [← take_append_drop 4 payload] at hat
  obtain ⟨hfirst,hids⟩ := at_append.mp hat
  have hcovers : Covers (s.skip (payload.take 4).length) (payload.drop 4) := .inr ⟨hs,hids⟩
  obtain ⟨entries,s',hcount,hentries,himages⟩ := parseAudioIds_covers (chnaUids payload) hcovers
  rw [take_of_length_le (by rw [length_drop]; omega)] at himages
  have htracks : numTracks (entries.map Prod.fst) ≠ chnaTracks payload :=
    fun h => hopen ⟨entries,hcount,h,himages⟩
  rw [parseChna_eq,run_bind,reads_chnaCounts hlen s hs hfirst,bind_ok,chnaIds,run_bind,
    hentries,bind_ok]
  by_cases huids : numUids (entries.map Prod.fst) = chnaUids payload
  · refine ⟨.numTracks (numTracks (entries.map Prod.fst)),?_⟩
    rw [run_bind,require,if_pos huids,bind_ok,run_bind,require,if_neg htracks,bind_error]
  · refine ⟨.numUids (numUids (entries.map Prod.fst)),?_⟩
    rw [run_bind,require,if_neg huids,bind_error]

end

section

variable {h : ChunkHeader} {payload : List UInt8} (hsmall : h.position + 8 < 2 ^ 63)

include hsmall in
theorem contains_restart {s : IStream} (hc : Contains s h payload) :
    parseChunkValue h s = parseValue h.id payload.length (s.restart (h.position + 8)) ∧
      (s.restart (h.position + 8)).Good ∧
      At (s.restart (h.position + 8)).file (s.restart (h.position + 8)).pos payload := by
  have hseek : s.clear.seekg (IStream.streamoff ((h.position : Int) + 8)) =
      s.restart (h.position + 8) := by
    exact_mod_cast seekg_clear s hsmall
  unfold parseChunkValue
  rw [hseek,hc.size]
  exact ⟨rfl,⟨rfl,rfl⟩,hc.bytes⟩

include hsmall in
theorem local_of_settled (hp : Settled (parseValue h.id payload.length) payload) :
    Local h payload := by
  intro s1 s2 h1 h2
  obtain ⟨heq1,hgood1,hat1⟩ := contains_restart hsmall h1
  obtain ⟨heq2,hgood2,hat2⟩ := contains_restart hsmall h2
  rw [heq1,heq2]
  rcases hp with ⟨a,hp⟩ | hp
  · obtain ⟨s1',hrun1⟩ := hp _ hgood1 hat1
    obtain ⟨s2',hrun2⟩ := hp _ hgood2 hat2
    rw [hrun1,hrun2]
    cases a with
    | value c => exact same_refl c
    | data size => rfl
  obtain ⟨e1,hrun1⟩ := hp _ hgood1 hat1
  obtain ⟨e2,hrun2⟩ := hp _ hgood2 hat2
  rw [hrun1,hrun2]
  exact trivial

theorem settled_parseValue {id : UInt32} (hcounts : CountsInside id payload) :
    Settled (parseValue id payload.length) payload := by
  refine .ite (fun hid => .mapped (settled_parseDs64 (hcounts.1 hid)) _) fun _ => ?_
  refine .ite (fun _ => .mapped settled_parseFormatInfoChunk _) fun _ => ?_
  refine .ite (fun _ => .buffer (.result _)) fun _ => ?_
  refine .ite (fun hid => .mapped ?_ _) fun _ => ?_
  · by_cases hroom : payload.length < 4 ∨ 4 + 40 * chnaUids payload ≤ payload.length + 1
    · exact settled_parseChna hroom
    have hopen : ¬Completable payload := by
      have hcases := hcounts.2 hid
      tauto
    exact .inr fun s hs hat => parseChna_rejects (by omega) hopen (by omega) hs hat
  · exact .ite (fun _ => .result _) fun _ => .buffer (.result _)

end

section

variable {h : ChunkHeader} {payload bytes : List UInt8} {s : IStream}

def holding (h : ChunkHeader) (bytes : List UInt8) : IStream :=
  .openFile (replicate (h.position + 8) 0 ++ bytes) fun _ _ => 0

theorem holding_at (h : ChunkHeader) (bytes : List UInt8) :
    At (holding h bytes).file (h.position + 8) bytes := by
  refine at_full ?_
  change (replicate (h.position + 8) 0 ++ bytes).drop (h.position + 8) = bytes
  rw [drop_left' (length_replicate)]

section

variable (hsmall : h.position + 8 < 2 ^ 63) (hsize : payload.length = h.size)
include hsize

theorem holding_contains (hp : payload <+: bytes) : Contains (holding h bytes) h payload := by
  refine ⟨hsize,?_,hp.trans (holding_at h bytes)⟩
  change h.position + 8 + h.size ≤ (replicate (h.position + 8) 0 ++ bytes).length
  have hle := hp.length_le
  rw [length_append,length_replicate]
  omega

include hsmall

theorem not_local {bytes : UInt8 → List UInt8} {p : UInt8 → Parsed} (hp : ∀ b, payload <+: bytes b)
    (hparse : ∀ b, Produces (parseValue h.id payload.length) (bytes b) (p b))
    (hne : ¬(p 0).Same (p 1)) : ¬Local h payload := by
  have hrun : ∀ b, ∃ s', parseChunkValue h (holding h (bytes b)) = .ok (p b,s') := by
    intro b
    obtain ⟨heq,hgood,-⟩ := contains_restart hsmall (holding_contains hsize (hp b))
    rw [heq]
    exact hparse b _ hgood (holding_at h (bytes b))
  intro hlocal
  have hsame := hlocal _ _ (holding_contains hsize (hp 0)) (holding_contains hsize (hp 1))
  obtain ⟨s1,h1⟩ := hrun 0
  obtain ⟨s2,h2⟩ := hrun 1
  rw [h1,h2] at hsame
  exact hne hsame

end

theorem reads_images (entries : List (AudioId × UInt8)) :
    Reads (parseAudioIds entries.length) (imagesOf entries) (entries.map Prod.fst) := by
  induction entries with
  | nil => exact .result []
  | cons e entries ih =>
    refine .bind (reads_image e.1 e.2) ?_
    exact .mapped ih (e.1 :: ·)

theorem parseChna_images {entries : List (AudioId × UInt8)} (hlen : 4 ≤ payload.length)
    (hcount : entries.length = chnaUids payload)
    (htracks : numTracks (entries.map Prod.fst) = chnaTracks payload) :
    Produces (parseChnaChunk payload.length) (payload.take 4 ++ imagesOf entries)
      (entries.map Prod.fst) := by
  have huids : numUids (entries.map Prod.fst) = entries.length := by
    have hlt := ofLe_lt ((payload.drop 2).take 2)
    rw [length_piece (by omega)] at hlt
    unfold numUids
    rw [length_map,hcount]
    exact Nat.mod_eq_of_lt hlt
  have hids : Reads (chnaIds (chnaTracks payload) entries.length) (imagesOf entries ++ [])
      (entries.map Prod.fst) :=
    .bind (reads_images entries) (.silent (.check huids _)
      (.silent (.check htracks _) (.result _)))
  rw [append_nil,hcount] at hids
  rw [parseChna_eq]
  exact fun s hs hat => ⟨_,Reads.bind (reads_chnaCounts hlen) hids s hs hat⟩

def AudioId.ending (a : AudioId) (b : UInt8) : AudioId where
  trackIndex := a.trackIndex
  uid := a.uid
  trackRef := a.trackRef
  packRef := a.packRef.take 10 ++ [b]
  uid_length := a.uid_length
  trackRef_length := a.trackRef_length
  packRef_length := by
    rw [length_append,length_take,a.packRef_length]
    rfl

def AudioId.front (a : AudioId) : List UInt8 :=
  le 2 a.trackIndex.toNat ++ (a.uid ++ (a.trackRef ++ a.packRef.take 10))

theorem image_ending (a : AudioId) (b padding : UInt8) :
    (a.ending b).image padding = a.front ++ [b,padding] := by
  simp only [AudioId.image,AudioId.front,AudioId.ending,append_assoc,cons_append,nil_append]

theorem front_starts (a : AudioId) (padding : UInt8) : a.front <+: a.image padding := by
  have hpack : a.packRef.take 10 <+: a.packRef ++ [padding] :=
    (List.take_prefix 10 _).trans (prefix_append _ _)
  unfold AudioId.front AudioId.image
  rwa [prefix_append_right_inj,prefix_append_right_inj,prefix_append_right_inj]

theorem front_length (a : AudioId) : a.front.length = 38 := by
  have hten : (a.packRef.take 10).length = 10 := length_take_of_le (by rw [a.packRef_length]; omega)
  simp only [AudioId.front,length_append,le_length,a.uid_length,a.trackRef_length,hten]

theorem imagesOf_append_singleton (xs : List (AudioId × UInt8)) (a : AudioId) (padding : UInt8) :
    imagesOf (xs ++ [(a,padding)]) = imagesOf xs ++ a.image padding := by
  simp [imagesOf]

theorem imagesOf_length (entries : List (AudioId × UInt8)) :
    (imagesOf entries).length = 40 * entries.length := by
  induction entries with
  | nil => rfl
  | cons e entries ih =>
    have hcons : imagesOf (e :: entries) = e.1.image e.2 ++ imagesOf entries := rfl
    rw [hcons,length_append,image_length,ih,length_cons]
    ring

theorem chna_not_local (hid : h.id = chnaId) (hsmall : h.position + 8 < 2 ^ 63)
    (hsize : payload.length = h.size) (hlen : 4 ≤ payload.length)
    (hshort : payload.length + 1 < 4 + 40 * chnaUids payload) (hopen : Completable payload) :
    ¬Local h payload := by
  obtain ⟨entries,hcount,htracks,himages⟩ := hopen
  rcases eq_nil_or_concat entries with rfl | ⟨front,⟨a,padding⟩,rfl⟩
  · rw [← hcount,length_nil] at hshort
    omega
  rw [concat_eq_append] at hcount htracks himages
  have hfront : payload.drop 4 <+: imagesOf front ++ a.front := by
    rw [imagesOf_append_singleton] at himages
    refine prefix_of_prefix_length_le himages
      ((prefix_append_right_inj _).mpr (front_starts a padding)) ?_
    rw [length_append,front_length,imagesOf_length,length_drop]
    rw [length_append,length_singleton] at hcount
    omega
  have hbytes : ∀ b, payload <+: payload.take 4 ++ imagesOf (front ++ [(a.ending b,padding)]) := by
    intro b
    conv_lhs => rw [← take_append_drop 4 payload]
    rw [prefix_append_right_inj,imagesOf_append_singleton,image_ending,← append_assoc]
    exact hfront.trans (prefix_append _ _)
  have hparse : ∀ b, Produces (parseValue h.id payload.length)
      (payload.take 4 ++ imagesOf (front ++ [(a.ending b,padding)]))
      (.value (.chna ((front ++ [(a.ending b,padding)]).map Prod.fst))) := by
    intro b
    rw [hid]
    refine produces_map (parseChna_images hlen ?_ ?_) fun ids => Parsed.value (.chna ids)
    · rw [← hcount,length_append,length_append]
      rfl
    · rw [← htracks]
      unfold numTracks
      rw [map_append,map_append,map_append,map_append]
      rfl
  refine not_local hsmall hsize hbytes hparse fun hsame => ?_
  have hids : ChunkValue.chna ((front ++ [(a.ending 0,padding)]).map Prod.fst) =
      .chna ((front ++ [(a.ending 1,padding)]).map Prod.fst) := hsame
  rw [map_append,map_append,ChunkValue.chna.injEq] at hids
  have hpacks := congrArg AudioId.packRef (cons.inj (append_cancel_left hids)).1
  exact absurd (append_cancel_left hpacks) (by decide)

def tableOf : Nat → List UInt8 → List (UInt32 × Nat) → List (UInt32 × Nat)
  | 0, _, table => table
  | n + 1, bytes, table => tableOf n (bytes.drop 12)
      (setTable table (UInt32.ofNat (ofLe (bytes.take 4))) (ofLe ((bytes.drop 4).take 8)))

theorem reads_tableOf {n : Nat} {bytes : List UInt8} (hlen : bytes.length = 12 * n)
    (table : List (UInt32 × Nat)) : Reads (parseTable n table) bytes (tableOf n bytes table) := by
  induction n generalizing bytes table with
  | zero =>
    rw [List.length_eq_zero_iff.mp hlen]
    exact .result table
  | succ n ih =>
    have hsplit : bytes = bytes.take 4 ++ ((bytes.drop 4).take 8 ++ bytes.drop 12) := by
      conv_lhs => rw [← take_append_drop 4 bytes,← take_append_drop 8 (bytes.drop 4),drop_drop]
    have hid : (bytes.take 4).length = 4 := length_take_of_le (by omega)
    have hvalue : ((bytes.drop 4).take 8).length = 8 := length_piece (by omega)
    have hlen' : (bytes.drop 12).length = 12 * n := by
      rw [length_drop]
      omega
    have hrest := ih hlen'
      (setTable table (UInt32.ofNat (ofLe (bytes.take 4))) (ofLe ((bytes.drop 4).take 8)))
    have hread := Reads.bind (k := fun id => readValue 8 >>= fun size =>
      parseTable n (setTable table (UInt32.ofNat id) size)) (.word hid)
      (.bind (k := fun size => parseTable n (setTable table _ size)) (.word hvalue) hrest)
    rw [← hsplit] at hread
    exact hread

theorem tableOf_last (n : Nat) (bytes : List UInt8) (table : List (UInt32 × Nat)) :
    tableOf (n + 1) bytes table = setTable (tableOf n bytes table)
      (UInt32.ofNat (ofLe ((bytes.drop (12 * n)).take 4)))
      (ofLe ((bytes.drop (12 * n + 4)).take 8)) := by
  induction n generalizing bytes table with
  | zero => rfl
  | succ n ih =>
    rw [tableOf,ih,tableOf,drop_drop,drop_drop,show 12 + 12 * n = 12 * (n + 1) by ring,
      show 12 + (12 * n + 4) = 12 * (n + 1) + 4 by ring]

def ds64Of (bytes : List UInt8) : DataSize64 :=
  ⟨ofLe (bytes.take 8),ofLe ((bytes.drop 8).take 8),0,
    tableOf (ds64TableLength bytes) (bytes.drop 28) []⟩

theorem parseDs64_bytes {size : Nat} (hsize : 28 ≤ size)
    (hlen : bytes.length = 28 + 12 * ds64TableLength bytes) :
    Produces (parseDataSize64Chunk size) bytes (ds64Of bytes) := by
  intro s hs hat
  have hsplit : bytes = bytes.take 8 ++ ((bytes.drop 8).take 8 ++ ((bytes.drop 16).take 8 ++
      ((bytes.drop 24).take 4 ++ bytes.drop 28))) := by
    conv_lhs => rw [← take_append_drop 8 bytes,← take_append_drop 8 (bytes.drop 8),
      drop_drop,← take_append_drop 8 (bytes.drop (8 + 8)),drop_drop,
      ← take_append_drop 4 (bytes.drop (8 + 8 + 8)),drop_drop]
  have htable := reads_tableOf (n := ds64TableLength bytes)
    (by rw [length_drop]; omega : (bytes.drop 28).length = 12 * ds64TableLength bytes) []
  have hfields : Reads (ds64Fields size) bytes (ds64TableLength bytes,ds64Of bytes) := by
    conv => arg 2; rw [hsplit]
    refine .silent (.check hsize _) ?_
    refine .bind (.word (@length_piece bytes 0 8 (by omega))) ?_
    refine .bind (.word (@length_piece bytes 8 8 (by omega))) ?_
    refine .bind (.word (@length_piece bytes 16 8 (by omega))) ?_
    refine .bind (.word (@length_piece bytes 24 4 (by omega))) ?_
    exact .mapped htable fun table => (_,(⟨_,_,0,table⟩ : DataSize64))
  rw [parseDataSize64Chunk_fields,run_bind,hfields s hs hat,bind_ok]
  exact ⟨_,rfl⟩

theorem tableOf_lookup_last {n : Nat} {front : List UInt8} (hlen : front.length = 12 * n + 11)
    (b : UInt8) (table : List (UInt32 × Nat)) : (tableOf (n + 1) (front ++ [b]) table).lookup
        (UInt32.ofNat (ofLe ((front.drop (12 * n)).take 4))) =
      some (ofLe (front.drop (12 * n + 4) ++ [b])) := by
  rw [tableOf_last,drop_append_of_le_length (by omega),
    take_append_of_le_length (by rw [length_drop]; omega),setTable,lookup_cons_self,
    drop_append_of_le_length (by omega),take_of_length_le]
  rw [length_append,length_drop,length_singleton]
  omega

theorem ds64_not_local (hid : h.id = ds64Id) (hsmall : h.position + 8 < 2 ^ 63)
    (hsize : payload.length = h.size) (hlen : 28 ≤ payload.length)
    (hshort : payload.length < 28 + 12 * ds64TableLength payload) : ¬Local h payload := by
  obtain ⟨n,hn⟩ : ∃ n, ds64TableLength payload = n + 1 := ⟨ds64TableLength payload - 1,by omega⟩
  obtain ⟨pad,hpad⟩ : ∃ pad : List UInt8, payload.length + pad.length = 28 + 12 * n + 11 :=
    ⟨replicate (28 + 12 * n + 11 - payload.length) 0,by rw [length_replicate]; omega⟩
  have hbytes : ∀ b : UInt8, payload <+: payload ++ pad ++ [b] := by
    intro b
    rw [append_assoc]
    exact prefix_append _ _
  have hcount : ∀ b : UInt8, ds64TableLength (payload ++ pad ++ [b]) = n + 1 := by
    intro b
    rw [← hn]
    unfold ds64TableLength
    rw [append_assoc,drop_append_of_le_length (by omega),
      take_append_of_le_length (by rw [length_drop]; omega)]
  have hfront : ((payload ++ pad).drop 28).length = 12 * n + 11 := by
    rw [length_drop,length_append]
    omega
  have htable : ∀ b, (ds64Of (payload ++ pad ++ [b])).table =
      tableOf (n + 1) ((payload ++ pad).drop 28 ++ [b]) [] := by
    intro b
    change tableOf (ds64TableLength _) ((payload ++ pad ++ [b]).drop 28) [] = _
    rw [hcount,drop_append_of_le_length (by rw [length_append]; omega)]
  have hparse : ∀ b, Produces (parseValue h.id payload.length) (payload ++ pad ++ [b])
      (.value (.ds64 (ds64Of (payload ++ pad ++ [b])))) := by
    intro b
    rw [hid]
    refine produces_map (parseDs64_bytes hlen ?_) fun d => Parsed.value (.ds64 d)
    rw [hcount,length_append,length_append,length_singleton]
    omega
  refine not_local hsmall hsize hbytes hparse fun hsame => ?_
  have hlookup := hsame.2.2.2.2
    (UInt32.ofNat (ofLe ((((payload ++ pad).drop 28).drop (12 * n)).take 4)))
  rw [htable,htable,tableOf_lookup_last hfront,tableOf_lookup_last hfront] at hlookup
  have hbits := ofLe_inj (by simp) (Option.some.inj hlookup)
  exact absurd (append_cancel_left hbits) (by decide)

end

theorem local_iff_countsInside {h : ChunkHeader} {payload : List UInt8}
    (hsmall : h.position + 8 < 2 ^ 63) (hsize : payload.length = h.size) :
    Local h payload ↔ CountsInside h.id payload := by
  constructor
  · intro hlocal
    refine ⟨fun hid => ?_,fun hid => ?_⟩
    · by_contra hcounts
      exact ds64_not_local hid hsmall hsize (by omega) (by omega) hlocal
    · by_contra hcounts
      simp only [not_or,not_not,not_lt,not_le] at hcounts
      exact chna_not_local hid hsmall hsize hcounts.1 hcounts.2.1 hcounts.2.2 hlocal
  · exact fun hcounts => local_of_settled hsmall (settled_parseValue hcounts)

def someTrack : AudioId :=
  ⟨1,replicate 12 83,replicate 14 84,replicate 11 85,rfl,rfl,rfl⟩

def otherTrack : AudioId :=
  ⟨2,replicate 12 65,replicate 14 66,replicate 11 67,rfl,rfl,rfl⟩

def longSizes : DataSize64 := ⟨5000000000,4294967296,0,[(axmlId,4294967300),(chnaId,84)]⟩

theorem filled_chunks_local :
    Local ⟨ds64Id,52,12⟩ longSizes.bytes ∧
      Local ⟨chnaId,84,12⟩ (chnaBytes [someTrack,otherTrack]) := by
  constructor
  · refine (local_iff_countsInside (by norm_num) (by decide +kernel)).mpr
      ⟨fun _ => .inr (by decide +kernel),fun hid => ?_⟩
    exact absurd hid (by decide : ds64Id ≠ chnaId)
  · refine (local_iff_countsInside (by norm_num) (by decide +kernel)).mpr
      ⟨fun hid => ?_,fun _ => .inr (.inl (by decide +kernel))⟩
    exact absurd hid (by decide : chnaId ≠ ds64Id)

theorem cutChna_not_local : ¬Local ⟨chnaId,4,12⟩ [1,0,1,0] :=
  chna_not_local rfl (by norm_num) rfl (by decide) (by decide)
    ⟨[(someTrack,32)],by decide,by decide,List.nil_prefix⟩

end FuzzingTargets.Bw64
