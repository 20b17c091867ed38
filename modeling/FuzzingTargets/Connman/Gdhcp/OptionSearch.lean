import FuzzingTargets.Foundation.TaggedOptions
import FuzzingTargets.Foundation.Runs
import FuzzingTargets.Connman.Gdhcp.Options

namespace FuzzingTargets.Gdhcp
open Loads Loads.Prog TaggedOptions List

structure Search where
  field : Field
  optionptr : Nat
  rem : Int
  overload : UInt8
  deriving DecidableEq

inductive Turn where
  | advance (s : Search)
  | jump (field : Field) (overload : UInt8)
  | done (result : Option Found)
  deriving DecidableEq

def enter (field : Field) (overload : UInt8) : Search := ⟨field,field.start,field.size,overload⟩

variable (m : Nat → UInt8) (code : Int)

def searchTurn (s : Search) : Handler Turn :=
  if s.rem ≤ 0 then pure (.done none)
  else do
    let c ← fetch (.byte s.optionptr)
    if c = 0 then
      pure (.advance { s with rem := s.rem - 1, optionptr := s.optionptr + 1 })
    else if c = 255 then
      match nextField s.overload with
      | none => pure (.done none)
      | some (field,overload) => pure (.jump field overload)
    else do
      let l ← fetch (.byte (s.optionptr + 1))
      let len := 2 + l.toNat
      let rem := s.rem - len
      if rem < 0 then pure (.advance { s with rem })
      else if (c.toNat : Int) = code then pure (.done (some ⟨s.optionptr + 2,l.toNat⟩))
      else if c = 0x34 then do
        let v ← fetch (.byte (s.optionptr + 2))
        pure (.advance
          { s with rem, overload := s.overload ||| v, optionptr := s.optionptr + len })
      else pure (.advance { s with rem, optionptr := s.optionptr + len })

def endTurn (overload : UInt8) : Turn :=
  match nextField overload with
  | none => .done none
  | some (field,overload) => .jump field overload

inductive Searches (m : Nat → UInt8) (code : Int) : Search → List Field → Option Found → Prop
  | done {s : Search} {r : Option Found}
      (h : (searchTurn code s).run (memory m) = .ok (.done r)) : Searches m code s [] r
  | advance {s s' : Search} {fields : List Field} {r : Option Found}
      (h : (searchTurn code s).run (memory m) = .ok (.advance s'))
      (hs : Searches m code s' fields r) : Searches m code s fields r
  | jump {s : Search} {field : Field} {overload : UInt8} {fields : List Field} {r : Option Found}
      (h : (searchTurn code s).run (memory m) = .ok (.jump field overload))
      (hs : Searches m code (enter field overload) fields r) : Searches m code s (field :: fields) r

abbrev FieldItem := Item 0 255

def Matches : FieldItem → Prop
  | .padding => False
  | .option o => (o.code.toNat : Int) = code

def Unmatched (items : List FieldItem) : Prop := ∀ item ∈ items, ¬Matches code item

instance (code : Int) : DecidablePred (Matches code)
  | .padding => inferInstanceAs (Decidable False)
  | .option o => inferInstanceAs (Decidable ((o.code.toNat : Int) = code))

instance (code : Int) (items : List FieldItem) : Decidable (Unmatched code items) :=
  inferInstanceAs (Decidable (∀ item ∈ items, ¬Matches code item))

def overloadBits (m : Nat → UInt8) : Nat → List FieldItem → UInt8
  | _, [] => 0
  | ptr, .padding :: items => overloadBits m (ptr + 1) items
  | ptr, .option o :: items =>
    (if o.code = 0x34 then m (ptr + 2) else 0) ||| overloadBits m (ptr + o.bytes.length) items

structure Declares (field : Field) (bits : UInt8) : Prop where
  closed : ∃ items rest, fieldAt m field.start field.size = encode items ++ 255 :: rest ∧
    Unmatched code items ∧ bits = overloadBits m field.start items

def Names (bits : UInt8) : Field → Prop
  | .options => False
  | .file => bits &&& 1 ≠ 0
  | .sname => bits &&& 2 ≠ 0

section

variable {m : Nat → UInt8} {code : Int} {s : Search} {bs : List UInt8}

structure Before (m : Nat → UInt8) (s : Search) (bs : List UInt8) : Prop where
  stored : Stored m s.optionptr bs
  rem : s.rem = bs.length

def Search.past (m : Nat → UInt8) (s : Search) (items : List FieldItem) : Search :=
  { s with
    optionptr := s.optionptr + (encode items).length
    rem := s.rem - (encode items).length
    overload := s.overload ||| overloadBits m s.optionptr items }

theorem accesses_fetch_bind {α : Type} {k : UInt8 → Handler α} (ptr : Nat) :
    (fetch (.byte ptr) >>= k).accesses (memory m) = .byte ptr :: (k (m ptr)).accesses (memory m) := rfl

theorem stored_cons {ptr : Nat} {c : UInt8} :
    Stored m ptr (c :: bs) ↔ m ptr = c ∧ Stored m (ptr + 1) bs := by
  have hsplit := @stored_append m ptr [c] bs
  have hhead : Stored m ptr [c] ↔ m ptr = c := by
    simp [Stored,fieldAt]
  rw [← hhead]
  exact hsplit

def Takes (m : Nat → UInt8) (code : Int) (s : Search) (turn : Turn) (reads : List Access) : Prop :=
  (searchTurn code s).run (memory m) = .ok turn ∧ (searchTurn code s).accesses (memory m) = reads

theorem turn_exhausted (h : s.rem ≤ 0) : Takes m code s (.done none) [] := by
  unfold Takes searchTurn
  rw [if_pos h]
  exact ⟨rfl,rfl⟩

theorem turn_padding (h : Before m s (0 :: bs)) :
    Takes m code s (.advance (s.past m [.padding])) [.byte s.optionptr] := by
  have hrem := h.rem
  obtain ⟨hbyte,-⟩ := stored_cons.mp h.stored
  have hpast : s.past m [.padding] =
      { s with rem := s.rem - 1, optionptr := s.optionptr + 1 } := by
    simp [Search.past,encode,Item.bytes,overloadBits]
  unfold Takes searchTurn
  rw [if_neg (by simp only [length_cons] at hrem; omega),run_fetch_bind (memory_byte _),
    accesses_fetch_bind,if_pos hbyte,hpast]
  exact ⟨rfl,rfl⟩

theorem turn_closed {bs : List UInt8} (h : Before m s (255 :: bs)) :
    Takes m code s (endTurn s.overload) [.byte s.optionptr] := by
  have hrem := h.rem
  obtain ⟨hbyte,-⟩ := stored_cons.mp h.stored
  unfold Takes searchTurn
  rw [if_neg (by simp only [length_cons] at hrem; omega),run_fetch_bind (memory_byte _),
    accesses_fetch_bind,hbyte,if_neg (by decide),if_pos rfl]
  unfold endTurn
  cases nextField s.overload with
  | none | some next => exact ⟨rfl,rfl⟩

theorem turn_truncated {tail : List UInt8} (h : Before m s tail) (hcut : Truncated 0 255 tail) :
    ∃ s', Takes m code s (.advance s') [.byte s.optionptr,.byte (s.optionptr + 1)] ∧
      s'.rem < 0 := by
  obtain ⟨c,rest,rfl,hpad,hstop,hshort⟩ := hcut
  have hrem := h.rem
  obtain ⟨hbyte,hrest⟩ := stored_cons.mp h.stored
  have hneg : s.rem - (2 + (m (s.optionptr + 1)).toNat : Nat) < 0 := by
    cases rest with
    | nil =>
      simp only [length_cons,length_nil] at hrem
      omega
    | cons l value =>
      have hlt := hshort l value rfl
      simp only [length_cons] at hrem
      rw [(stored_cons.mp hrest).1]
      omega
  unfold Takes searchTurn
  rw [if_neg (by simp only [length_cons] at hrem; omega),run_fetch_bind (memory_byte _),
    accesses_fetch_bind,hbyte,if_neg hpad,if_neg hstop,run_fetch_bind (memory_byte _),
    accesses_fetch_bind]
  rw [if_pos hneg]
  exact ⟨_,⟨rfl,rfl⟩,hneg⟩

def optionReads (o : Tagged 0 255) (code : Int) (ptr : Nat) : List Access :=
  if (o.code.toNat : Int) ≠ code ∧ o.code = 0x34 then [.byte ptr,.byte (ptr + 1),.byte (ptr + 2)]
  else [.byte ptr,.byte (ptr + 1)]

theorem turn_option {o : Tagged 0 255} (h : Before m s (o.bytes ++ bs)) :
    Takes m code s
      (if (o.code.toNat : Int) = code then .done (some ⟨s.optionptr + 2,o.value.length⟩)
        else .advance (s.past m [.option o])) (optionReads o code s.optionptr) := by
  have hrem := h.rem
  have hstored := h.stored
  rw [o.bytes_append] at hrem hstored
  obtain ⟨hcode,hstored⟩ := stored_cons.mp hstored
  obtain ⟨hsize,-⟩ := stored_cons.mp hstored
  simp only [length_cons,length_append] at hrem
  have hlength : (m (s.optionptr + 1)).toNat = o.value.length := by rw [hsize,o.size_toNat]
  unfold Takes searchTurn
  rw [if_neg (by omega),run_fetch_bind (memory_byte _),accesses_fetch_bind,hcode,
    if_neg o.code_ne_pad,if_neg o.code_ne_stop,run_fetch_bind (memory_byte _),
    accesses_fetch_bind]
  rw [hlength,if_neg (by omega)]
  unfold optionReads
  by_cases hmatch : (o.code.toNat : Int) = code
  · rw [if_pos hmatch,if_pos hmatch,if_neg (fun hne => hne.1 hmatch)]
    exact ⟨rfl,rfl⟩
  rw [if_neg hmatch,if_neg hmatch]
  simp only [Search.past,encode_singleton,Item.bytes,o.bytes_length,overloadBits,UInt8.or_zero]
  by_cases hoverload : o.code = 0x34
  · rw [if_pos hoverload,if_pos hoverload,if_pos ⟨hmatch,hoverload⟩,
      run_fetch_bind (memory_byte _),accesses_fetch_bind]
    exact ⟨rfl,rfl⟩
  · rw [if_neg hoverload,if_neg hoverload,if_neg (fun hne => hoverload hne.2),UInt8.or_zero]
    exact ⟨rfl,rfl⟩

theorem turn_item {item : FieldItem} (h : Before m s (item.bytes ++ bs)) (hne : ¬Matches code item) :
    (searchTurn code s).run (memory m) = .ok (.advance (s.past m [item])) := by
  cases item with
  | padding => exact (turn_padding h).1
  | option o =>
    rw [(turn_option h).1]
    exact congrArg Except.ok (if_neg hne)

theorem past_nil : s.past m [] = s := by
  simp [Search.past,overloadBits]

theorem overloadBits_cons (ptr : Nat) (item : FieldItem) (items : List FieldItem) :
    overloadBits m ptr (item :: items) =
      overloadBits m ptr [item] ||| overloadBits m (ptr + item.bytes.length) items := by
  cases item with
  | padding =>
    simp only [overloadBits,UInt8.zero_or]
    rfl
  | option o =>
    simp only [overloadBits,UInt8.or_zero]
    rfl

theorem past_cons (item : FieldItem) (items : List FieldItem) :
    s.past m (item :: items) = (s.past m [item]).past m items := by
  unfold Search.past
  rw [overloadBits_cons]
  simp only [encode_cons,encode_nil,append_nil,length_append,UInt8.or_assoc,
    Search.mk.injEq,true_and,and_true]
  omega

theorem before_past {items : List FieldItem} (h : Before m s (encode items ++ bs)) :
    Before m (s.past m items) bs where
  stored := (stored_append.mp h.stored).2
  rem := by
    have hrem := h.rem
    rw [length_append] at hrem
    simp only [Search.past]
    omega

end

section

variable {m : Nat → UInt8} {code : Int} {s : Search} {fields : List Field} {r : Option Found}

def Continues (m : Nat → UInt8) (code : Int) : Turn → List Field → Option Found → Prop
  | .done result, fields, r => fields = [] ∧ r = result
  | .advance s, fields, r => Searches m code s fields r
  | .jump field overload, fields, r =>
    ∃ later, fields = field :: later ∧ Searches m code (enter field overload) later r

theorem Searches.turn {turn : Turn} (h : (searchTurn code s).run (memory m) = .ok turn) :
    Searches m code s fields r ↔ Continues m code turn fields r := by
  constructor
  · intro hs
    cases hs with
    | done h' =>
      cases h.symm.trans h'
      exact ⟨rfl,rfl⟩
    | advance h' hs =>
      cases h.symm.trans h'
      exact hs
    | jump h' hs =>
      cases h.symm.trans h'
      exact ⟨_,rfl,hs⟩
  intro hs
  cases turn with
  | done result =>
    obtain ⟨rfl,rfl⟩ := hs
    exact .done h
  | advance s' => exact .advance h hs
  | jump field overload =>
    obtain ⟨later,rfl,hs⟩ := hs
    exact .jump h hs

theorem Searches.past {items : List FieldItem} {bs : List UInt8}
    (h : Before m s (encode items ++ bs)) (hne : Unmatched code items) :
    Searches m code s fields r ↔ Searches m code (s.past m items) fields r := by
  induction items generalizing s with
  | nil => rw [past_nil]
  | cons item items ih =>
    obtain ⟨hitem,hitems⟩ := forall_mem_cons.mp hne
    rw [encode_cons,append_assoc] at h
    have hnext : Before m (s.past m [item]) (encode items ++ bs) :=
      before_past (by rwa [encode_singleton])
    rw [Searches.turn (turn_item h hitem),Continues,ih hnext hitems,← past_cons]

theorem items_first_match (code : Int) (items : List FieldItem) :
    Unmatched code items ∨ ∃ pre o post, items = pre ++ .option o :: post ∧ Unmatched code pre ∧
      (o.code.toNat : Int) = code := by
  induction items with
  | nil => exact .inl nofun
  | cons item items ih =>
    by_cases hitem : Matches code item
    · cases item with
      | padding => exact hitem.elim
      | option o => exact .inr ⟨[],o,items,rfl,nofun,hitem⟩
    · obtain hitems | ⟨pre,o,post,rfl,hpre,ho⟩ := ih
      · exact .inl (forall_mem_cons.mpr ⟨hitem,hitems⟩)
      · exact .inr ⟨item :: pre,o,post,rfl,forall_mem_cons.mpr ⟨hitem,hpre⟩,ho⟩

end

section

variable {m : Nat → UInt8} {code : UInt8} {field : Field} {fields : List Field} {r : Option Found}

def Resumes (m : Nat → UInt8) (code : Int) : Scan → List Field → Option Found → Prop
  | .missing => Continues m code (.done none)
  | .found option => Continues m code (.done (some option))
  | .ended overload => Continues m code (endTurn overload)

theorem scanField_searches {fuel : Nat} : ∀ {rem offset : Nat} {overload : UInt8}, rem ≤ fuel →
    ∃ scan, (scanField code fuel rem offset overload).run (memory m) = .ok scan ∧
      ∀ fields r, Searches m code.toNat ⟨field,offset,rem,overload⟩ fields r ↔
        Resumes m code.toNat scan fields r := by
  have hempty : ∀ {offset : Nat} {overload : UInt8} {fields : List Field} {r : Option Found},
      Searches m code.toNat ⟨field,offset,(0 : Nat),overload⟩ fields r ↔
        Resumes m code.toNat .missing fields r := Searches.turn (turn_exhausted (Int.le_refl 0)).1
  induction fuel with
  | zero =>
    intro rem offset overload hrem
    obtain rfl : rem = 0 := Nat.le_zero.mp hrem
    exact ⟨.missing,rfl,fun _ _ => hempty⟩
  | succ fuel ih =>
    intro rem offset overload hrem
    by_cases hzero : rem = 0
    · subst hzero
      exact ⟨.missing,by simp [scanField,run_pure],fun _ _ => hempty⟩
    have hturn := @Searches.turn m code.toNat ⟨field,offset,rem,overload⟩
    rw [searchTurn,if_neg (by dsimp only; omega),run_fetch_bind (memory_byte _)] at hturn
    rw [scanField,if_neg hzero,run_fetch_bind (memory_byte _)]
    by_cases hpad : m offset = 0
    · rw [if_pos hpad] at hturn ⊢
      obtain ⟨scan,hscan,hsearch⟩ := @ih (rem - 1) (offset + 1) overload (by omega)
      rw [Nat.cast_sub (by omega)] at hsearch
      exact ⟨scan,hscan,fun fields r => (hturn rfl).trans (hsearch fields r)⟩
    by_cases hend : m offset = 255
    · rw [if_neg hpad,if_pos hend] at hturn ⊢
      refine ⟨.ended overload,rfl,fun fields r => hturn ?_⟩
      unfold endTurn
      cases nextField overload <;> rfl
    rw [if_neg hpad,if_neg hend,run_fetch_bind (memory_byte _)] at hturn ⊢
    by_cases hlong : rem < 2 + (m (offset + 1)).toNat
    · rw [if_pos (by dsimp only; omega)] at hturn
      rw [if_pos hlong]
      refine ⟨.missing,rfl,fun fields r => (hturn rfl).trans ?_⟩
      exact Searches.turn (turn_exhausted (by dsimp only; omega)).1
    rw [if_neg (by dsimp only; omega)] at hturn
    rw [if_neg hlong]
    by_cases hcode : m offset = code
    · rw [if_pos (by rw [hcode])] at hturn
      rw [if_pos hcode]
      exact ⟨.found ⟨offset + 2,(m (offset + 1)).toNat⟩,rfl,fun _ _ => hturn rfl⟩
    have hdiff : ¬((m offset).toNat : Int) = code.toNat := fun h =>
      hcode (UInt8.toNat_inj.mp (Int.ofNat.inj h))
    rw [if_neg hdiff] at hturn
    rw [if_neg hcode]
    have hskip := fun bits => @ih (rem - (2 + (m (offset + 1)).toNat))
      (offset + (2 + (m (offset + 1)).toNat)) bits (by omega)
    rw [Nat.cast_sub (by omega)] at hskip
    by_cases hoverload : m offset = 0x34
    · rw [if_pos hoverload,run_fetch_bind (memory_byte _)] at hturn ⊢
      obtain ⟨scan,hscan,hsearch⟩ := hskip (overload ||| m (offset + 2))
      exact ⟨scan,hscan,fun fields r => (hturn rfl).trans (hsearch fields r)⟩
    · rw [if_neg hoverload] at hturn ⊢
      obtain ⟨scan,hscan,hsearch⟩ := hskip overload
      exact ⟨scan,hscan,fun fields r => (hturn rfl).trans (hsearch fields r)⟩

theorem scanFields_searches {laps : Nat} {overload : UInt8} :
    (scanFields code laps field overload).run (memory m) = .ok r ↔
      ∃ fields, fields.length < laps ∧ Searches m code.toNat (enter field overload) fields r := by
  induction laps generalizing field overload with
  | zero => simp [scanFields,run]
  | succ laps ih =>
    obtain ⟨scan,hscan,hsearch⟩ := @scanField_searches m code field _ _ field.start overload
      (Nat.le_refl field.size)
    rw [scanFields,run_bind_of hscan]
    simp only [enter,hsearch]
    cases scan with
    | missing | found _ => simp [Resumes,Continues,run_pure,eq_comm]
    | ended overload =>
      unfold Resumes endTurn
      dsimp only
      cases nextField overload with
      | none => simp [Continues,run_pure,eq_comm]
      | some next =>
        dsimp only
        rw [ih]
        constructor
        · rintro ⟨fields,hlength,hs⟩
          exact ⟨next.1 :: fields,Nat.succ_lt_succ hlength,fields,rfl,hs⟩
        · rintro ⟨_,hlength,fields,rfl,hs⟩
          exact ⟨fields,Nat.lt_of_succ_lt_succ hlength,hs⟩

end

section

variable {m : Nat → UInt8} {code : Int} {field : Field} {items : List FieldItem}
  {fields : List Field} {overload : UInt8} {r : Option Found} {bs tail : List UInt8}

theorem field_size (h : fieldAt m field.start field.size = bs) : bs.length = field.size := by
  rw [← h,fieldAt,length_map,length_range]

theorem before_enter (overload : UInt8) (h : fieldAt m field.start field.size = bs) :
    Before m (enter field overload) bs where
  stored := by
    rw [Stored,field_size h]
    exact h
  rem := by
    rw [field_size h]
    rfl

theorem Searches.matched {pre post : List FieldItem} {o : Tagged 0 255}
    (h : fieldAt m field.start field.size = encode (pre ++ .option o :: post) ++ tail)
    (hpre : Unmatched code pre) (ho : (o.code.toNat : Int) = code) :
    Searches m code (enter field overload) fields r ↔
      fields = [] ∧ r = some ⟨field.start + (encode pre).length + 2,o.value.length⟩ := by
  rw [encode_append,encode_cons,append_assoc,append_assoc] at h
  have hbefore := before_enter overload h
  rw [Searches.past hbefore hpre,Searches.turn (turn_option (before_past hbefore)).1,if_pos ho]
  rfl

theorem Searches.closed {rest : List UInt8}
    (h : fieldAt m field.start field.size = encode items ++ 255 :: rest) (hitems : Unmatched code items) :
    Searches m code (enter field overload) fields r ↔
      Continues m code (endTurn (overload ||| overloadBits m field.start items)) fields r := by
  have hbefore := before_enter overload h
  rw [Searches.past hbefore hitems,Searches.turn (turn_closed (before_past hbefore)).1]
  rfl

theorem Searches.unclosed (h : fieldAt m field.start field.size = encode items ++ tail)
    (hitems : Unmatched code items) (htail : tail = [] ∨ Truncated 0 255 tail) :
    Searches m code (enter field overload) fields r ↔ fields = [] ∧ r = none := by
  have hbefore := before_enter overload h
  rw [Searches.past hbefore hitems]
  obtain rfl | hcut := htail
  · have hrem := (before_past hbefore).rem
    exact Searches.turn (turn_exhausted (by rw [hrem]; decide)).1
  · obtain ⟨s',hturn,hrem⟩ := @turn_truncated m code _ _ (before_past hbefore) hcut
    rw [Searches.turn hturn.1]
    exact Searches.turn (turn_exhausted (by omega)).1

inductive FieldOutcome (m : Nat → UInt8) (code : Int) (field : Field) : Prop
  | stops (r : Option Found) (hopen : ∀ bits, ¬Declares m code field bits)
      (hsearch : ∀ overload fields r', Searches m code (enter field overload) fields r' ↔
        fields = [] ∧ r' = r)
  | closes (bits : UInt8) (hbits : ∀ bits', Declares m code field bits' ↔ bits' = bits)
      (hsearch : ∀ overload fields r, Searches m code (enter field overload) fields r ↔
        Continues m code (endTurn (overload ||| bits)) fields r)

theorem fieldOutcome (m : Nat → UInt8) (code : Int) (field : Field) :
    FieldOutcome m code field := by
  obtain ⟨items,tail,hfield,hending⟩ :=
    @items_split 0 255 (fieldAt m field.start field.size)
  have hunique : ∀ bits, Declares m code field bits →
      Unmatched code items ∧ (∃ rest, tail = 255 :: rest) ∧
        bits = overloadBits m field.start items := by
    rintro bits ⟨items',rest,hfield',hitems',hbits⟩
    obtain ⟨rfl,rfl⟩ :=
      items_unique (by decide) hending (.closed rest) (hfield.symm.trans hfield')
    exact ⟨hitems',⟨rest,rfl⟩,hbits⟩
  obtain hitems | ⟨pre,o,post,rfl,hpre,ho⟩ := items_first_match code items
  · by_cases hclosed : ∃ rest, tail = 255 :: rest
    · obtain ⟨rest,rfl⟩ := hclosed
      refine .closes (overloadBits m field.start items) (fun bits' => ?_) fun overload fields r =>
        Searches.closed hfield hitems
      constructor
      · exact fun h => (hunique bits' h).2.2
      · rintro rfl
        exact ⟨items,rest,hfield,hitems,rfl⟩
    refine .stops none (fun bits h => hclosed (hunique bits h).2.1) fun overload fields r' =>
      Searches.unclosed hfield hitems ?_
    cases hending with
    | exhausted => exact .inl rfl
    | closed rest => exact absurd ⟨rest,rfl⟩ hclosed
    | truncated h => exact .inr h
  · refine .stops _ (fun bits h => ?_) fun overload fields r' => Searches.matched hfield hpre ho
    exact (hunique bits h).1 (.option o) (by simp) ho

end

def ScansFrom (scanned : List Field) (field : Field) (overload : UInt8) : Prop :=
  ∃ fields r, Searches m code (enter field overload) fields r ∧ (scanned ++ field :: fields).Nodup

section

variable {m : Nat → UInt8} {code : Int} {field : Field} {scanned : List Field} {overload : UInt8}

theorem scansFrom_repeated (h : field ∈ scanned) : ¬ScansFrom m code scanned field overload := by
  rintro ⟨fields,r,-,hnodup⟩
  have hdisjoint := (nodup_append.mp hnodup).2.2
  exact hdisjoint field h field mem_cons_self rfl

theorem scansFrom_iff (h : (scanned ++ [field]).Nodup) : ScansFrom m code scanned field overload ↔
      ∀ bits, Declares m code field bits → ∀ next pending,
        nextField (overload ||| bits) = some (next,pending) →
          ScansFrom m code (scanned ++ [field]) next pending := by
  unfold ScansFrom
  cases fieldOutcome m code field with
  | stops r hopen hsearch =>
    constructor
    · exact fun _ bits hbits => absurd hbits (hopen bits)
    · exact fun _ => ⟨[],r,(hsearch _ _ _).mpr ⟨rfl,rfl⟩,h⟩
  | closes bits hbits hsearch =>
    simp only [hbits,hsearch,forall_eq,endTurn]
    cases nextField (overload ||| bits) with
    | none =>
      constructor
      · intro _ next pending hnone
        cases hnone
      · exact fun _ => ⟨[],none,⟨rfl,rfl⟩,h⟩
    | some next =>
      obtain ⟨next,pending⟩ := next
      simp only [append_assoc,singleton_append]
      constructor
      · rintro ⟨fields,r,⟨later,rfl,hlater⟩,hnodup⟩ _ _ hnext
        cases hnext
        exact ⟨later,r,hlater,hnodup⟩
      · intro hlater
        obtain ⟨later,r,hlater,hnodup⟩ := hlater next pending rfl
        exact ⟨next :: later,r,⟨later,rfl,hlater⟩,hnodup⟩

theorem forall_nextField {P : Field → UInt8 → Prop} (bits : UInt8) :
    (∀ next pending, nextField bits = some (next,pending) → P next pending) ↔
      (Names bits .file → P .file (bits &&& 0xfe)) ∧
        (¬Names bits .file → Names bits .sname → P .sname (bits &&& 0xfd)) := by
  unfold nextField Names
  by_cases hfile : bits &&& 1 ≠ 0
  · simp [hfile]
  · by_cases hsname : bits &&& 2 ≠ 0 <;> simp [hfile,hsname]

theorem or_and_eq_zero_iff (a b mask : UInt8) :
    (a ||| b) &&& mask = 0 ↔ a &&& mask = 0 ∧ b &&& mask = 0 := by
  simp only [← UInt8.toBitVec_inj,UInt8.toBitVec_and,UInt8.toBitVec_or,UInt8.toBitVec_zero,
    BitVec.and_or_distrib_right]
  exact BitVec.or_eq_zero_iff

theorem names_or (a b : UInt8) (field : Field) :
    Names (a ||| b) field ↔ Names a field ∨ Names b field := by
  cases field with
  | options => simp [Names]
  | file | sname => simp only [Names,ne_eq,or_and_eq_zero_iff,not_and_or]

theorem names_clearFile (bits : UInt8) :
    ¬Names (bits &&& 0xfe) .file ∧ (Names (bits &&& 0xfe) .sname ↔ Names bits .sname) := by
  simp only [Names,UInt8.and_assoc]
  exact ⟨not_not.mpr UInt8.and_zero,Iff.rfl⟩

theorem names_clearSname (bits : UInt8) :
    ¬Names (bits &&& 0xfd) .sname ∧ (Names (bits &&& 0xfd) .file ↔ Names bits .file) := by
  simp only [Names,UInt8.and_assoc]
  exact ⟨not_not.mpr UInt8.and_zero,Iff.rfl⟩

theorem scansFrom_sname_last (h : ¬Names overload .file ∧ ¬Names overload .sname) :
    ScansFrom m code [.options,.file] .sname overload ↔
      ∀ s, Declares m code .sname s → ¬Names s .file ∧ ¬Names s .sname := by
  rw [scansFrom_iff (by decide)]
  simp only [forall_nextField,names_or,h,false_or]
  refine forall_congr' fun s => imp_congr_right fun _ => ?_
  simp (disch := decide) only [cons_append,nil_append,scansFrom_repeated,imp_false]
  tauto

theorem scansFrom_file_first (h : ¬Names overload .file) :
    ScansFrom m code [.options] .file overload ↔
      ∀ f, Declares m code .file f → ¬Names f .file ∧ (Names overload .sname ∨ Names f .sname →
        ∀ s, Declares m code .sname s → ¬Names s .file ∧ ¬Names s .sname) := by
  rw [scansFrom_iff (by decide)]
  simp only [forall_nextField,names_or,h,false_or]
  refine forall_congr' fun f => imp_congr_right fun _ => ?_
  simp (disch := decide) only [cons_append,nil_append,scansFrom_repeated,imp_false]
  refine and_congr_right fun hnot => ?_
  have hpending := names_clearSname (overload ||| f)
  rw [names_or] at hpending
  rw [scansFrom_sname_last ⟨fun hnamed => (hpending.2.mp hnamed).elim h hnot,hpending.1⟩]
  exact ⟨fun hscan hnamed => hscan hnot hnamed,fun hscan _ hnamed => hscan hnamed⟩

theorem scansFrom_file_last (h : ¬Names overload .file) :
    ScansFrom m code [.options,.sname] .file overload ↔ ∀ f, Declares m code .file f →
        ¬Names f .file ∧ ¬Names f .sname ∧ ¬Names overload .sname := by
  rw [scansFrom_iff (by decide)]
  simp only [forall_nextField,names_or,h,false_or]
  refine forall_congr' fun f => imp_congr_right fun _ => ?_
  simp (disch := decide) only [cons_append,nil_append,scansFrom_repeated,imp_false]
  tauto

theorem scansFrom_sname_first (h : ¬Names overload .file ∧ ¬Names overload .sname) :
    ScansFrom m code [.options] .sname overload ↔
      ∀ s, Declares m code .sname s → (Names s .sname → Names s .file) ∧ (Names s .file →
        ∀ f, Declares m code .file f → ¬Names f .file ∧ ¬Names f .sname ∧ ¬Names s .sname) := by
  rw [scansFrom_iff (by decide)]
  simp only [forall_nextField,names_or,h,false_or]
  refine forall_congr' fun s => imp_congr_right fun _ => ?_
  have hpending := names_clearFile (overload ||| s)
  rw [names_or] at hpending
  simp (disch := decide) only [cons_append,nil_append,scansFrom_repeated,imp_false,
    scansFrom_file_last hpending.1,hpending.2,h,false_or]
  tauto

end

def ScansOnce : Prop :=
  ∃ fields r, Searches m code (enter .options 0) fields r ∧ (Field.options :: fields).Nodup

structure FieldsNamedOnce : Prop where
  fileFirst : ∀ o, Declares m code .options o → Names o .file →
    ∀ f, Declares m code .file f → ¬Names f .file ∧ (Names o .sname ∨ Names f .sname →
      ∀ s, Declares m code .sname s → ¬Names s .file ∧ ¬Names s .sname)
  snameFirst : ∀ o, Declares m code .options o → ¬Names o .file → Names o .sname →
    ∀ s, Declares m code .sname s → (Names s .sname → Names s .file) ∧ (Names s .file →
      ∀ f, Declares m code .file f → ¬Names f .file ∧ ¬Names f .sname ∧ ¬Names s .sname)

theorem option_search_once_iff (m : Nat → UInt8) (code : Int) :
    ScansOnce m code ↔ FieldsNamedOnce m code := by
  have hstart : ScansOnce m code ↔ ScansFrom m code [] .options 0 := Iff.rfl
  rw [hstart,scansFrom_iff (by decide)]
  simp only [forall_nextField,UInt8.zero_or,nil_append]
  have hfile : ∀ o, ScansFrom m code [.options] .file (o &&& 0xfe) ↔ _ := fun o =>
    scansFrom_file_first (names_clearFile o).1
  have hsname : ∀ o, ¬Names o .file → (ScansFrom m code [.options] .sname (o &&& 0xfd) ↔ _) :=
    fun o ho => scansFrom_sname_first ⟨mt (names_clearSname o).2.mp ho,(names_clearSname o).1⟩
  constructor
  · intro h
    constructor
    · intro o ho hnamed
      have hscan := (hfile o).mp ((h o ho).1 hnamed)
      rwa [(names_clearFile o).2] at hscan
    · intro o ho hnot hnamed
      exact (hsname o hnot).mp ((h o ho).2 hnot hnamed)
  intro h o ho
  constructor
  · intro hnamed
    rw [hfile,(names_clearFile o).2]
    exact h.fileFirst o ho hnamed
  · intro hnot hnamed
    exact (hsname o hnot).mpr (h.snameFirst o ho hnot hnamed)

def loopingPacket : Nat → UInt8 :=
  valueBytes (replicate 108 0 ++ [52,1,1,255] ++ replicate 128 0 ++ [52,1,1,255])

def fileOverload : Tagged 0 255 := ⟨52,[1],by decide,by decide,by decide⟩

theorem loopingPacket_never_returns :
    ¬ScansOnce loopingPacket 1 ∧
      ¬∃ fields r, Searches loopingPacket 1 (enter .options 0) fields r := by
  have hunmatched : Unmatched 1 [.option fileOverload] := by decide
  have hoptions : fieldAt loopingPacket 240 388 =
      encode [.option fileOverload] ++ 255 :: List.replicate 384 0 := by decide +kernel
  have hfile : fieldAt loopingPacket 108 128 =
      encode [.option fileOverload] ++ 255 :: List.replicate 124 0 := by decide +kernel
  have hloop : ∀ fields r, ¬Searches loopingPacket 1 (enter .file 0) fields r := by
    intro fields r
    induction fields with
    | nil =>
      intro h
      obtain ⟨later,hlater,-⟩ := (@Searches.closed _ 1 .file _ _ 0 _ _ hfile hunmatched).mp h
      cases hlater
    | cons field fields ih =>
      intro h
      obtain ⟨later,hlater,hrest⟩ := (@Searches.closed _ 1 .file _ _ 0 _ _ hfile hunmatched).mp h
      cases hlater
      exact ih hrest
  have hnever : ¬∃ fields r, Searches loopingPacket 1 (enter .options 0) fields r := by
    rintro ⟨fields,r,h⟩
    obtain ⟨later,-,hrest⟩ := (@Searches.closed _ 1 .options _ _ 0 _ _ hoptions hunmatched).mp h
    exact hloop later r hrest
  exact ⟨fun ⟨fields,r,h,_⟩ => hnever ⟨fields,r,h⟩,hnever⟩

end FuzzingTargets.Gdhcp
