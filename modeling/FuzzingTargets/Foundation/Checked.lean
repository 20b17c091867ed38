import Mathlib.Data.List.Basic

namespace FuzzingTargets.Checked
open List

variable {ε α β : Type} {m : Except ε α} {k : α → Except ε β}

def Avoids (bad : ε → Prop) (m : Except ε α) : Prop := ∀ e, m = .error e → ¬bad e

theorem avoids_ok (bad : ε → Prop) (a : α) : Avoids bad (.ok a : Except ε α) := by
  intro e h
  cases h

theorem avoids_pure (bad : ε → Prop) (a : α) : Avoids bad (pure a : Except ε α) :=
  avoids_ok bad a

theorem avoids_error {bad : ε → Prop} {e : ε} : Avoids bad (.error e : Except ε α) ↔ ¬bad e := by
  constructor
  · intro h
    exact h e rfl
  · intro h e' he
    cases he
    exact h

theorem bind_ok (a : α) (k : α → Except ε β) : (Except.ok a >>= k) = k a := rfl

theorem bind_error (e : ε) (k : α → Except ε β) :
    ((Except.error e : Except ε α) >>= k) = .error e := rfl

def failure (m : Except ε α) : Option ε :=
  match m with
  | .error e => some e
  | .ok _ => none

theorem eq_error_of_failure {e : ε} (h : failure m = some e) : m = .error e := by
  cases m with
  | error e' => cases h; rfl
  | ok a => cases h

theorem bind_eq_ok {b : β} (h : (m >>= k) = .ok b) : ∃ a, m = .ok a ∧ k a = .ok b := by
  cases m with
  | error e => cases h
  | ok a => exact ⟨a,rfl,h⟩

theorem ok_of_bind {a : α} {b : β} (h : m = .ok a) (hk : k a = .ok b) : (m >>= k) = .ok b := by
  rw [h]
  exact hk

theorem avoids_bind {bad : ε → Prop} :
    Avoids bad (m >>= k) ↔ Avoids bad m ∧ ∀ a, m = .ok a → Avoids bad (k a) := by
  cases m with
  | error e =>
    rw [bind_error,avoids_error,avoids_error]
    exact ⟨fun h => ⟨h,nofun⟩,fun h => h.1⟩
  | ok a =>
    rw [bind_ok]
    constructor
    · intro h
      refine ⟨avoids_ok bad a,?_⟩
      intro b hb
      cases hb
      exact h
    · intro h
      exact h.2 a rfl

def load (fault : Nat → ε) (buf : List α) (i : Nat) : Except ε α :=
  match buf[i]? with
  | some a => .ok a
  | none => .error (fault i)

def loadSlice (fault : Nat → ε) (buf : List α) (i n : Nat) : Except ε (List α) :=
  if i + n ≤ buf.length then .ok ((buf.drop i).take n) else .error (fault (max i buf.length))

def storeSlice (fault : Nat → ε) (buf : List α) (i : Nat) (bs : List α) : Except ε (List α) :=
  if i + bs.length ≤ buf.length then .ok (buf.take i ++ bs ++ buf.drop (i + bs.length))
  else .error (fault (max i buf.length))

section

variable {fault : Nat → ε} {buf : List α} {i n : Nat} {bs : List α} {bad : ε → Prop} {out : List α}

theorem load_ok (h : i < buf.length) : load fault buf i = .ok buf[i] := by
  simp [load,getElem?_eq_getElem h]

theorem load_fault (h : buf.length ≤ i) : load fault buf i = .error (fault i) := by
  simp [load,getElem?_eq_none h]

theorem load_some {a : α} (h : buf[i]? = some a) : load fault buf i = .ok a := by
  simp [load,h]

theorem load_eq_ok {a : α} (h : load fault buf i = .ok a) : buf[i]? = some a := by
  rcases Nat.lt_or_ge i buf.length with hi | hi
  · rw [load_ok hi] at h
    cases h
    exact getElem?_eq_getElem hi
  · rw [load_fault hi] at h
    cases h

theorem avoids_load (hbad : ∀ j, bad (fault j)) :
    Avoids bad (load fault buf i) ↔ i < buf.length := by
  rcases Nat.lt_or_ge i buf.length with hi | hi
  · rw [load_ok hi]
    exact ⟨fun _ => hi,fun _ => avoids_ok bad _⟩
  · rw [load_fault hi,avoids_error]
    exact ⟨fun h => absurd (hbad i) h,fun h => absurd h (by omega)⟩

theorem getD_of_load {a d : α} (h : load fault buf i = .ok a) : buf.getD i d = a := by
  rw [getD_eq_getElem?_getD,load_eq_ok h,Option.getD_some]

theorem load_harmless (hgood : ∀ j, ¬bad (fault j)) : Avoids bad (load fault buf i) := by
  unfold load
  split
  · exact avoids_ok bad _
  · exact avoids_error.mpr (hgood i)

theorem loadSlice_ok (h : i + n ≤ buf.length) :
    loadSlice fault buf i n = .ok ((buf.drop i).take n) := if_pos h

theorem loadSlice_eq_ok {a : List α} (h : loadSlice fault buf i n = .ok a) :
    i + n ≤ buf.length ∧ a = (buf.drop i).take n := by
  unfold loadSlice at h
  split at h
  · cases h
    exact ⟨by assumption,rfl⟩
  · cases h

theorem loadSlice_harmless (hgood : ∀ j, ¬bad (fault j)) :
    Avoids bad (loadSlice fault buf i n) := by
  unfold loadSlice
  split
  · exact avoids_ok bad _
  · exact avoids_error.mpr (hgood _)

theorem storeSlice_ok (h : i + bs.length ≤ buf.length) :
    storeSlice fault buf i bs = .ok (buf.take i ++ bs ++ buf.drop (i + bs.length)) := if_pos h

theorem storeSlice_eq_ok (h : storeSlice fault buf i bs = .ok out) :
    i + bs.length ≤ buf.length ∧ out = buf.take i ++ bs ++ buf.drop (i + bs.length) := by
  unfold storeSlice at h
  split at h
  · cases h
    exact ⟨by assumption,rfl⟩
  · cases h

theorem storeSlice_harmless (hgood : ∀ j, ¬bad (fault j)) :
    Avoids bad (storeSlice fault buf i bs) := by
  unfold storeSlice
  split
  · exact avoids_ok bad _
  · exact avoids_error.mpr (hgood _)

theorem storeSlice_length (h : storeSlice fault buf i bs = .ok out) : out.length = buf.length := by
  obtain ⟨hle,rfl⟩ := storeSlice_eq_ok h
  simp only [length_append,length_take,length_drop]
  omega

theorem storeSlice_extends {pre : List α} (hp : pre <+: buf)
    (h : storeSlice fault buf pre.length bs = .ok out) : pre ++ bs <+: out := by
  obtain ⟨rest,rfl⟩ := hp
  obtain ⟨-,rfl⟩ := storeSlice_eq_ok h
  rw [take_left]
  exact prefix_append _ _

theorem storeSlice_middle {pre old post : List α} (hpre : pre.length = i)
    (hlen : old.length = bs.length) :
    storeSlice fault (pre ++ (old ++ post)) i bs = .ok (pre ++ (bs ++ post)) := by
  subst hpre
  rw [storeSlice_ok (by simp only [length_append]; omega),take_left,← drop_drop,
    drop_left,← hlen,drop_left,append_assoc]

theorem storeSlice_patches {pre old post : List α} (hp : pre ++ (old ++ post) <+: buf)
    (hlen : old.length = bs.length) (h : storeSlice fault buf pre.length bs = .ok out) :
    pre ++ (bs ++ post) <+: out := by
  obtain ⟨rest,rfl⟩ := hp
  obtain ⟨-,rfl⟩ := storeSlice_eq_ok h
  refine ⟨rest,?_⟩
  have hd : (pre ++ (old ++ post) ++ rest).drop (pre.length + bs.length) = post ++ rest := by
    rw [append_assoc,← drop_drop,drop_left,← hlen,append_assoc,drop_left]
  have ht : (pre ++ (old ++ post) ++ rest).take pre.length = pre := by
    rw [append_assoc,take_left]
  rw [hd,ht]
  simp only [append_assoc]

theorem loadSlice_middle {pre post : List α} (hpre : pre.length = i) (hlen : bs.length = n) :
    loadSlice fault (pre ++ (bs ++ post)) i n = .ok bs := by
  subst hpre hlen
  rw [loadSlice_ok (by simp only [length_append]; omega),drop_left,take_left]

theorem storeSlice_next {pre : List α} (hp : pre <+: buf) (hi : pre.length = i)
    (hfit : i + bs.length ≤ buf.length) :
    ∃ out, storeSlice fault buf i bs = .ok out ∧ pre ++ bs <+: out ∧ out.length = buf.length := by
  subst hi
  have hstore := @storeSlice_ok _ _ fault _ _ _ hfit
  exact ⟨_,hstore,storeSlice_extends hp hstore,storeSlice_length hstore⟩

theorem storeSlice_over {pre old post : List α} (hp : pre ++ (old ++ post) <+: buf)
    (hi : pre.length = i) (hlen : old.length = bs.length) :
    ∃ out, storeSlice fault buf i bs = .ok out ∧ pre ++ (bs ++ post) <+: out ∧
      out.length = buf.length := by
  subst hi
  have hfit := hp.length_le
  simp only [length_append] at hfit
  have hstore := @storeSlice_ok _ _ fault buf pre.length bs (by omega)
  exact ⟨_,hstore,storeSlice_patches hp hlen hstore,storeSlice_length hstore⟩

end

end FuzzingTargets.Checked
