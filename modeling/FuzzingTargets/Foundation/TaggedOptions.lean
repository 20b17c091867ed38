import Mathlib.Tactic

namespace FuzzingTargets.TaggedOptions
open List

variable {pad stop : UInt8}

structure Tagged (pad stop : UInt8) where
  code : UInt8
  value : List UInt8
  code_ne_pad : code ≠ pad
  code_ne_stop : code ≠ stop
  value_lt : value.length < 256

inductive Item (pad stop : UInt8) where
  | padding
  | option (o : Tagged pad stop)

def Tagged.bytes (o : Tagged pad stop) : List UInt8 :=
  o.code :: UInt8.ofNat o.value.length :: o.value

def Item.bytes : Item pad stop → List UInt8
  | .padding => [pad]
  | .option o => o.bytes

def encode (items : List (Item pad stop)) : List UInt8 := items.flatMap Item.bytes

structure Truncated (pad stop : UInt8) (tail : List UInt8) : Prop where
  cut : ∃ c rest, tail = c :: rest ∧ c ≠ pad ∧ c ≠ stop ∧
    ∀ l value, rest = l :: value → value.length < l.toNat

inductive Ending (pad stop : UInt8) : List UInt8 → Prop
  | exhausted : Ending pad stop []
  | closed (rest : List UInt8) : Ending pad stop (stop :: rest)
  | truncated {tail : List UInt8} (h : Truncated pad stop tail) : Ending pad stop tail

@[simp] theorem encode_nil : encode ([] : List (Item pad stop)) = [] := rfl

@[simp] theorem encode_cons (item : Item pad stop) (items : List (Item pad stop)) :
    encode (item :: items) = item.bytes ++ encode items := rfl

theorem encode_singleton (item : Item pad stop) : encode [item] = item.bytes :=
  append_nil _

theorem encode_append (xs ys : List (Item pad stop)) : encode (xs ++ ys) = encode xs ++ encode ys :=
  flatMap_append

theorem Tagged.bytes_length (o : Tagged pad stop) : o.bytes.length = 2 + o.value.length := by
  simp only [bytes,length_cons]
  omega

theorem Tagged.bytes_append (o : Tagged pad stop) (bs : List UInt8) :
    o.bytes ++ bs = o.code :: UInt8.ofNat o.value.length :: (o.value ++ bs) := rfl

variable {o o' : Tagged pad stop}

theorem Tagged.ext (hcode : o.code = o'.code) (hvalue : o.value = o'.value) : o = o' := by
  cases o
  cases o'
  cases hcode
  cases hvalue
  rfl

theorem Tagged.size_toNat (o : Tagged pad stop) :
    (UInt8.ofNat o.value.length).toNat = o.value.length := by
  rw [UInt8.toNat_ofNat',Nat.mod_eq_of_lt o.value_lt]

theorem Item.bytes_pos (item : Item pad stop) : 0 < item.bytes.length := by
  cases item with
  | padding => exact Nat.one_pos
  | option o =>
    rw [bytes,o.bytes_length]
    omega

theorem items_split (bs : List UInt8) : ∃ (items : List (Item pad stop)) (tail : List UInt8),
      bs = encode items ++ tail ∧ Ending pad stop tail := by
  induction hn : bs.length using Nat.strongRecOn generalizing bs with
  | _ n ih =>
    match bs with
    | [] => exact ⟨[],[],rfl,.exhausted⟩
    | c :: rest =>
      by_cases hpad : c = pad
      · obtain ⟨items,tail,hrest,hending⟩ := ih rest.length (by simp [← hn]) rest rfl
        refine ⟨.padding :: items,tail,?_,hending⟩
        rw [hrest,hpad]
        rfl
      by_cases hstop : c = stop
      · exact ⟨[],c :: rest,rfl,hstop ▸ .closed rest⟩
      match rest with
      | [] => exact ⟨[],[c],rfl,.truncated ⟨c,[],rfl,hpad,hstop,nofun⟩⟩
      | l :: data =>
        by_cases hcut : data.length < l.toNat
        · refine ⟨[],c :: l :: data,rfl,.truncated ⟨c,l :: data,rfl,hpad,hstop,?_⟩⟩
          intro l' value heq
          cases heq
          exact hcut
        have htake : (data.take l.toNat).length = l.toNat := by
          rw [length_take]
          omega
        have hshorter : (data.drop l.toNat).length < n := by
          rw [length_drop,← hn]
          simp only [length_cons]
          omega
        obtain ⟨items,tail,hrest,hending⟩ := ih _ hshorter (data.drop l.toNat) rfl
        have hlt : (data.take l.toNat).length < 256 := by
          rw [htake]
          exact l.toNat_lt
        refine ⟨.option ⟨c,data.take l.toNat,hpad,hstop,hlt⟩ :: items,tail,?_,hending⟩
        rw [encode_cons,append_assoc,← hrest,Item.bytes,Tagged.bytes,htake]
        simp

theorem Ending.head_ne {c : UInt8} {bs : List UInt8} (h : Ending pad stop (c :: bs))
    (hpad : pad ≠ stop) : c ≠ pad := by
  cases h with
  | closed => exact Ne.symm hpad
  | truncated h =>
    obtain ⟨c',rest,heq,hne,-⟩ := h
    cases heq
    exact hne

theorem Ending.not_option {bs : List UInt8} : ¬Ending pad stop (o.bytes ++ bs) := by
  intro h
  generalize htail : o.bytes ++ bs = tail at h
  rw [o.bytes_append] at htail
  cases h with
  | exhausted => cases htail
  | closed rest => exact o.code_ne_stop (cons.inj htail).1
  | truncated h =>
    obtain ⟨c,rest,rfl,-,-,hcut⟩ := h
    have hshort := hcut _ _ (cons.inj htail).2.symm
    rw [o.size_toNat,length_append] at hshort
    omega

theorem Tagged.bytes_append_inj {xs ys : List UInt8} (h : o.bytes ++ xs = o'.bytes ++ ys) :
    o = o' ∧ xs = ys := by
  simp only [Tagged.bytes_append,cons.injEq] at h
  obtain ⟨hcode,hsize,hrest⟩ := h
  have hlength : o.value.length = o'.value.length := by
    rw [← o.size_toNat,hsize,o'.size_toNat]
  obtain ⟨hvalue,hxs⟩ := append_inj hrest hlength
  exact ⟨Tagged.ext hcode hvalue,hxs⟩

theorem items_unique (hne : pad ≠ stop) {items items' : List (Item pad stop)}
    {tail tail' : List UInt8} (h : Ending pad stop tail) (h' : Ending pad stop tail')
    (heq : encode items ++ tail = encode items' ++ tail') : items = items' ∧ tail = tail' := by
  induction items generalizing items' with
  | nil =>
    cases items' with
    | nil => exact ⟨rfl,heq⟩
    | cons item' items' =>
      rw [encode_nil,nil_append,encode_cons,append_assoc] at heq
      subst heq
      cases item' with
      | padding => exact absurd rfl (h.head_ne hne)
      | option o => exact absurd h Ending.not_option
  | cons item items ih =>
    rw [encode_cons,append_assoc] at heq
    cases items' with
    | nil =>
      rw [encode_nil,nil_append] at heq
      subst heq
      cases item with
      | padding => exact absurd rfl (h'.head_ne hne)
      | option o => exact absurd h' Ending.not_option
    | cons item' items' =>
      rw [encode_cons,append_assoc] at heq
      cases item with
      | padding =>
        cases item' with
        | padding =>
          obtain ⟨hitems,htail⟩ := ih (cons.inj heq).2
          exact ⟨by rw [hitems],htail⟩
        | option o => exact absurd (cons.inj heq).1.symm o.code_ne_pad
      | option o =>
        cases item' with
        | padding => exact absurd (cons.inj heq).1 o.code_ne_pad
        | option o' =>
          obtain ⟨rfl,hrest⟩ := Tagged.bytes_append_inj heq
          obtain ⟨hitems,htail⟩ := ih hrest
          exact ⟨by rw [hitems],htail⟩

end FuzzingTargets.TaggedOptions
