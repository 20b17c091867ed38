import Mathlib.Data.List.Basic

namespace FuzzingTargets.ByteOrder
open List

variable {α : Type}

def swapAt (data : List α) (a b : Nat) : List α :=
  match data[a]?, data[b]? with
  | some x, some y => (data.set a y).set b x
  | _, _ => data

def swapPairs (size offset : Nat) : Nat → List α → List α
  | 0, data => data
  | m + 1, data => swapAt (swapPairs size offset m data) (offset + m) (offset + (size - m - 1))

def swapWindow (size offset : Nat) (data : List α) : List α := swapPairs size offset (size / 2) data

def swapEach (size : Nat) : Nat → Nat → List α → List α
  | 0, _, data => data
  | n + 1, offset, data => swapEach size n (offset + size) (swapWindow size offset data)

def pickMirrored (size offset : Nat) (data : List α) : List α :=
  (List.range size).filterMap fun j => data[size - j - 1 + offset]?

def streamEach (size : Nat) (data : List α) : Nat → Nat → List α
  | 0, _ => []
  | n + 1, offset => pickMirrored size offset data ++ streamEach size data n (offset + size)

def rounds (total size : Nat) : Nat := (total + size - 1) / size

section

variable {data pre block post : List α} {a b size offset m x : Nat}

theorem swapAt_length (data : List α) (a b : Nat) : (swapAt data a b).length = data.length := by
  unfold swapAt
  split
  · rw [length_set,length_set]
  · rfl

theorem swapAt_getElem (ha : a < data.length) (hb : b < data.length) :
    (swapAt data a b)[x]? = if x = b then data[a]? else if x = a then data[b]? else data[x]? := by
  unfold swapAt
  rw [getElem?_eq_getElem ha,getElem?_eq_getElem hb]
  simp only [getElem?_set,length_set]
  grind

theorem swapPairs_length (size offset m : Nat) (data : List α) :
    (swapPairs size offset m data).length = data.length := by
  induction m with
  | zero => rfl
  | succ m ih => rw [swapPairs,swapAt_length,ih]

theorem swapPairs_getElem (hm : 2 * m ≤ size) (hlen : offset + size ≤ data.length) :
    (swapPairs size offset m data)[x]? =
      if offset ≤ x ∧ x < offset + m ∨ offset + size ≤ x + m ∧ x < offset + size then
        data[2 * offset + size - 1 - x]?
      else data[x]? := by
  induction m generalizing x with
  | zero =>
    rw [swapPairs,if_neg (by omega)]
  | succ m ih =>
    have hsize := swapPairs_length size offset m data
    rw [swapPairs,swapAt_getElem (by omega) (by omega),ih (by omega),ih (by omega),ih (by omega)]
    by_cases hright : x = offset + (size - m - 1)
    · rw [if_pos hright,if_neg (by omega),if_pos (by omega)]
      congr 1
      omega
    rw [if_neg hright]
    by_cases hleft : x = offset + m
    · rw [if_pos hleft,if_neg (by omega),if_pos (by omega)]
      congr 1
      omega
    rw [if_neg hleft]
    by_cases hin : offset ≤ x ∧ x < offset + m ∨ offset + size ≤ x + m ∧ x < offset + size
    · rw [if_pos hin,if_pos (by omega)]
    · rw [if_neg hin,if_neg (by omega)]

theorem window_getElem (hblock : block.length = size) (hx : x < size) :
    (pre ++ (block ++ post))[x + pre.length]? = block[x]? := by
  rw [getElem?_append_right (by omega),Nat.add_sub_cancel,getElem?_append_left (by omega)]

theorem swapWindow_reverses (hblock : block.length = size) :
    swapWindow size pre.length (pre ++ (block ++ post)) = pre ++ (block.reverse ++ post) := by
  apply ext_getElem?
  intro x
  rw [swapWindow,swapPairs_getElem (by omega) (by
    rw [length_append,length_append]
    omega)]
  rcases Nat.lt_or_ge x pre.length with hpre | hpre
  · rw [if_neg (by omega),getElem?_append_left hpre,getElem?_append_left hpre]
  obtain ⟨y,rfl⟩ : ∃ y, x = y + pre.length := ⟨x - pre.length,by omega⟩
  rcases Nat.lt_or_ge y size with hin | hout
  · have hreverse : (block.reverse)[y]? = block[size - 1 - y]? := by
      rw [getElem?_reverse (by omega),hblock]
    have hright : (pre ++ (block.reverse ++ post))[y + pre.length]? = block[size - 1 - y]? := by
      rw [window_getElem (length_reverse.trans hblock) hin,hreverse]
    rw [hright]
    by_cases hmiddle : y = size - 1 - y
    · split
      · rw [show 2 * pre.length + size - 1 - (y + pre.length) = y + pre.length by omega,
          window_getElem hblock hin,← hmiddle]
      · rw [window_getElem hblock hin,← hmiddle]
    · rw [if_pos (by omega),show 2 * pre.length + size - 1 - (y + pre.length) =
        (size - 1 - y) + pre.length by omega,window_getElem hblock (by omega)]
  · rw [if_neg (by omega),getElem?_append_right (by omega),
      getElem?_append_right (by omega),getElem?_append_right (by omega),
      getElem?_append_right (by rw [length_reverse]; omega),length_reverse]

theorem range_getElem (data : List α) :
    ((range data.length).filterMap fun j => data[j]?) = data := by
  induction data with
  | nil => rfl
  | cons a data ih =>
    have hfirst : (a :: data)[0]? = some a := rfl
    rw [length_cons,range_succ_eq_map,filterMap_cons,hfirst,filterMap_map]
    exact congrArg (a :: ·) ih

theorem pickMirrored_reverses (hblock : block.length = size) :
    pickMirrored size pre.length (pre ++ (block ++ post)) = block.reverse := by
  have hpick : ∀ j ∈ range size,
      (pre ++ (block ++ post))[size - j - 1 + pre.length]? = (block.reverse)[j]? := by
    intro j hj
    have hlt := mem_range.mp hj
    rw [window_getElem hblock (by omega),getElem?_reverse (by omega),hblock]
    congr 1
    omega
  rw [pickMirrored,filterMap_congr hpick,← hblock,← length_reverse]
  exact range_getElem block.reverse

end

section

variable {size : Nat} {blocks : List (List α)}

section

variable (h : ∀ b ∈ blocks, b.length = size)
include h

theorem swapEach_reverses (pre : List α) :
    swapEach size blocks.length pre.length (pre ++ blocks.flatten) =
      pre ++ (blocks.map List.reverse).flatten := by
  induction blocks generalizing pre with
  | nil => rfl
  | cons b blocks ih =>
    have hb := h b mem_cons_self
    have hrest := ih (forall_mem_cons.mp h).2 (pre ++ b.reverse)
    rw [length_append,length_reverse,hb,append_assoc,append_assoc] at hrest
    rw [length_cons,swapEach,flatten_cons,swapWindow_reverses hb,hrest]
    rfl

theorem streamEach_reverses (pre : List α) :
    streamEach size (pre ++ blocks.flatten) blocks.length pre.length =
      (blocks.map List.reverse).flatten := by
  induction blocks generalizing pre with
  | nil => rfl
  | cons b blocks ih =>
    have hb := h b mem_cons_self
    have hrest := ih (forall_mem_cons.mp h).2 (pre ++ b)
    rw [length_append,hb,append_assoc] at hrest
    rw [length_cons,streamEach,flatten_cons,pickMirrored_reverses hb,hrest]
    rfl

theorem flatten_length : blocks.flatten.length = blocks.length * size := by
  induction blocks with
  | nil => rw [flatten_nil,length_nil,length_nil,Nat.zero_mul]
  | cons b blocks ih =>
    rw [flatten_cons,length_append,h b mem_cons_self,
      ih fun c hc => h c (.tail _ hc),length_cons,Nat.succ_mul,Nat.add_comm]

end

theorem rounds_blocks (hsize : 0 < size) (n : Nat) : rounds (n * size) size = n := by
  rw [rounds,Nat.add_sub_assoc hsize,Nat.mul_comm,Nat.mul_add_div hsize,
    Nat.div_eq_of_lt (by omega),Nat.add_zero]

end

end FuzzingTargets.ByteOrder
