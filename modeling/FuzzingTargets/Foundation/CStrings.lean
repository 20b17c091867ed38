import FuzzingTargets.Foundation.Bytes
import FuzzingTargets.Foundation.Checked

namespace FuzzingTargets.CStrings
open Bytes Checked List

theorem cstring_of_nulFree {l : List UInt8} (h : 0 ∉ l) : cstring l = l :=
  List.takeWhile_eq_self_iff.mpr fun _ hx => bne_iff_ne.mpr fun h0 => h (h0 ▸ hx)

theorem cstring_append_of_nulFree {l : List UInt8} (h : 0 ∉ l) (rest : List UInt8) :
    cstring (l ++ rest) = l ++ cstring rest :=
  takeWhile_append_of_pos fun _ hx => bne_iff_ne.mpr fun h0 => h (h0 ▸ hx)

variable {ε : Type} {fault : Nat → ε} {buf text src : List UInt8}

def append (fault : Nat → ε) (buf src : List UInt8) : Except ε (List UInt8) :=
  if 0 ∈ buf then storeSlice fault buf (strlen buf) (src ++ [0]) else .error (fault buf.length)

structure Terminated (buf text : List UInt8) : Prop where
  nulFree : 0 ∉ text
  content : text ++ [0] <+: buf

section

variable (h : Terminated buf text)
include h

theorem terminated_cstring : cstring buf = text := by
  obtain ⟨rest,hrest⟩ := h.content
  rw [← hrest,append_assoc]
  exact cstring_terminated h.nulFree rest

theorem append_eq : append fault buf src = storeSlice fault buf text.length (src ++ [0]) := by
  have hmem : 0 ∈ buf := h.content.subset (mem_append_right _ mem_cons_self)
  rw [append,if_pos hmem,strlen,terminated_cstring h]

theorem append_terminated (hsrc : 0 ∉ src) (hroom : text.length + src.length < buf.length) :
    ∃ out, append fault buf src = .ok out ∧ Terminated out (text ++ src) ∧ out.length = buf.length := by
  have hstore : storeSlice fault buf text.length (src ++ [0]) = .ok _ :=
    storeSlice_ok (by rw [length_append,length_singleton]; omega)
  refine ⟨_,(append_eq h).trans hstore,⟨?_,?_⟩,storeSlice_length hstore⟩
  · rw [mem_append]
    exact fun hmem => hmem.elim h.nulFree hsrc
  · rw [append_assoc]
    exact storeSlice_extends ((prefix_append text [0]).trans h.content) hstore

theorem append_overflows (hfull : buf.length ≤ text.length + src.length) :
    ∃ i, append fault buf src = .error (fault i) := by
  rw [append_eq h,storeSlice,if_neg (by rw [length_append,length_singleton]; omega)]
  exact ⟨_,rfl⟩

end

theorem terminated_empty (rest : List UInt8) : Terminated (0 :: rest) [] :=
  ⟨not_mem_nil,prefix_append [0] rest⟩

end FuzzingTargets.CStrings
