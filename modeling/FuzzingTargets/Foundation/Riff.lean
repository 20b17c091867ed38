import FuzzingTargets.Foundation.LittleEndian

namespace FuzzingTargets.Riff
open LittleEndian List

def padding (n : Nat) : List UInt8 := if n % 2 = 1 then [0] else []

structure Segment where
  id : UInt32
  size : Nat
  payload : List UInt8
  deriving DecidableEq

variable (id : UInt32) (size : Nat) (rest : List UInt8)

def header : List UInt8 := le 4 id.toNat ++ le 4 size

variable (s : Segment) (segs : List Segment)

def Segment.bytes : List UInt8 :=
  header s.id s.size ++ (s.payload ++ padding s.payload.length)

def render : List UInt8 := (segs.map Segment.bytes).flatten

def idAt (bs : List UInt8) : UInt32 := UInt32.ofNat (ofLe (bs.take 4))

def sizeAt (bs : List UInt8) : Nat := ofLe ((bs.drop 4).take 4)

def walk (sizeOf : UInt32 → Nat → Nat) : Nat → List UInt8 → Option (List (UInt32 × List UInt8))
  | _, [] => some []
  | 0, _ :: _ => none
  | fuel + 1, b :: bs =>
    let id := idAt (b :: bs)
    let size := sizeOf id (sizeAt (b :: bs))
    let rest := (b :: bs).drop 8
    if (b :: bs).length < 8 ∨ rest.length < size + size % 2 then none
    else (walk sizeOf fuel (rest.drop (size + size % 2))).map ((id,rest.take size) :: ·)

@[simp] theorem padding_length (n : Nat) : (padding n).length = n % 2 := by
  unfold padding
  split
  · rename_i h
    rw [h]
    rfl
  · exact (by omega : n % 2 = 0).symm

@[simp] theorem header_length (id : UInt32) (size : Nat) : (header id size).length = 8 := by
  rw [header,length_append,le_length,le_length]

theorem bytes_length : s.bytes.length = 8 + (s.payload.length + s.payload.length % 2) := by
  rw [Segment.bytes,length_append,length_append,header_length,padding_length]

theorem render_cons : render (s :: segs) = s.bytes ++ render segs := rfl

theorem render_append (xs ys : List Segment) : render (xs ++ ys) = render xs ++ render ys := by
  rw [render,map_append,flatten_append]
  rfl

theorem render_length_ge : segs.length ≤ (render segs).length := by
  induction segs with
  | nil => exact Nat.zero_le _
  | cons s segs ih =>
    have := bytes_length s
    rw [render_cons,length_append,length_cons]
    omega

theorem idAt_header : idAt (header id size ++ rest) = id := by
  have htake : (header id size ++ rest).take 4 = le 4 id.toNat := by
    rw [header,append_assoc]
    exact take_left' (le_length 4 _)
  rw [idAt,htake,ofLe_le_of_lt id.toNat_lt]
  exact UInt32.ofNat_toNat

theorem sizeAt_header {size : Nat} (hsize : size < 2 ^ 32) (rest : List UInt8) :
    sizeAt (header id size ++ rest) = size := by
  have hdrop : ((header id size ++ rest).drop 4).take 4 = le 4 size := by
    rw [header,append_assoc,drop_left' (le_length 4 _)]
    exact take_left' (le_length 4 _)
  rw [sizeAt,hdrop,ofLe_le_of_lt hsize]

theorem drop_header : (header id size ++ rest).drop 8 = rest := drop_left' (header_length id size)

section

variable {sizeOf : UInt32 → Nat → Nat}

theorem walk_step (fuel : Nat) {bs : List UInt8} (hne : bs ≠ []) :
    walk sizeOf (fuel + 1) bs =
      if bs.length < 8 ∨ (bs.drop 8).length <
          sizeOf (idAt bs) (sizeAt bs) + sizeOf (idAt bs) (sizeAt bs) % 2 then none
      else (walk sizeOf fuel ((bs.drop 8).drop
          (sizeOf (idAt bs) (sizeAt bs) + sizeOf (idAt bs) (sizeAt bs) % 2))).map
        ((idAt bs,(bs.drop 8).take (sizeOf (idAt bs) (sizeAt bs))) :: ·) := by
  cases bs with
  | nil => contradiction
  | cons b bs => rfl

theorem walk_segment (fuel : Nat) {s : Segment} (hfield : s.size < 2 ^ 32)
    (hsize : sizeOf s.id s.size = s.payload.length) (rest : List UInt8) :
    walk sizeOf (fuel + 1) (s.bytes ++ rest) =
      (walk sizeOf fuel rest).map ((s.id,s.payload) :: ·) := by
  have hne : s.bytes ++ rest ≠ [] := by
    intro h
    have := congrArg List.length h
    rw [length_append,bytes_length,length_nil] at this
    omega
  rw [walk_step fuel hne,Segment.bytes,append_assoc,idAt_header,sizeAt_header _ hfield,
    drop_header,hsize,if_neg (by
      simp only [length_append,header_length,padding_length]
      omega),
    drop_left' (by rw [length_append,padding_length]),append_assoc,
    take_left]

theorem walk_append {segs : List Segment} (hfield : ∀ s ∈ segs, s.size < 2 ^ 32)
    (hsize : ∀ s ∈ segs, sizeOf s.id s.size = s.payload.length) (fuel : Nat) (rest : List UInt8) :
    walk sizeOf (fuel + segs.length) (render segs ++ rest) =
      (walk sizeOf fuel rest).map (segs.map (fun s => (s.id,s.payload)) ++ ·) := by
  induction segs with
  | nil => simp [render]
  | cons s segs ih =>
    rw [render_cons,append_assoc,length_cons,← Nat.add_assoc,
      walk_segment _ (hfield s mem_cons_self) (hsize s mem_cons_self),
      ih (forall_mem_cons.mp hfield).2
        (forall_mem_cons.mp hsize).2,Option.map_map]
    rfl

theorem walk_nil (fuel : Nat) : walk sizeOf fuel [] = some [] := by
  unfold walk
  rfl

theorem walk_render {segs : List Segment} (hfield : ∀ s ∈ segs, s.size < 2 ^ 32)
    (hsize : ∀ s ∈ segs, sizeOf s.id s.size = s.payload.length) {fuel : Nat}
    (hfuel : segs.length ≤ fuel) :
    walk sizeOf fuel (render segs) = some (segs.map fun s => (s.id,s.payload)) := by
  have hwalk := walk_append hfield hsize (fuel - segs.length) []
  rw [Nat.sub_add_cancel hfuel,append_nil,walk_nil] at hwalk
  rw [hwalk,Option.map_some,append_nil]

theorem walk_payload_length {fuel : Nat} {id : UInt32} {size : Nat} (hfield : size < 2 ^ 32)
    {rest : List UInt8} {p : UInt32 × List UInt8} {ps : List (UInt32 × List UInt8)}
    (h : walk sizeOf fuel (header id size ++ rest) = some (p :: ps)) :
    p.2.length = sizeOf id size := by
  have hne : header id size ++ rest ≠ [] := by
    intro h
    have := congrArg List.length h
    rw [length_append,header_length,length_nil] at this
    omega
  cases fuel with
  | zero =>
    cases hb : header id size ++ rest with
    | nil => contradiction
    | cons b bs =>
      rw [hb] at h
      cases h
  | succ fuel =>
    rw [walk_step fuel hne,idAt_header,sizeAt_header _ hfield,drop_header] at h
    split at h
    · cases h
    rename_i hfits
    obtain ⟨qs,-,hq⟩ := Option.map_eq_some_iff.mp h
    cases hq
    rw [length_take]
    omega

end

end FuzzingTargets.Riff
