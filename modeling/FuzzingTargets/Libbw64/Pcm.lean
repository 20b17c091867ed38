import FuzzingTargets.Libbw64.Writer
import FuzzingTargets.Foundation.Checked
import FuzzingTargets.Foundation.Rounding

namespace FuzzingTargets.Bw64
open LittleEndian Rounding Checked Slices

def single (x : ℚ) : ℚ := nearest 24 x

def double (x : ℚ) : ℚ := nearest 53 x

def signed (bits v : Nat) : Int := (v : Int).bmod (2 ^ bits)

def decodeSample (bits : Nat) (bytes : List UInt8) : ℚ :=
  if bits = 16 then single (single (signed 16 (ofLe bytes)) / single 32768)
  else if bits = 24 then single (single (signed 32 (256 * ofLe bytes)) / single 2147483647)
  else single (single (signed 32 (ofLe bytes)) / single 2147483647)

variable (inBuffer : List UInt8) (numberOfSamples bits : Nat)

def sampleAt (bits i : Nat) : List UInt8 :=
  (inBuffer.drop (i * (bits / 8))).take (bits / 8)

def decodePcmSamples : Except Error (List ℚ) :=
  if bits = 16 ∨ bits = 24 ∨ bits = 32 then
    .ok ((List.range numberOfSamples).map fun i => decodeSample bits (sampleAt inBuffer bits i))
  else .error (.unsupportedBits bits)

def clipSample (value : ℚ) : ℚ :=
  if 1 < value then 1
  else if value < -1 then -1
  else value

def fullScale (bits : Nat) : ℚ :=
  if bits = 16 then 32767
  else if bits = 24 then 8388607
  else 2147483647

def quantise (bits : Nat) (value : ℚ) : Int := truncate (double (clipSample value * fullScale bits))

section

variable {bits : Nat} {bytes : List UInt8}

theorem signed_range (hbits : 0 < bits) (v : Nat) :
    -2 ^ (bits - 1) ≤ signed bits v ∧ signed bits v < 2 ^ (bits - 1) := by
  obtain _ | k := bits
  · omega
  have hlow := Int.le_bmod (x := (v : Int)) (m := 2 ^ (k + 1)) (by positivity)
  have hhigh := Int.bmod_lt (x := (v : Int)) (m := 2 ^ (k + 1)) (by positivity)
  rw [Nat.add_sub_cancel]
  unfold signed
  generalize (v : Int).bmod (2 ^ (k + 1)) = r at hlow hhigh ⊢
  push_cast at hlow hhigh
  rw [pow_succ] at hlow hhigh
  constructor <;> omega

theorem signed_shifted (v : Nat) : signed 32 (256 * v) = 256 * signed 24 v := by
  unfold signed
  rw [Int.bmod_def,Int.bmod_def]
  push_cast
  omega

theorem clipSample_inside {x : ℚ} (hlow : -1 ≤ x) (hhigh : x ≤ 1) : clipSample x = x := by
  unfold clipSample
  rw [if_neg (not_lt.mpr hhigh),if_neg (not_lt.mpr hlow)]

theorem signed_congr (bits v : Nat) : signed bits v % 2 ^ bits = (v : Int) % 2 ^ bits := by
  unfold signed
  have h := Int.bmod_emod (x := (v : Int)) (m := 2 ^ bits)
  push_cast at h
  exact h

section

variable (hbits : bits = 16 ∨ bits = 24)
include hbits

theorem decodeSample_exact :
    decodeSample bits bytes = signed bits (ofLe bytes) / 2 ^ (bits - 1) := by
  rcases hbits with rfl | rfl
  · obtain ⟨hlow,hhigh⟩ := signed_range (by decide : 0 < 16) (ofLe bytes)
    unfold decodeSample
    rw [if_pos rfl,(by decide +kernel : single 32768 = 2 ^ 15)]
    generalize signed 16 (ofLe bytes) = s at hlow hhigh ⊢
    have hs : Representable 24 (s : ℚ) := representable_intCast (by rw [abs_lt]; constructor <;> omega)
    have hq : (s : ℚ) / 2 ^ 15 = s * 2 ^ (-15 : ℤ) := by
      rw [zpow_neg,div_eq_mul_inv]
      norm_num
    rw [single,single,nearest_representable hs,hq,nearest_representable (representable_scale hs _)]
  obtain ⟨hlow,hhigh⟩ := signed_range (by decide : 0 < 24) (ofLe bytes)
  unfold decodeSample
  rw [if_neg (by decide),if_pos rfl,(by decide +kernel : single 2147483647 = 2 ^ 31),signed_shifted]
  generalize signed 24 (ofLe bytes) = s at hlow hhigh ⊢
  have hs : Representable 24 (s : ℚ) := representable_intCast (by rw [abs_lt]; constructor <;> omega)
  have hwide : ((256 * s : ℤ) : ℚ) = s * 2 ^ (8 : ℤ) := by
    push_cast
    ring
  have hq : (s : ℚ) * 2 ^ (8 : ℤ) / 2 ^ 31 = s * 2 ^ (-23 : ℤ) := by
    rw [zpow_neg]
    norm_num
    ring
  have hfinal : (s : ℚ) * 2 ^ (-23 : ℤ) = s / 2 ^ 23 := by
    rw [zpow_neg,div_eq_mul_inv]
    norm_num
  rw [hwide,single,single,nearest_representable (representable_scale hs 8),hq,
    nearest_representable (representable_scale hs _),hfinal]

theorem fullScale_eq : fullScale bits = ((2 ^ (bits - 1) : ℤ) : ℚ) - 1 := by
  rcases hbits with rfl | rfl
  · unfold fullScale
    norm_num
  · unfold fullScale
    norm_num

theorem quantise_decodeSample : quantise bits (decodeSample bits bytes) =
      signed bits (ofLe bytes) - (signed bits (ofLe bytes)).sign := by
  obtain ⟨hlow,hhigh⟩ := signed_range (by omega : 0 < bits) (ofLe bytes)
  have hsmall : (2 ^ (bits - 1) : ℤ) ≤ 2 ^ 23 := pow_le_pow_right₀ (by norm_num) (by omega)
  rw [decodeSample_exact hbits]
  generalize signed bits (ofLe bytes) = s at hlow hhigh ⊢
  unfold quantise
  rw [fullScale_eq hbits]
  have hcast : (2 : ℚ) ^ (bits - 1) = ((2 ^ (bits - 1) : ℤ) : ℚ) := by push_cast; rfl
  have hpos : (0 : ℤ) < 2 ^ (bits - 1) := by positivity
  have hscale : ((2 ^ (bits - 1) : ℤ) : ℚ)⁻¹ = 2 ^ (-((bits - 1 : ℕ) : ℤ)) := by
    rw [zpow_neg,zpow_natCast]
    push_cast
    rfl
  rw [hcast]
  generalize (2 ^ (bits - 1) : ℤ) = N at hlow hhigh hsmall hpos hscale ⊢
  have hNq : (0 : ℚ) < N := by exact_mod_cast hpos
  have hlowq : -(N : ℚ) ≤ s := by exact_mod_cast hlow
  have hhighq : (s : ℚ) < N := by exact_mod_cast hhigh
  have hexact : Representable 53 ((s : ℚ) / N * (N - 1)) := by
    have hm : |s * (N - 1)| < 2 ^ 53 := by
      rw [abs_mul]
      have hs : |s| ≤ 2 ^ 23 := abs_le.mpr ⟨by omega,by omega⟩
      have hn : |N - 1| ≤ 2 ^ 23 := abs_le.mpr ⟨by omega,by omega⟩
      calc |s| * |N - 1| ≤ 2 ^ 23 * 2 ^ 23 := mul_le_mul hs hn (abs_nonneg _) (by norm_num)
        _ < 2 ^ 53 := by norm_num
    have hform : (s : ℚ) / N * (N - 1) = ((s * (N - 1) : ℤ) : ℚ) * 2 ^ (-((bits - 1 : ℕ) : ℤ)) := by
      rw [← hscale]
      push_cast
      ring
    rw [hform]
    exact representable_scale (representable_intCast hm) _
  rw [clipSample_inside (by rw [le_div_iff₀ hNq]; linarith) (by rw [div_le_iff₀ hNq]; linarith),
    double,nearest_representable hexact,truncate_scaled hpos hlow hhigh]

theorem sampleBytes_signed (hlen : bytes.length = bits / 8) (d : Int) :
    Writer.sampleBytes bits (signed bits (ofLe bytes) - d) = bytes ↔ (2 ^ bits : Int) ∣ d := by
  unfold Writer.sampleBytes
  rw [le_eq_iff hlen]
  have hcongr := signed_congr bits (ofLe bytes)
  have hlt := ofLe_lt bytes
  rw [hlen] at hlt
  generalize signed bits (ofLe bytes) = s at hcongr ⊢
  generalize ofLe bytes = v at hcongr hlt ⊢
  rcases hbits with rfl | rfl
  · norm_num at hlt hcongr ⊢
    omega
  · norm_num at hlt hcongr ⊢
    omega

end

end

def sampleValue (bits i : Nat) : Int :=
  signed bits (ofLe (sampleAt inBuffer bits i))

def decodeThenEncode : Except Error (List UInt8) := do
  let outBuffer ← decodePcmSamples inBuffer numberOfSamples bits
  Writer.encodePcmSamples quantise outBuffer bits

section

variable {inBuffer : List UInt8} {bits numberOfSamples : Nat}

theorem sampleAt_length (hlen : inBuffer.length = numberOfSamples * (bits / 8)) {i : Nat}
    (hi : i < numberOfSamples) : (sampleAt inBuffer bits i).length = bits / 8 := by
  have hroom : i * (bits / 8) + bits / 8 ≤ numberOfSamples * (bits / 8) := by
    rw [← Nat.succ_mul]
    exact Nat.mul_le_mul_right _ hi
  unfold sampleAt
  rw [List.length_take,List.length_drop,hlen]
  omega

theorem decodeThenEncode_eq (hbits : bits = 16 ∨ bits = 24) :
    decodeThenEncode inBuffer numberOfSamples bits =
      .ok ((List.range numberOfSamples).flatMap fun i => Writer.sampleBytes bits
        (sampleValue inBuffer bits i - (sampleValue inBuffer bits i).sign)) := by
  have hsupported : bits = 16 ∨ bits = 24 ∨ bits = 32 := by omega
  unfold decodeThenEncode decodePcmSamples Writer.encodePcmSamples
  rw [if_pos hsupported,bind_ok,if_pos hsupported,List.flatMap_map]
  simp only [quantise_decodeSample hbits,sampleValue]

theorem dvd_sign_iff (hbits : 0 < bits) (s : Int) : (2 ^ bits : Int) ∣ s.sign ↔ s = 0 := by
  constructor
  · intro h
    have htwo : (2 : Int) ∣ s.sign := (dvd_pow_self 2 hbits.ne').trans h
    rcases lt_trichotomy s 0 with hs | hs | hs
    · rw [Int.sign_eq_neg_one_of_neg hs] at htwo
      omega
    · exact hs
    · rw [Int.sign_eq_one_of_pos hs] at htwo
      omega
  · rintro rfl
    exact dvd_zero _

theorem decodeThenEncode_reproduces_iff (hbits : bits = 16 ∨ bits = 24)
    (hlen : inBuffer.length = numberOfSamples * (bits / 8)) :
    decodeThenEncode inBuffer numberOfSamples bits = .ok inBuffer ↔
      ∀ i, i < numberOfSamples → sampleValue inBuffer bits i = 0 := by
  have hwidth : ∀ i, i < numberOfSamples → (Writer.sampleBytes bits
      (sampleValue inBuffer bits i - (sampleValue inBuffer bits i).sign)).length = bits / 8 :=
    fun i _ => le_length _ _
  rw [decodeThenEncode_eq hbits,Except.ok.injEq,flatMap_range_eq_iff hwidth hlen]
  refine forall_congr' fun i => imp_congr_right fun hi => ?_
  exact (sampleBytes_signed hbits (sampleAt_length hlen hi) _).trans (dvd_sign_iff (by omega) _)

end

theorem silence_reproduced :
    decodeThenEncode (List.replicate 6 0) 2 24 = .ok (List.replicate 6 0) :=
  (decodeThenEncode_reproduces_iff (.inr rfl) rfl).mpr (by decide)

theorem loudest_sample_lowered :
    decodeThenEncode [0xff,0x7f] 1 16 = .ok [0xfe,0x7f] ∧
      decodeThenEncode [0x01,0x00,0x80] 1 24 = .ok [0x02,0x00,0x80] := by
  decide +kernel

end FuzzingTargets.Bw64
