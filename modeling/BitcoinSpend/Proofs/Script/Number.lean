import BitcoinSpend.Proofs.Wire.Integer
import BitcoinSpend.Script.Number

namespace BitcoinSpend

namespace ScriptNumber

theorem encode_of_minimalLE {value : Int} {low : Bytes} {top : UInt8}
    (h : Bytes.minimalLE value.natAbs = low ++ [top]) :
    encode value =
      if 0x80 ≤ top then low ++ [top] ++ [if value < 0 then 0x80 else 0x00]
      else if value < 0 then low ++ [top + 0x80]
      else low ++ [top] := by
  simp [encode, h]

theorem decode_concat {low : Bytes} (top : UInt8) (hlength : low.length < 8) :
    decode (low ++ [top]) =
      let magnitude := Bytes.toNatLE low + 256 ^ low.length * (top.toNat % 0x80)
      some (if 0x80 ≤ top then -(magnitude : Int) else magnitude) := by
  have hshort : ¬ 8 < (low ++ [top]).length := by
    rw [List.length_append, List.length_singleton]
    omega
  have hlow : Bytes.toNatLE [top % 0x80] = top.toNat % 0x80 := Nat.add_zero _
  rw [decode, if_neg hshort, List.getLast?_concat]
  simp only [List.dropLast_concat, Bytes.toNatLE_append, hlow]

-- A magnitude that leaves the top bit of its last byte clear leaves room for the sign.
theorem length_low_le {value size : Nat} {low : Bytes} {top : UInt8}
    (hvalue : value < 128 * 256 ^ size) (h : Bytes.minimalLE value = low ++ [top]) :
    low.length ≤ size ∧ (128 ≤ top.toNat → low.length < size) := by
  obtain ⟨hsum, hpos⟩ := Bytes.minimalLE_eq_concat h
  have hbound : ∀ length least, length ≤ low.length → least ≤ top.toNat →
      256 ^ length * least ≤ value := by
    intro length least hlength hleast
    have hpow : 256 ^ length ≤ 256 ^ low.length := Nat.pow_le_pow_right (by decide) hlength
    have hle := Nat.mul_le_mul hpow hleast
    omega
  constructor
  · by_contra hlong
    have hle := hbound (size + 1) 1 (by omega) hpos
    rw [Nat.pow_succ] at hle
    omega
  · intro htop
    by_contra hlong
    have hle := hbound size 128 (by omega) htop
    omega

theorem length_encode_le {value : Int} {size : Nat} (h : value.natAbs < 128 * 256 ^ size) :
    (encode value).length ≤ size + 1 := by
  rcases List.eq_nil_or_concat' (Bytes.minimalLE value.natAbs) with hnil | ⟨low, top, hconcat⟩
  · simp [encode, hnil]
  · obtain ⟨hlow, hfull⟩ := length_low_le h hconcat
    rw [encode_of_minimalLE hconcat]
    by_cases htop : 0x80 ≤ top
    · have hroom := hfull (UInt8.le_iff_toNat_le.mp htop)
      rw [if_pos htop]
      simp only [List.length_append, List.length_singleton]
      omega
    · rw [if_neg htop]
      split_ifs <;> simp only [List.length_append, List.length_singleton] <;> omega

section Magnitude

variable {magnitude : Nat} {low : Bytes} {top : UInt8}

-- A byte of its own that holds nothing but the sign.
theorem decode_concat_sign (h : Bytes.minimalLE magnitude = low ++ [top])
    (hlength : (low ++ [top]).length < 8) {sign : UInt8} (hsign : sign.toNat % 0x80 = 0) :
    decode (low ++ [top] ++ [sign]) =
      some (if 0x80 ≤ sign then -(magnitude : Int) else magnitude) := by
  rw [decode_concat _ hlength, ← h, Bytes.toNatLE_minimalLE, hsign, Nat.mul_zero]
  rfl

theorem decode_of_minimalLE (h : Bytes.minimalLE magnitude = low ++ [top])
    (hlength : low.length < 8) (htop : ¬ 0x80 ≤ top) :
    decode (low ++ [top]) = some (magnitude : Int) := by
  have hlow : top.toNat < 128 := Nat.lt_of_not_le htop
  have hvalue := (Bytes.minimalLE_eq_concat h).1
  simp only [decode_concat _ hlength, Nat.mod_eq_of_lt hlow, ← hvalue, htop, if_false]

theorem decode_neg_of_minimalLE (h : Bytes.minimalLE magnitude = low ++ [top])
    (hlength : low.length < 8) (htop : ¬ 0x80 ≤ top) :
    decode (low ++ [top + 0x80]) = some (-(magnitude : Int)) := by
  have hlow : top.toNat < 128 := Nat.lt_of_not_le htop
  have hvalue := (Bytes.minimalLE_eq_concat h).1
  have hsigned : (top + 0x80).toNat = top.toNat + 128 := by
    rw [UInt8.toNat_add]
    exact Nat.mod_eq_of_lt (Nat.add_lt_add_right hlow 128)
  have hmod : (top.toNat + 128) % 0x80 = top.toNat := by omega
  have hle : 0x80 ≤ top + 0x80 := by
    rw [UInt8.le_iff_toNat_le, hsigned]
    exact Nat.le_add_left _ _
  simp only [decode_concat _ hlength, hsigned, hmod, ← hvalue, hle, if_true]

end Magnitude

theorem decode_encode {value : Int} (h : value.natAbs < 0x8000000000000000) :
    decode (encode value) = some value := by
  rcases List.eq_nil_or_concat' (Bytes.minimalLE value.natAbs) with hnil | ⟨low, top, hconcat⟩
  · have hvalue := Bytes.toNatLE_minimalLE value.natAbs
    rw [hnil] at hvalue
    have hzero : value = 0 := Int.natAbs_eq_zero.mp hvalue.symm
    rw [encode, hnil, hzero]
    rfl
  · have hbound : value.natAbs < 128 * 256 ^ 7 := h
    obtain ⟨hlow, hfull⟩ := length_low_le hbound hconcat
    rw [encode_of_minimalLE hconcat]
    by_cases htop : 0x80 ≤ top
    · have hlength : (low ++ [top]).length < 8 := by
        have hroom := hfull htop
        simp only [List.length_append, List.length_singleton]
        omega
      rw [if_pos htop]
      by_cases hneg : value < 0
      · rw [if_pos hneg, decode_concat_sign hconcat hlength rfl, if_pos (by decide)]
        congr 1
        omega
      · rw [if_neg hneg, decode_concat_sign hconcat hlength rfl, if_neg (by decide)]
        congr 1
        omega
    · rw [if_neg htop]
      by_cases hneg : value < 0
      · rw [if_pos hneg, decode_neg_of_minimalLE hconcat (by omega) htop]
        congr 1
        omega
      · rw [if_neg hneg, decode_of_minimalLE hconcat (by omega) htop]
        congr 1
        omega

end ScriptNumber

end BitcoinSpend
