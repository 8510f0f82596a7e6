import BitcoinSpend.Proofs.Script.Truth

namespace BitcoinSpend

namespace Bytes

theorem toNatLE_inj {bytes other : Bytes} (hlength : bytes.length = other.length) :
    toNatLE bytes = toNatLE other ↔ bytes = other := by
  constructor
  · intro hvalue
    rw [← ofNatLE_toNatLE bytes, hlength, hvalue, ofNatLE_toNatLE]
  · exact congrArg toNatLE

theorem toNatLE_eq_zero_iff {bytes : Bytes} : toNatLE bytes = 0 ↔ ∀ byte ∈ bytes, byte = 0 := by
  induction bytes with
  | nil => simp [toNatLE]
  | cons byte bytes ih =>
      have hbyte : byte = 0 ↔ byte.toNat = 0 := UInt8.toNat_inj.symm
      rw [toNatLE, List.forall_mem_cons, ← ih, hbyte]
      omega

end Bytes

namespace ScriptNumber

theorem exists_decode_iff {element : Bytes} :
    (∃ value, decode element = some value) ↔ element.length ≤ 8 := by
  rw [decode]
  split_ifs with hlong
  · constructor
    · rintro ⟨value, hvalue⟩
      cases hvalue
    · intro hshort
      omega
  · refine iff_of_true ?_ (by omega)
    split
    · exact ⟨0, rfl⟩
    · exact ⟨_, rfl⟩

theorem encode_zero : encode 0 = [] := by
  simp [encode, Bytes.minimalLE, digits]

-- What the bits of an element below its sign come to.
def magnitude (low : Bytes) (top : UInt8) : Nat :=
  Bytes.toNatLE low + 256 ^ low.length * (top.toNat % 0x80)

theorem magnitude_lt (low : Bytes) (top : UInt8) : magnitude low top < 128 * 256 ^ low.length := by
  have hlow := Bytes.toNatLE_lt low
  have htop : top.toNat % 0x80 ≤ 127 := by omega
  have hhigh := Nat.mul_le_mul_left (256 ^ low.length) htop
  rw [magnitude]
  omega

theorem magnitude_eq_zero_iff {low : Bytes} {top : UInt8} :
    magnitude low top = 0 ↔ truth (low ++ [top]) = false := by
  have hmod : top % 0x80 = 0 ↔ top.toNat % 0x80 = 0 := by
    rw [← UInt8.toNat_inj, UInt8.toNat_mod]
    rfl
  have hpow : 0 < 256 ^ low.length := Nat.pow_pos (by decide)
  rw [truth_concat_eq_false_iff, ← Bytes.toNatLE_eq_zero_iff, hmod, magnitude, Nat.add_eq_zero_iff,
    Nat.mul_eq_zero, or_iff_right hpow.ne']

section Concat

variable {low : Bytes} {top : UInt8} {value : Int}

theorem decode_concat_eq_some_iff :
    decode (low ++ [top]) = some value ↔
      low.length < 8 ∧
        value = if 0x80 ≤ top then -(magnitude low top : Int) else magnitude low top := by
  constructor
  · intro h
    have hshort := exists_decode_iff.mp ⟨value, h⟩
    rw [List.length_append, List.length_singleton] at hshort
    refine ⟨by omega, ?_⟩
    rw [decode_concat top (by omega)] at h
    exact (Option.some.inj h).symm
  · rintro ⟨hlength, rfl⟩
    exact decode_concat top hlength

theorem natAbs_of_decode_concat (h : decode (low ++ [top]) = some value) :
    value.natAbs = magnitude low top := by
  obtain ⟨-, rfl⟩ := decode_concat_eq_some_iff.mp h
  split_ifs
  · rw [Int.natAbs_neg, Int.natAbs_natCast]
  · rw [Int.natAbs_natCast]

theorem neg_iff_of_decode_concat (h : decode (low ++ [top]) = some value) (hne : value ≠ 0) :
    value < 0 ↔ 128 ≤ top.toNat := by
  obtain ⟨-, hvalue⟩ := decode_concat_eq_some_iff.mp h
  have hset : 0x80 ≤ top ↔ 128 ≤ top.toNat := UInt8.le_iff_toNat_le
  split_ifs at hvalue with htop
  · exact iff_of_true (by omega) (hset.mp htop)
  · exact iff_of_false (by omega) (mt hset.mpr htop)

-- A number that is not zero tells all the bytes of an element of given length.
theorem toNatLE_of_decode_concat (h : decode (low ++ [top]) = some value) (hne : value ≠ 0) :
    Bytes.toNatLE (low ++ [top]) =
      value.natAbs + 256 ^ low.length * (if value < 0 then 128 else 0) := by
  have htop : top.toNat = top.toNat % 0x80 + if value < 0 then 128 else 0 := by
    have hlt := top.toNat_lt
    have hsign := neg_iff_of_decode_concat h hne
    split_ifs <;> omega
  have hbyte : Bytes.toNatLE [top] = top.toNat := Nat.add_zero _
  rw [Bytes.toNatLE_append, hbyte, natAbs_of_decode_concat h, magnitude, Nat.add_assoc,
    ← Nat.mul_add, ← htop]

end Concat

theorem natAbs_lt_of_decode {element : Bytes} {value : Int} (h : decode element = some value) :
    value.natAbs < 0x8000000000000000 := by
  rcases List.eq_nil_or_concat' element with rfl | ⟨low, top, rfl⟩
  · cases h
    decide
  · obtain ⟨hlength, -⟩ := decode_concat_eq_some_iff.mp h
    have hpow : 256 ^ low.length ≤ 256 ^ 7 := Nat.pow_le_pow_right (by decide) (by omega)
    have hlt := magnitude_lt low top
    rw [natAbs_of_decode_concat h]
    omega

theorem eq_of_decode_of_length_eq {element other : Bytes} {value : Int}
    (h : decode element = some value) (hother : decode other = some value) (hne : value ≠ 0)
    (hlength : element.length = other.length) : element = other := by
  rcases List.eq_nil_or_concat' element with rfl | ⟨low, top, rfl⟩
  · cases h
    exact absurd rfl hne
  · rcases List.eq_nil_or_concat' other with rfl | ⟨low', top', rfl⟩
    · cases hother
      exact absurd rfl hne
    · have hlow : low.length = low'.length := by
        simpa using hlength
      rw [← Bytes.toNatLE_inj hlength, toNatLE_of_decode_concat h hne,
        toNatLE_of_decode_concat hother hne, hlow]

-- No element of the length of the encoding has the number but the encoding, and none
-- that is shorter has room for it.
theorem length_encode_lt {element : Bytes} {value : Int} (h : decode element = some value)
    (hother : element ≠ encode value) : (encode value).length < element.length := by
  rcases List.eq_nil_or_concat' element with rfl | ⟨low, top, rfl⟩
  · cases h
    exact absurd encode_zero.symm hother
  · by_cases hzero : value = 0
    · rw [hzero, encode_zero, List.length_append]
      exact Nat.succ_pos _
    · have hle := length_encode_le (natAbs_of_decode_concat h ▸ magnitude_lt low top)
      have hencode := decode_encode (natAbs_lt_of_decode h)
      have hne : (low ++ [top]).length ≠ (encode value).length := fun hlength =>
        hother (eq_of_decode_of_length_eq h hencode hzero hlength)
      simp only [List.length_append, List.length_singleton] at hne ⊢
      omega

theorem ne_zero_iff_truth {element : Bytes} {value : Int} (h : decode element = some value) :
    value ≠ 0 ↔ truth element = true := by
  rcases List.eq_nil_or_concat' element with rfl | ⟨low, top, rfl⟩
  · cases h
    decide
  · rw [← Int.natAbs_ne_zero, natAbs_of_decode_concat h, ne_eq, magnitude_eq_zero_iff,
      Bool.not_eq_false]

-- A number has one shortest element, the one that it is written as, and every element of
-- at most eight bytes has a number, which is zero just when the element is false.
theorem encode_shortest :
    (∀ value : Int, value.natAbs ≤ 2 ^ 63 - 1 →
      decode (encode value) = some value ∧
        ∀ element, decode element = some value → element ≠ encode value →
          (encode value).length < element.length) ∧
    ∀ element : Bytes,
      ((∃ value, decode element = some value) ↔ element.length ≤ 8) ∧
        ∀ value, decode element = some value →
          (-(2 ^ 63 - 1) ≤ value ∧ value ≤ 2 ^ 63 - 1) ∧ (value ≠ 0 ↔ truth element = true) := by
  constructor
  · intro value hvalue
    exact ⟨decode_encode (by omega), fun element => length_encode_lt⟩
  · intro element
    refine ⟨exists_decode_iff, ?_⟩
    intro value hvalue
    have hlt := natAbs_lt_of_decode hvalue
    exact ⟨by omega, ne_zero_iff_truth hvalue⟩

-- The magnitude fills its byte, so that the sign takes another one, and a zero byte in
-- between changes nothing.
theorem encode_shortest_padded :
    (-128 : Int).natAbs ≤ 2 ^ 63 - 1 ∧ decode [0x80, 0x00, 0x80] = some (-128) ∧
      [0x80, 0x00, 0x80] ≠ encode (-128) ∧ (encode (-128)).length < 3 ∧
        truth [0x80, 0x00, 0x80] = true := by
  have hdecode : decode [0x80, 0x00, 0x80] = some (-128) := by decide
  have hencode : encode (-128) = [0x80, 0x80] := by
    simp [encode, Bytes.minimalLE, digits]
  have hother : [0x80, 0x00, 0x80] ≠ encode (-128) := by
    rw [hencode]
    decide
  refine ⟨by decide, hdecode, hother, ?_, ?_⟩
  · exact (encode_shortest.1 (-128) (by decide)).2 _ hdecode hother
  · exact ((encode_shortest.2 [0x80, 0x00, 0x80]).2 _ hdecode).2.mp (by decide)

end ScriptNumber

end BitcoinSpend
