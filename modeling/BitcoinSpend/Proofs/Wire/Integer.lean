import BitcoinSpend.VarInt
import Mathlib.Data.List.Basic
import Mathlib.Data.Nat.Digits.Lemmas
import Mathlib.Tactic.Ring
import Mathlib.Tactic.SplitIfs

namespace BitcoinSpend

theorem digits_eq_natDigits {base : Nat} (hbase : 1 < base) (value : Nat) :
    digits base hbase value = base.digits value := by
  fun_induction digits base hbase value with
  | case1 => exact (Nat.digits_zero base).symm
  | case2 value hne ih => rw [ih, ← Nat.digits_def' hbase (Nat.pos_of_ne_zero hne)]

theorem ofDigits_eq_natOfDigits (base : Nat) (values : List Nat) :
    ofDigits base values = Nat.ofDigits base values := by
  induction values with
  | nil => rfl
  | cons value values ih => rw [ofDigits, ih, Nat.ofDigits_cons]

theorem getLast?_digits_ne_zero {base : Nat} (hbase : 1 < base) (value : Nat) :
    (digits base hbase value).getLast? ≠ some 0 := by
  rw [digits_eq_natDigits]
  by_cases hzero : value = 0
  · simp [hzero]
  · rw [List.getLast?_eq_some_getLast (Nat.digits_ne_nil_iff_ne_zero.mpr hzero), ne_eq,
      Option.some.injEq]
    exact Nat.getLast_digit_ne_zero base hzero

namespace Bytes

theorem toNatLE_lt (bytes : Bytes) : toNatLE bytes < 256 ^ bytes.length := by
  induction bytes with
  | nil => exact Nat.one_pos
  | cons byte bytes ih =>
      have hbyte := byte.toNat_lt
      rw [toNatLE, List.length_cons, Nat.pow_succ]
      omega

theorem toNatLE_ofNatLE (size value : Nat) : toNatLE (ofNatLE size value) = value % 256 ^ size := by
  induction size generalizing value with
  | zero => rw [Nat.pow_zero, Nat.mod_one]; rfl
  | succ size ih =>
      have hpow : 256 ^ (size + 1) = 256 * 256 ^ size := Nat.pow_succ'
      rw [ofNatLE, toNatLE, ih, UInt8.toNat_ofNat', hpow, Nat.mod_mul]

theorem ofNatLE_toNatLE (bytes : Bytes) : ofNatLE bytes.length (toNatLE bytes) = bytes := by
  induction bytes with
  | nil => rfl
  | cons byte bytes ih =>
      have hbyte := byte.toNat_lt
      have hlow : UInt8.ofNat (byte.toNat + 256 * toNatLE bytes) = byte := by
        apply UInt8.toNat.inj
        rw [UInt8.toNat_ofNat']
        omega
      have hhigh : (byte.toNat + 256 * toNatLE bytes) / 256 = toNatLE bytes := by omega
      rw [List.length_cons, toNatLE, ofNatLE, hlow, hhigh, ih]

theorem toNatLE_append (low high : Bytes) :
    toNatLE (low ++ high) = toNatLE low + 256 ^ low.length * toNatLE high := by
  induction low with
  | nil => simp [toNatLE]
  | cons byte low ih =>
      rw [List.cons_append, toNatLE, toNatLE, ih, List.length_cons, Nat.pow_succ]
      ring

-- The top byte is one, so that no fewer bytes hold the number.
theorem exists_prefix_ofNatLE {front : Bytes} {size : Nat} (h : front.length ≤ size) :
    ∃ value, 256 ^ size ≤ value ∧ value < 256 ^ (size + 1) ∧
      front <+: ofNatLE (size + 1) value := by
  have hlow : (front ++ List.replicate (size - front.length) 0).length = size := by
    rw [List.length_append, List.length_replicate, Nat.add_sub_of_le h]
  have hfront := List.prefix_append front (List.replicate (size - front.length) 0)
  generalize front ++ List.replicate (size - front.length) 0 = low at hlow hfront
  have hvalue : toNatLE (low ++ [1]) = toNatLE low + 256 ^ size := by
    rw [toNatLE_append, hlow]
    exact congrArg _ (Nat.mul_one _)
  have hlt := toNatLE_lt (low ++ [1])
  have hbytes := ofNatLE_toNatLE (low ++ [1])
  rw [List.length_append, hlow, List.length_singleton] at hlt hbytes
  refine ⟨toNatLE (low ++ [1]), ?_, hlt, ?_⟩
  · rw [hvalue]
    exact Nat.le_add_left _ _
  · rw [hbytes]
    exact hfront.trans (List.prefix_append _ _)

theorem toNatLE_eq_ofDigits (bytes : Bytes) :
    toNatLE bytes = ofDigits 256 (bytes.map UInt8.toNat) := by
  induction bytes with
  | nil => rfl
  | cons byte bytes ih => rw [toNatLE, ih, List.map_cons, ofDigits]

theorem map_toNat_map_ofNat {values : List Nat} (h : ∀ value ∈ values, value < 256) :
    (values.map UInt8.ofNat).map UInt8.toNat = values := by
  rw [List.map_map]
  exact (List.map_congr_left fun value hvalue => UInt8.toNat_ofNat_of_lt' (h value hvalue)).trans
    (List.map_id values)

theorem toNatLE_minimalLE (value : Nat) : toNatLE (minimalLE value) = value := by
  rw [toNatLE_eq_ofDigits, minimalLE, map_toNat_map_ofNat (digit_lt_base 256 _ value),
    ofDigits_digits]

theorem getLast?_minimalLE_ne_zero (value : Nat) : (minimalLE value).getLast? ≠ some 0 := by
  rw [minimalLE, List.getLast?_map]
  intro h
  obtain ⟨top, htop, hzero⟩ := Option.map_eq_some_iff.mp h
  have hlt := digit_lt_base 256 (by decide) value top (List.mem_of_getLast? htop)
  have hz : top = 0 := by
    rw [← UInt8.toNat_ofNat_of_lt' hlt, hzero]
    rfl
  exact getLast?_digits_ne_zero (by decide) value (hz ▸ htop)

theorem minimalLE_eq_concat {value : Nat} {low : Bytes} {top : UInt8}
    (h : minimalLE value = low ++ [top]) :
    value = toNatLE low + 256 ^ low.length * top.toNat ∧ 0 < top.toNat := by
  have hvalue := toNatLE_minimalLE value
  have htop := getLast?_minimalLE_ne_zero value
  have hbyte : toNatLE [top] = top.toNat := Nat.add_zero _
  rw [h, toNatLE_append, hbyte] at hvalue
  rw [h, List.getLast?_concat, ne_eq, Option.some.injEq, ← UInt8.toNat_inj] at htop
  exact ⟨hvalue.symm, Nat.pos_of_ne_zero htop⟩

theorem toNatBE_eq_toNatLE_reverse (bytes : Bytes) : toNatBE bytes = toNatLE bytes.reverse := by
  rw [toNatBE, List.foldl_eq_foldr_reverse]
  generalize bytes.reverse = digits
  induction digits with
  | nil => rfl
  | cons byte digits ih =>
      rw [List.foldr_cons, ih, toNatLE, Nat.mul_comm, Nat.add_comm]

theorem toNatBE_zero_cons (bytes : Bytes) : toNatBE (0x00 :: bytes) = toNatBE bytes := by
  rw [toNatBE, List.foldl_cons]
  rfl

theorem toNatBE_replicate_append (count : Nat) (bytes : Bytes) :
    toNatBE (List.replicate count 0 ++ bytes) = toNatBE bytes := by
  induction count with
  | zero => rfl
  | succ count ih => rw [List.replicate_succ, List.cons_append, toNatBE_zero_cons, ih]

theorem toNatBE_minimalBE (value : Nat) : toNatBE (minimalBE value) = value := by
  rw [toNatBE_eq_toNatLE_reverse, minimalBE, List.reverse_reverse, toNatLE_minimalLE]

theorem toNatBE_ofNatBE (size value : Nat) : toNatBE (ofNatBE size value) = value % 256 ^ size := by
  rw [toNatBE_eq_toNatLE_reverse, ofNatBE, List.reverse_reverse, toNatLE_ofNatLE]

theorem ofNatBE_toNatBE {size : Nat} {bytes : Bytes} (h : bytes.length = size) :
    ofNatBE size (toNatBE bytes) = bytes := by
  have hreverse := ofNatLE_toNatLE bytes.reverse
  rw [List.length_reverse, h] at hreverse
  rw [toNatBE_eq_toNatLE_reverse, ofNatBE, hreverse, List.reverse_reverse]

end Bytes

theorem readInteger_writeInteger (size value : Nat) (rest : Bytes) :
    readInteger size (writeInteger size value ++ rest) =
      some (value % 256 ^ min size 8, rest) := by
  have htake : Bytes.take? (min size 8) (writeInteger size value ++ rest) =
      some (writeInteger size value, rest) :=
    Bytes.take?_eq_some_iff.mpr ⟨rfl, Bytes.length_ofNatLE _ _⟩
  rw [readInteger, htake]
  exact congrArg (fun number => some (number, rest)) (Bytes.toNatLE_ofNatLE _ _)

theorem readInteger_eq_some_iff {size value : Nat} {input rest : Bytes} :
    readInteger size input = some (value, rest) ↔
      value < 256 ^ min size 8 ∧ input = writeInteger size value ++ rest := by
  constructor
  · intro h
    unfold readInteger at h
    split at h
    · cases h
    next taken rest' ht =>
      obtain ⟨rfl, hlength⟩ := Bytes.take?_eq_some_iff.mp ht
      cases h
      rw [writeInteger, ← hlength, Bytes.ofNatLE_toNatLE]
      exact ⟨Bytes.toNatLE_lt taken, rfl⟩
  · rintro ⟨hlt, rfl⟩
    rw [readInteger_writeInteger, Nat.mod_eq_of_lt hlt]

theorem readInteger_eq_none_iff {size : Nat} {input : Bytes} :
    readInteger size input = none ↔ input.length < min size 8 := by
  rw [← Bytes.take?_eq_none_iff, readInteger]
  cases Bytes.take? (min size 8) input <;> simp

end BitcoinSpend
