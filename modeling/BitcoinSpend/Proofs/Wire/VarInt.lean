import BitcoinSpend.Proofs.Wire.Unique

namespace BitcoinSpend

theorem readVarInt_writeVarInt {value : Nat} (h : value < 2 ^ 64) (rest : Bytes) :
    readVarInt (writeVarInt value ++ rest) = some (value, rest) :=
  readVarInt_eq_some_iff.mpr ⟨_, .of_writeVarInt h, rfl⟩

-- Another form of the number is longer, and so is the same form with bytes behind it.
theorem length_writeVarInt_lt {value : Nat} {input rest : Bytes}
    (h : readVarInt input = some (value, rest)) (hne : input ≠ writeVarInt value) :
    (writeVarInt value).length < input.length := by
  obtain ⟨bytes, hform, rfl⟩ := readVarInt_eq_some_iff.mp h
  have hle := hform.length_writeVarInt_le
  have hlength : (writeVarInt value).length ≠ (bytes ++ rest).length := by
    rw [List.length_append]
    intro heq
    have hrest : rest = [] := List.eq_nil_of_length_eq_zero (by omega)
    have hbytes := hform.writeVarInt_eq_of_length_eq (by omega)
    rw [hrest, List.append_nil, hbytes] at hne
    exact hne rfl
  rw [List.length_append] at hlength ⊢
  omega

-- A number that could be read off the front part would be all of the whole as well.
theorem readVarInt_eq_none_of_prefix {value : Nat} {front : Bytes} (h : value < 2 ^ 64)
    (hfront : front <+: writeVarInt value) (hne : front ≠ writeVarInt value) :
    readVarInt front = none := by
  obtain ⟨back, hback⟩ := hfront
  refine Option.eq_none_iff_forall_ne_some.mpr fun ⟨count, rest⟩ hread => ?_
  obtain ⟨bytes, hform, rfl⟩ := readVarInt_eq_some_iff.mp hread
  have hwhole : bytes ++ (rest ++ back) = writeVarInt value ++ [] := by
    rw [← List.append_assoc, hback, List.append_nil]
  obtain ⟨-, hnil⟩ := CountForm.determines hform (.of_writeVarInt h) hwhole
  rw [(List.append_eq_nil_iff.mp hnil).2, List.append_nil] at hback
  exact hne hback

-- What a marker announces and the input does not hold in full goes on to a number
-- that takes all of the announced bytes. That number is written behind the marker.
theorem exists_prefix_writeVarInt {marker : UInt8} {size : Nat} {input : Bytes} (hsize : size < 8)
    (hread : readInteger (size + 1) input = none)
    (hwrite : ∀ value, 256 ^ size ≤ value → value < 256 ^ (size + 1) →
      writeVarInt value = marker :: writeInteger (size + 1) value) :
    ∃ value < 2 ^ 64, marker :: input <+: writeVarInt value ∧
      marker :: input ≠ writeVarInt value := by
  have hmin : min (size + 1) 8 = size + 1 := by omega
  have hshort := readInteger_eq_none_iff.mp hread
  rw [hmin] at hshort
  obtain ⟨value, hle, hlt, hfront⟩ := Bytes.exists_prefix_ofNatLE (Nat.le_of_lt_succ hshort)
  have hpow : 256 ^ (size + 1) ≤ 256 ^ 8 := Nat.pow_le_pow_right (by decide) hsize
  refine ⟨value, hlt.trans_le hpow, ?_⟩
  rw [hwrite value hle hlt, writeInteger, hmin]
  refine ⟨(List.prefix_cons_inj marker).mpr hfront, ?_⟩
  intro heq
  have hlength := congrArg List.length heq
  rw [List.length_cons, List.length_cons, Bytes.length_ofNatLE] at hlength
  omega

theorem readVarInt_eq_none_iff {input : Bytes} :
    readVarInt input = none ↔
      ∃ value < 2 ^ 64, input <+: writeVarInt value ∧ input ≠ writeVarInt value := by
  constructor
  · intro h
    cases input with
    | nil => exact ⟨0, by decide, List.nil_prefix, by decide⟩
    | cons first input =>
        rw [readVarInt] at h
        split_ifs at h with h2 h4 h8
        · rw [h2]
          refine exists_prefix_writeVarInt (by decide) h fun value hle hlt => ?_
          rw [writeVarInt, if_neg (by omega), if_pos (by omega)]
        · rw [h4]
          refine exists_prefix_writeVarInt (by decide) h fun value hle hlt => ?_
          rw [writeVarInt, if_neg (by omega), if_neg (by omega), if_pos (by omega)]
        · rw [h8]
          refine exists_prefix_writeVarInt (by decide) h fun value hle hlt => ?_
          rw [writeVarInt, if_neg (by omega), if_neg (by omega), if_neg (by omega)]
  · rintro ⟨value, hvalue, hfront, hne⟩
    exact readVarInt_eq_none_of_prefix hvalue hfront hne

-- A number of at most 64 bits has one shortest form, the one that it is written in, and
-- reading takes just that off the front. There is nothing to read only where such a form
-- is cut short.
theorem integers_self_delimiting :
    (∀ value < 2 ^ 64,
      (∀ suffix, readVarInt (writeVarInt value ++ suffix) = some (value, suffix)) ∧
        ∀ input rest, readVarInt input = some (value, rest) → input ≠ writeVarInt value →
          (writeVarInt value).length < input.length) ∧
    (∀ size value suffix, readInteger size (writeInteger size value ++ suffix) =
      some (value % 256 ^ min size 8, suffix)) ∧
    ∀ input, readVarInt input = none ↔
      ∃ value < 2 ^ 64, input <+: writeVarInt value ∧ input ≠ writeVarInt value := by
  refine ⟨fun value hvalue => ⟨readVarInt_writeVarInt hvalue, ?_⟩, readInteger_writeInteger, ?_⟩
  · intro input rest
    exact length_writeVarInt_lt
  · intro input
    exact readVarInt_eq_none_iff

-- The least number that takes four bytes behind its marker, spelled with eight of them and
-- with one too few.
theorem integers_self_delimiting_least_four :
    (0x10000 : Nat) < 2 ^ 64 ∧
      readVarInt ([0xfe, 0, 0, 1, 0] ++ [0xaa]) = some (0x10000, [0xaa]) ∧
      readVarInt [0xff, 0, 0, 1, 0, 0, 0, 0, 0] = some (0x10000, []) ∧
      [0xff, 0, 0, 1, 0, 0, 0, 0, 0] ≠ writeVarInt 0x10000 ∧ (writeVarInt 0x10000).length < 9 ∧
      readInteger 2 (writeInteger 2 0x10001 ++ [0xaa]) = some (1, [0xaa]) ∧
      [0xfe, 0, 0, 1] <+: writeVarInt 0x10000 ∧ [0xfe, 0, 0, 1] ≠ writeVarInt 0x10000 ∧
      readVarInt [0xfe, 0, 0, 1] = none := by
  have hvalue : (0x10000 : Nat) < 2 ^ 64 := by decide
  have hlong : readVarInt [0xff, 0, 0, 1, 0, 0, 0, 0, 0] = some (0x10000, []) := by decide
  have hother : [0xff, 0, 0, 1, 0, 0, 0, 0, 0] ≠ writeVarInt 0x10000 := by decide
  have hfront : [0xfe, 0, 0, 1] <+: writeVarInt 0x10000 := by decide
  have hne : [0xfe, 0, 0, 1] ≠ writeVarInt 0x10000 := by decide
  obtain ⟨hwritten, hfixed, hshort⟩ := integers_self_delimiting
  obtain ⟨hread, hleast⟩ := hwritten 0x10000 hvalue
  exact ⟨hvalue, hread [0xaa], hlong, hother, hleast _ _ hlong hother, hfixed 2 0x10001 [0xaa],
    hfront, hne, (hshort _).mpr ⟨_, hvalue, hfront, hne⟩⟩

end BitcoinSpend
