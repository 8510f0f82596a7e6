import BitcoinSpend.Base58
import BitcoinSpend.Proofs.Base58.Numeral
import BitcoinSpend.Reader
import Mathlib.Data.List.Nodup
import Mathlib.Tactic.SplitIfs

namespace BitcoinSpend

theorem toList_toUTF8 (text : String) :
    text.toUTF8.data.toList = text.toList.flatMap String.utf8EncodeChar := by
  rw [String.toUTF8_eq_toByteArray, ← String.utf8Encode_toList, List.utf8Encode,
    List.toList_data_toByteArray]

theorem utf8EncodeChar_of_lt {char : Char} (h : char.toNat < 128) :
    String.utf8EncodeChar char = [UInt8.ofNat char.toNat] := by
  have hval : char.val.toNat ≤ 127 := Nat.le_of_lt_succ h
  rw [String.utf8EncodeChar]
  exact if_pos hval

theorem exists_mem_utf8EncodeChar {char : Char} (h : 128 ≤ char.toNat) :
    ∃ code ∈ String.utf8EncodeChar char, 128 ≤ code.toNat := by
  have hval : ¬ char.val.toNat ≤ 127 := Nat.not_le.mpr h
  simp only [String.utf8EncodeChar, if_neg hval]
  split_ifs
  all_goals
    refine ⟨_, List.mem_cons_self, ?_⟩
    rw [UInt8.toNat_ofNat']
    omega

namespace Base58

theorem length_alphabet : alphabet.length = 58 := by decide +kernel

theorem nodup_alphabet : alphabet.Nodup := by decide +kernel

theorem digitValue?_eq_some_iff {char : Char} {digit : Nat} :
    digitValue? char = some digit ↔ digit < 58 ∧ digitChar digit = char := by
  rw [digitValue?, List.idxOf?_eq_some_iff, ← length_alphabet, digitChar, List.getD_eq_getElem?_getD]
  constructor
  · rintro ⟨hlt, hchar, -⟩
    rw [List.getElem?_eq_getElem hlt, Option.getD_some]
    exact ⟨hlt, hchar⟩
  · rintro ⟨hlt, hchar⟩
    rw [List.getElem?_eq_getElem hlt, Option.getD_some] at hchar
    refine ⟨hlt, hchar, fun other hother heq => ?_⟩
    have hsame := nodup_alphabet.getElem_inj_iff.mp (heq.trans hchar.symm)
    omega

theorem exists_digitValue?_iff {char : Char} :
    (∃ digit, digitValue? char = some digit) ↔ char ∈ alphabet := by
  rw [← Option.isSome_iff_exists, digitValue?, List.isSome_idxOf?]

theorem toNat_lt_of_mem_alphabet {char : Char} (h : char ∈ alphabet) : char.toNat < 128 := by
  have hall : alphabet.all (·.toNat < 128) := by decide +kernel
  exact of_decide_eq_true (List.all_eq_true.mp hall char h)

-- No byte of a longer encoding is the code of a character of the alphabet.
theorem mem_alphabet_iff {char : Char} :
    char ∈ alphabet ↔ ∀ code ∈ String.utf8EncodeChar char, Char.ofUInt8 code ∈ alphabet := by
  by_cases hascii : char.toNat < 128
  · have hcode : Char.ofUInt8 (UInt8.ofNat char.toNat) = char := by
      apply Char.ext
      apply UInt32.toNat.inj
      exact UInt8.toNat_ofNat_of_lt' (Nat.lt_trans hascii (by decide))
    rw [utf8EncodeChar_of_lt hascii, List.forall_mem_singleton, hcode]
  · constructor
    · intro hmem
      exact absurd (toNat_lt_of_mem_alphabet hmem) hascii
    · intro hcodes
      obtain ⟨code, hmem, hlarge⟩ := exists_mem_utf8EncodeChar (Nat.le_of_not_lt hascii)
      have hsmall : code.toNat < 128 := toNat_lt_of_mem_alphabet (hcodes code hmem)
      omega

theorem digitChar_eq_one_iff {digit : Nat} (h : digit < 58) : digitChar digit = '1' ↔ digit = 0 := by
  constructor
  · intro hone
    have hvalue : digitValue? '1' = some digit := digitValue?_eq_some_iff.mpr ⟨h, hone⟩
    have hzero : digitValue? '1' = some 0 := by decide
    exact Option.some.inj (hvalue.symm.trans hzero)
  · rintro rfl
    decide

theorem readDigits_eq_ok_iff {chars : List Char} {numeral : List Nat} :
    readDigits chars = .ok numeral ↔
      (∀ digit ∈ numeral, digit < 58) ∧ numeral.map digitChar = chars := by
  induction chars generalizing numeral with
  | nil =>
      rw [List.map_eq_nil_iff]
      constructor
      · intro h
        cases h
        exact ⟨List.forall_mem_nil _, rfl⟩
      · rintro ⟨-, rfl⟩
        rfl
  | cons char chars ih =>
      rw [readDigits]
      constructor
      · intro h
        split at h
        · cases h
        next digit hdigit =>
          obtain ⟨rest, hrest, h⟩ := bind_eq_ok_iff.mp h
          cases h
          obtain ⟨hlt, hchar⟩ := digitValue?_eq_some_iff.mp hdigit
          obtain ⟨hlts, hchars⟩ := ih.mp hrest
          exact ⟨List.forall_mem_cons.mpr ⟨hlt, hlts⟩, by rw [List.map_cons, hchar, hchars]⟩
      · rintro ⟨hlt, hchars⟩
        obtain ⟨digit, rest, rfl, hchar, hrest⟩ := List.map_eq_cons_iff.mp hchars
        obtain ⟨hdigit, hdigits⟩ := List.forall_mem_cons.mp hlt
        rw [digitValue?_eq_some_iff.mpr ⟨hdigit, hchar⟩]
        exact bind_eq_ok_iff.mpr ⟨rest, ih.mpr ⟨hdigits, hrest⟩, rfl⟩

theorem exists_readDigits_iff {chars : List Char} :
    (∃ numeral, readDigits chars = .ok numeral) ↔ ∀ char ∈ chars, char ∈ alphabet := by
  simp only [readDigits_eq_ok_iff]
  constructor
  · rintro ⟨numeral, hlt, rfl⟩ char hchar
    obtain ⟨digit, hdigit, rfl⟩ := List.mem_map.mp hchar
    exact exists_digitValue?_iff.mp ⟨digit, digitValue?_eq_some_iff.mpr ⟨hlt digit hdigit, rfl⟩⟩
  · intro h
    induction chars with
    | nil => exact ⟨[], List.forall_mem_nil _, rfl⟩
    | cons char chars ih =>
        obtain ⟨hchar, hchars⟩ := List.forall_mem_cons.mp h
        obtain ⟨digit, hdigit⟩ := exists_digitValue?_iff.mpr hchar
        obtain ⟨hlt, rfl⟩ := digitValue?_eq_some_iff.mp hdigit
        obtain ⟨numeral, hlts, rfl⟩ := ih hchars
        exact ⟨digit :: numeral, List.forall_mem_cons.mpr ⟨hlt, hlts⟩, rfl⟩

theorem length_takeWhile_one {numeral : List Nat} (h : ∀ digit ∈ numeral, digit < 58) :
    ((numeral.map digitChar).takeWhile (· = '1')).length = Numeral.zeros numeral := by
  induction numeral with
  | nil => rfl
  | cons digit numeral ih =>
      obtain ⟨hdigit, hnumeral⟩ := List.forall_mem_cons.mp h
      have hone := digitChar_eq_one_iff hdigit
      simp only [List.map_cons, List.takeWhile_cons, hone, decide_eq_true_eq]
      by_cases hzero : digit = 0
      · rw [if_pos hzero, List.length_cons, ih hnumeral, hzero, Numeral.zeros_zero_cons]
      · rw [if_neg hzero, List.length_nil, Numeral.zeros_cons_of_ne hzero]

theorem encode_eq_rebase (bytes : Bytes) :
    encode bytes =
      String.ofList ((Numeral.rebase 256 58 (by decide) bytes.numeral).map digitChar) := by
  have hone : digitChar 0 = '1' := by decide
  rw [encode, Numeral.rebase, Numeral.spell, Bytes.value_numeral, Bytes.zeros_numeral,
    List.map_append, List.map_replicate, hone]

theorem decode_eq_ok_iff_exists {text : String} {bytes : Bytes} :
    decode text = .ok bytes ↔ ∃ numeral, readDigits text.toList = .ok numeral ∧
      bytes = Bytes.ofNumeral (Numeral.rebase 58 256 (by decide) numeral) := by
  rw [decode, bind_eq_ok_iff]
  refine exists_congr fun numeral => and_congr_right fun hread => ?_
  obtain ⟨hlt, hchars⟩ := readDigits_eq_ok_iff.mp hread
  rw [← hchars, length_takeWhile_one hlt, Numeral.rebase, Bytes.ofNumeral_spell,
    Numeral.value]
  constructor
  · intro h
    cases h
    rfl
  · rintro rfl
    rfl

theorem decode_encode (bytes : Bytes) : decode (encode bytes) = .ok bytes := by
  rw [decode_eq_ok_iff_exists, encode_eq_rebase, String.toList_ofList]
  refine ⟨_, readDigits_eq_ok_iff.mpr ⟨Numeral.lt_of_mem_rebase _ _, rfl⟩, ?_⟩
  rw [Numeral.rebase_rebase _ _ bytes.lt_of_mem_numeral, Bytes.ofNumeral_numeral]

theorem encode_of_decode {text : String} {bytes : Bytes} (h : decode text = .ok bytes) :
    encode bytes = text := by
  obtain ⟨numeral, hread, rfl⟩ := decode_eq_ok_iff_exists.mp h
  obtain ⟨hlt, hchars⟩ := readDigits_eq_ok_iff.mp hread
  rw [encode_eq_rebase, Bytes.numeral_ofNumeral (Numeral.lt_of_mem_rebase _ _),
    Numeral.rebase_rebase _ _ hlt, hchars, String.ofList_toList]

theorem exists_decode_iff {text : String} :
    (∃ bytes, decode text = .ok bytes) ↔
      ∀ code ∈ text.toUTF8.data.toList, Char.ofUInt8 code ∈ alphabet := by
  have hread : (∃ bytes, decode text = .ok bytes) ↔
      ∃ numeral, readDigits text.toList = .ok numeral := by
    simp only [decode_eq_ok_iff_exists]
    constructor
    · rintro ⟨_, numeral, hnumeral, -⟩
      exact ⟨numeral, hnumeral⟩
    · rintro ⟨numeral, hnumeral⟩
      exact ⟨_, numeral, hnumeral, rfl⟩
  rw [hread, exists_readDigits_iff, toList_toUTF8, List.forall_mem_flatMap]
  exact forall₂_congr fun char _ => mem_alphabet_iff

-- Every text over the alphabet is the one encoding of one byte string.
theorem decode_eq_ok_iff (text : String) :
    (∀ bytes, decode text = .ok bytes ↔ encode bytes = text) ∧
      ((∃ bytes, decode text = .ok bytes) ↔
        ∀ code ∈ text.toUTF8.data.toList, Char.ofUInt8 code ∈ alphabet) := by
  refine ⟨fun bytes => ⟨encode_of_decode, ?_⟩, exists_decode_iff⟩
  rintro rfl
  exact decode_encode bytes

-- Two zero bytes in front of the byte that is written as the second digit.
theorem decode_eq_ok_iff_leading_zeros :
    decode "112" = .ok [0, 0, 1] ∧ encode [0, 0, 1] = "112" ∧
      ∀ code ∈ "112".toUTF8.data.toList, Char.ofUInt8 code ∈ alphabet := by
  have hencode : encode [0, 0, 1] = "112" := by
    have hvalue : Bytes.toNatBE [0, 0, 1] = 1 := rfl
    have hdigits : digits 58 (by decide) 1 = [1] := by
      rw [digits_eq_natDigits, Nat.digits_of_lt 58 1 (by decide) (by decide)]
    rw [encode, hvalue, hdigits]
    decide
  have hdecode := ((decode_eq_ok_iff "112").1 [0, 0, 1]).mpr hencode
  have hcodes := (decode_eq_ok_iff "112").2.mp ⟨[0, 0, 1], hdecode⟩
  exact ⟨hdecode, hencode, hcodes⟩

end Base58

end BitcoinSpend
