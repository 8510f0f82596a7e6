import BitcoinSpend.Proofs.Wire.Integer

namespace BitcoinSpend

-- A numeral has its most significant digit first and may start with zeros, which
-- its value does not tell.
namespace Numeral

variable {base : Nat} (hbase : 1 < base)

def zeros (numeral : List Nat) : Nat :=
  (numeral.takeWhile (· = 0)).length

def value (base : Nat) (numeral : List Nat) : Nat :=
  ofDigits base numeral.reverse

-- The numeral of a value that starts with a given number of zeros.
def spell (base : Nat) (hbase : 1 < base) (zeros value : Nat) : List Nat :=
  List.replicate zeros 0 ++ (digits base hbase value).reverse

theorem zeros_zero_cons (numeral : List Nat) : zeros (0 :: numeral) = zeros numeral + 1 := by
  simp [zeros]

theorem zeros_cons_of_ne {digit : Nat} (h : digit ≠ 0) (numeral : List Nat) :
    zeros (digit :: numeral) = 0 := by
  simp [zeros, h]

theorem value_zero_cons (numeral : List Nat) : value base (0 :: numeral) = value base numeral := by
  have hconcat := Nat.ofDigits_append_replicate_zero (b := base) (k := 1) numeral.reverse
  rw [value, value, List.reverse_cons, ofDigits_eq_natOfDigits, ofDigits_eq_natOfDigits]
  exact hconcat

theorem spell_zero (number : Nat) :
    spell base hbase 0 number = (digits base hbase number).reverse := by
  rw [spell, List.replicate_zero, List.nil_append]

theorem spell_succ (count number : Nat) :
    spell base hbase (count + 1) number = 0 :: spell base hbase count number := by
  rw [spell, List.replicate_succ, List.cons_append, ← spell]

-- The digits of a number do not start with a zero.
theorem zeros_spell (count number : Nat) : zeros (spell base hbase count number) = count := by
  induction count with
  | zero =>
      have hfirst := getLast?_digits_ne_zero hbase number
      rw [← List.head?_reverse, ← spell_zero] at hfirst
      cases hspelled : spell base hbase 0 number with
      | nil => rfl
      | cons first rest =>
          rw [hspelled, List.head?_cons] at hfirst
          exact zeros_cons_of_ne (fun hzero => hfirst (congrArg some hzero)) rest
  | succ count ih => rw [spell_succ, zeros_zero_cons, ih]

theorem value_spell (count number : Nat) : value base (spell base hbase count number) = number := by
  induction count with
  | zero => rw [spell_zero, value, List.reverse_reverse, ofDigits_digits]
  | succ count ih => rw [spell_succ, value_zero_cons, ih]

theorem lt_of_mem_spell (count number : Nat) :
    ∀ digit ∈ spell base hbase count number, digit < base := by
  intro digit hdigit
  cases List.mem_append.mp hdigit with
  | inl hzero =>
      rw [List.eq_of_mem_replicate hzero]
      omega
  | inr hmem => exact digit_lt_base base hbase number digit (List.mem_reverse.mp hmem)

theorem digits_value {first : Nat} {rest : List Nat} (h : ∀ digit ∈ first :: rest, digit < base)
    (hfirst : first ≠ 0) :
    digits base hbase (value base (first :: rest)) = (first :: rest).reverse := by
  rw [value, digits_eq_natDigits, ofDigits_eq_natOfDigits]
  apply Nat.digits_ofDigits base hbase
  · exact fun digit hdigit => h digit (List.mem_reverse.mp hdigit)
  · intro _
    rw [List.getLast_reverse]
    exact hfirst

-- A numeral is told by its zeros and its value.
theorem spell_value {numeral : List Nat} (h : ∀ digit ∈ numeral, digit < base) :
    spell base hbase (zeros numeral) (value base numeral) = numeral := by
  induction numeral with
  | nil =>
      have hvalue : value base [] = 0 := rfl
      have hzeros : zeros [] = 0 := rfl
      rw [hvalue, hzeros, spell_zero, digits, if_pos rfl, List.reverse_nil]
  | cons digit numeral ih =>
      by_cases hzero : digit = 0
      · subst hzero
        rw [zeros_zero_cons, value_zero_cons, spell_succ, ih (List.forall_mem_cons.mp h).2]
      · rw [zeros_cons_of_ne hzero, spell_zero, digits_value hbase h hzero, List.reverse_reverse]

-- The numeral of the same value in another base, with as many zeros in front.
def rebase (base other : Nat) (hother : 1 < other) (numeral : List Nat) : List Nat :=
  spell other hother (zeros numeral) (value base numeral)

theorem lt_of_mem_rebase {other : Nat} (hother : 1 < other) (numeral : List Nat) :
    ∀ digit ∈ rebase base other hother numeral, digit < other :=
  lt_of_mem_spell hother (zeros numeral) (value base numeral)

theorem rebase_rebase {other : Nat} (hother : 1 < other) {numeral : List Nat}
    (h : ∀ digit ∈ numeral, digit < base) :
    rebase other base hbase (rebase base other hother numeral) = numeral := by
  rw [rebase, rebase, zeros_spell, value_spell, spell_value hbase h]

end Numeral

namespace Bytes

-- A byte string is a numeral in base 256.
def numeral (bytes : Bytes) : List Nat :=
  bytes.map UInt8.toNat

def ofNumeral (numeral : List Nat) : Bytes :=
  numeral.map UInt8.ofNat

theorem ofNumeral_numeral (bytes : Bytes) : ofNumeral bytes.numeral = bytes := by
  rw [ofNumeral, numeral, List.map_map]
  exact List.map_id'' (fun _ => UInt8.ofNat_toNat) bytes

theorem numeral_ofNumeral {digits : List Nat} (h : ∀ digit ∈ digits, digit < 256) :
    (ofNumeral digits).numeral = digits :=
  map_toNat_map_ofNat h

theorem lt_of_mem_numeral (bytes : Bytes) : ∀ digit ∈ bytes.numeral, digit < 256 := by
  intro digit hdigit
  obtain ⟨byte, -, rfl⟩ := List.mem_map.mp hdigit
  exact byte.toNat_lt

theorem value_numeral (bytes : Bytes) : Numeral.value 256 bytes.numeral = toNatBE bytes := by
  rw [Numeral.value, toNatBE_eq_toNatLE_reverse, toNatLE_eq_ofDigits, numeral, List.map_reverse]

theorem zeros_numeral (bytes : Bytes) :
    Numeral.zeros bytes.numeral = (bytes.takeWhile (· = 0)).length := by
  have hzero : (fun digit => decide (digit = 0)) ∘ UInt8.toNat = fun byte => decide (byte = 0) := by
    funext byte
    exact decide_eq_decide.mpr (UInt8.toNat_inj (b := 0))
  rw [Numeral.zeros, numeral, List.takeWhile_map, hzero, List.length_map]

theorem ofNumeral_spell (zeros value : Nat) :
    ofNumeral (Numeral.spell 256 (by decide) zeros value) =
      List.replicate zeros 0 ++ minimalBE value := by
  rw [ofNumeral, Numeral.spell, List.map_append, List.map_replicate, List.map_reverse]
  rfl

theorem exists_eq_replicate_append_minimalBE (bytes : Bytes) :
    ∃ zeros, bytes = List.replicate zeros 0 ++ minimalBE (toNatBE bytes) := by
  have hspell := Numeral.spell_value (by decide) bytes.lt_of_mem_numeral
  refine ⟨Numeral.zeros bytes.numeral, ?_⟩
  rw [← ofNumeral_spell, ← value_numeral, hspell, ofNumeral_numeral]

-- The same but for the number of zeros in front.
def SameButZeros (bytes other : Bytes) : Prop :=
  ∃ rest zeros zeros', bytes = List.replicate zeros 0 ++ rest ∧
    other = List.replicate zeros' 0 ++ rest

theorem sameButZeros_iff {bytes other : Bytes} :
    SameButZeros bytes other ↔ toNatBE bytes = toNatBE other := by
  constructor
  · rintro ⟨rest, zeros, zeros', rfl, rfl⟩
    rw [toNatBE_replicate_append, toNatBE_replicate_append]
  · intro hvalue
    obtain ⟨zeros, hbytes⟩ := exists_eq_replicate_append_minimalBE bytes
    obtain ⟨zeros', hother⟩ := exists_eq_replicate_append_minimalBE other
    rw [← hvalue] at hother
    exact ⟨_, zeros, zeros', hbytes, hother⟩

end Bytes

end BitcoinSpend
