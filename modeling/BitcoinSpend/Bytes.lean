namespace BitcoinSpend

abbrev Bytes := List UInt8

-- A byte string of known length: a digest, a key hash or a transaction id.
structure FixedBytes (size : Nat) where
  bytes : Bytes
  length_eq : bytes.length = size
deriving DecidableEq

theorem FixedBytes.bytes_inj {size : Nat} {x y : FixedBytes size} : x.bytes = y.bytes ↔ x = y := by
  cases x
  cases y
  simp

-- The base-`base` digits of a number, least significant first, without
-- leading zeros. Zero has no digits.
def digits (base : Nat) (hbase : 1 < base) (value : Nat) : List Nat :=
  if value = 0 then []
  else value % base :: digits base hbase (value / base)
termination_by value
decreasing_by exact Nat.div_lt_self (by omega) hbase

-- The number written by base-`base` digits, least significant first.
def ofDigits (base : Nat) : List Nat → Nat
  | [] => 0
  | digit :: rest => digit + base * ofDigits base rest

theorem ofDigits_digits (base : Nat) (hbase : 1 < base) (value : Nat) :
    ofDigits base (digits base hbase value) = value := by
  fun_induction digits base hbase value with
  | case1 => rfl
  | case2 value _ ih => rw [ofDigits, ih, Nat.mod_add_div]

theorem digit_lt_base (base : Nat) (hbase : 1 < base) (value : Nat) :
    ∀ digit ∈ digits base hbase value, digit < base := by
  fun_induction digits base hbase value with
  | case1 => simp
  | case2 value _ ih =>
      intro digit hd
      cases List.mem_cons.mp hd with
      | inl heq => exact heq ▸ Nat.mod_lt _ (by omega)
      | inr hm => exact ih digit hm

namespace Bytes

-- The first `size` bytes and what follows them, if there are that many.
def take? : (size : Nat) → Bytes → Option (Bytes × Bytes)
  | 0, input => some ([], input)
  | _ + 1, [] => none
  | size + 1, byte :: input =>
      match take? size input with
      | none => none
      | some (taken, rest) => some (byte :: taken, rest)

theorem take?_eq_some_iff {size : Nat} {input taken rest : Bytes} :
    take? size input = some (taken, rest) ↔ input = taken ++ rest ∧ taken.length = size := by
  induction size generalizing input taken with
  | zero =>
      simp only [take?, Option.some.injEq, Prod.mk.injEq, List.length_eq_zero_iff]
      constructor
      · rintro ⟨rfl, rfl⟩
        exact ⟨rfl, rfl⟩
      · rintro ⟨rfl, rfl⟩
        exact ⟨rfl, rfl⟩
  | succ size ih =>
      cases input with
      | nil => cases taken <;> simp [take?]
      | cons byte input =>
          cases taken with
          | nil => cases hs : take? size input <;> simp [take?, hs]
          | cons first taken =>
              have hi := @ih input taken
              cases hs : take? size input with
              | none => simp_all [take?]
              | some pair =>
                  simp only [hs, Option.some.injEq] at hi
                  simp only [take?, hs, Option.some.injEq, Prod.mk.injEq, List.cons.injEq,
                    List.cons_append, List.length_cons, Nat.add_right_cancel_iff, and_assoc]
                  rw [Prod.ext_iff] at hi
                  exact and_congr_right fun _ => hi

theorem take?_eq_none_iff {size : Nat} {input : Bytes} :
    take? size input = none ↔ input.length < size := by
  constructor
  · intro hnone
    refine Nat.lt_of_not_le fun hle => ?_
    have htaken : take? size input = some (input.take size, input.drop size) :=
      take?_eq_some_iff.mpr ⟨(List.take_append_drop size input).symm, List.length_take_of_le hle⟩
    rw [hnone] at htaken
    cases htaken
  · intro hlt
    refine Option.eq_none_iff_forall_ne_some.mpr fun pair htaken => ?_
    obtain ⟨hinput, hlength⟩ := take?_eq_some_iff.mp htaken
    have htotal := congrArg List.length hinput
    rw [List.length_append] at htotal
    omega

-- The value of a byte string read with its most significant byte first.
def toNatBE (bytes : Bytes) : Nat :=
  bytes.foldl (fun value byte => value * 256 + byte.toNat) 0

-- The value of a byte string read with its least significant byte first.
def toNatLE : Bytes → Nat
  | [] => 0
  | byte :: rest => byte.toNat + 256 * toNatLE rest

-- The low `size` bytes of a number, least significant first.
def ofNatLE : (size : Nat) → Nat → Bytes
  | 0, _ => []
  | size + 1, value => UInt8.ofNat value :: ofNatLE size (value / 256)

@[simp]
theorem length_ofNatLE (size value : Nat) : (ofNatLE size value).length = size := by
  induction size generalizing value with
  | zero => rfl
  | succ size ih => rw [ofNatLE, List.length_cons, ih]

-- The low `size` bytes of a number, most significant first.
def ofNatBE (size value : Nat) : Bytes :=
  (ofNatLE size value).reverse

@[simp]
theorem length_ofNatBE (size value : Nat) : (ofNatBE size value).length = size := by
  rw [ofNatBE, List.length_reverse, length_ofNatLE]

-- The fewest bytes that hold a number, least significant first. Zero needs none.
def minimalLE (value : Nat) : Bytes :=
  (digits 256 (by decide) value).map UInt8.ofNat

-- The fewest bytes that hold a number, most significant first. Zero needs none.
def minimalBE (value : Nat) : Bytes :=
  (minimalLE value).reverse

end Bytes

end BitcoinSpend
