import BitcoinSpend.Ecdsa.Signature
import BitcoinSpend.Proofs.Base58.Numeral

namespace BitcoinSpend.Signature

-- The fewest bytes, but at least one, that have a given value.
structure Shortest (value : Nat) (bytes : Bytes) : Prop where
  ne_nil : bytes ≠ []
  toNatBE_eq : Bytes.toNatBE bytes = value
  length_le : ∀ other : Bytes, other ≠ [] → Bytes.toNatBE other = value →
    bytes.length ≤ other.length

-- A zero stands in front of the shortest bytes just when their first bit is set.
inductive SignedMagnitude (value : Nat) : Bytes → Prop where
  | plain {first : UInt8} {rest : Bytes} (hshortest : Shortest value (first :: rest))
      (hclear : first.toNat < 128) : SignedMagnitude value (first :: rest)
  | padded {first : UInt8} {rest : Bytes} (hshortest : Shortest value (first :: rest))
      (hset : 128 ≤ first.toNat) : SignedMagnitude value (0x00 :: first :: rest)

theorem Shortest.length_le_of_lt {value size : Nat} {bytes : Bytes} (h : Shortest value bytes)
    (hsize : 0 < size) (hlt : value < 256 ^ size) : bytes.length ≤ size := by
  have hlength := Bytes.length_ofNatBE size value
  have hne : Bytes.ofNatBE size value ≠ [] := by
    apply List.ne_nil_of_length_pos
    rw [hlength]
    exact hsize
  have hle := h.length_le _ hne (by rw [Bytes.toNatBE_ofNatBE, Nat.mod_eq_of_lt hlt])
  rwa [hlength] at hle

namespace SignedMagnitude

variable {value : Nat} {bytes : Bytes}

theorem toNatBE_eq (h : SignedMagnitude value bytes) : Bytes.toNatBE bytes = value := by
  cases h with
  | plain hshortest => exact hshortest.toNatBE_eq
  | padded hshortest => rw [Bytes.toNatBE_zero_cons, hshortest.toNatBE_eq]

-- A byte more than the number takes on its own.
theorem length_le (h : SignedMagnitude value bytes) {size : Nat} (hsize : 0 < size)
    (hlt : value < 256 ^ size) : bytes.length ≤ size + 1 := by
  cases h with
  | plain hshortest => exact (hshortest.length_le_of_lt hsize hlt).trans (Nat.le_succ size)
  | padded hshortest => exact Nat.succ_le_succ (hshortest.length_le_of_lt hsize hlt)

end SignedMagnitude

theorem shortest_zero : Shortest 0 [0x00] := by
  refine ⟨List.cons_ne_nil _ _, rfl, ?_⟩
  intro other hne _
  exact List.length_pos_of_ne_nil hne

theorem shortest_minimalBE {value : Nat} (hne : Bytes.minimalBE value ≠ []) :
    Shortest value (Bytes.minimalBE value) := by
  refine ⟨hne, Bytes.toNatBE_minimalBE value, ?_⟩
  rintro other - rfl
  obtain ⟨zeros, hother⟩ := Bytes.exists_eq_replicate_append_minimalBE other
  have hlength := congrArg List.length hother
  rw [List.length_append] at hlength
  omega

theorem signedMagnitude_derMagnitude (value : Nat) : SignedMagnitude value (derMagnitude value) := by
  have hvalue := Bytes.toNatBE_minimalBE value
  rw [derMagnitude]
  split
  next hnil =>
    rw [hnil] at hvalue
    subst hvalue
    exact .plain shortest_zero (by decide)
  next first rest hcons =>
    have hshortest := shortest_minimalBE (hcons ▸ List.cons_ne_nil first rest)
    rw [hcons] at hshortest
    split_ifs with hset
    · exact .padded hshortest (UInt8.le_iff_toNat_le.mp hset)
    · exact .plain hshortest (UInt8.lt_iff_toNat_lt.mp (UInt8.not_le.mp hset))

end BitcoinSpend.Signature
