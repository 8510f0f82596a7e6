import BitcoinSpend.Ecdsa.Verification
import BitcoinSpend.Proofs.Curve.Multiple
import BitcoinSpend.Proofs.Secp256k1.Count

namespace BitcoinSpend

open Secp256k1
open BitcoinSpend.Point (ofAffine ofAffine_add exists_ofAffine_eq repeated repeated_ofAffine)

theorem natCast_inverseModOrder (value : Nat) :
    (inverseModOrder value : ZMod order) = (value : ZMod order)⁻¹ := by
  rw [inverseModOrder, natCast_powMod]
  exact zmod_pow_sub_two (.inr (by decide))

theorem natCast_ne_zero_of_lt {value : Nat} (hpos : 0 < value) (hlt : value < order) :
    (value : ZMod order) ≠ 0 := by
  rw [Ne, ZMod.natCast_eq_zero_iff]
  exact Nat.not_dvd_of_pos_of_lt hpos hlt

-- An inverse modulo the order among the numbers from one up.
def IsInverse (value inverse : Nat) : Prop :=
  (1 ≤ inverse ∧ inverse < order) ∧ inverse * value ≡ 1 [MOD order]

theorem isInverse_iff {value inverse : Nat} (hpos : 0 < value) (hlt : value < order) :
    IsInverse value inverse ↔ inverse = inverseModOrder value := by
  have hvalue := natCast_ne_zero_of_lt hpos hlt
  have hbound : inverseModOrder value < order := by
    rw [inverseModOrder, powMod_eq]
    exact Nat.mod_lt _ (by decide)
  rw [IsInverse, ← ZMod.natCast_eq_natCast_iff, Nat.cast_mul, Nat.cast_one]
  constructor
  · rintro ⟨⟨-, hinverse⟩, hone⟩
    have hcast : (inverse : ZMod order) = inverseModOrder value := by
      rw [natCast_inverseModOrder]
      exact eq_inv_of_mul_eq_one_left hone
    rw [ZMod.natCast_eq_natCast_iff'] at hcast
    rwa [Nat.mod_eq_of_lt hinverse, Nat.mod_eq_of_lt hbound] at hcast
  · rintro rfl
    have hone : (inverseModOrder value : ZMod order) * value = 1 := by
      rw [natCast_inverseModOrder, inv_mul_cancel₀ hvalue]
    refine ⟨⟨Nat.pos_of_ne_zero ?_, hbound⟩, hone⟩
    intro hzero
    rw [hzero, Nat.cast_zero, zero_mul] at hone
    exact zero_ne_one hone

namespace Signature

-- What the verifier computes, in the group of the curve.
theorem verifies_ofAffine_iff (signature : Signature) (P : curve.weierstrass.Point) (z : Int) :
    signature.verifies (ofAffine P) z = true ↔
      signature.r ≠ 0 ∧ signature.s ≠ 0 ∧ ofAffine P ≠ .infinity ∧ ∃ x y,
        ofAffine ((z * inverseModOrder signature.s) • base +
            ((signature.r : Int) * inverseModOrder signature.s) • P) = .affine x y ∧
          x.value % order = signature.r := by
  simp only [verifies]
  by_cases hzero : signature.r = 0 ∨ signature.s = 0 ∨ ofAffine P = .infinity
  · rw [if_pos hzero]
    constructor
    · intro h
      cases h
    · rintro ⟨hr, hs, hP, -⟩
      rcases hzero with h | h | h
      · exact absurd h hr
      · exact absurd h hs
      · exact absurd h hP
  · rw [if_neg hzero, mul_generator, mul_ofAffine, ← ofAffine_add prime_ne_two, Nat.cast_mul]
    push Not at hzero
    obtain ⟨hr, hs, hP⟩ := hzero
    cases hpoint : ofAffine ((z * inverseModOrder signature.s) • base +
        ((signature.r : Int) * inverseModOrder signature.s) • P) with
    | infinity =>
        constructor
        · intro h
          cases h
        · rintro ⟨-, -, -, x, y, hxy, -⟩
          cases hxy
    | affine x y =>
        rw [decide_eq_true_iff]
        constructor
        · intro hx
          exact ⟨hr, hs, hP, x, y, rfl, hx⟩
        · rintro ⟨-, -, -, x', y', hxy, hx⟩
          cases hxy
          exact hx

-- The verifier agrees with the definition, which reduces no scalar and adds the
-- copies of the generator and of the key one by one.
theorem verifies_iff_repeated (signature : Signature) {P : Secp256k1.Point} (hP : P.OnCurve)
    (z : Int) :
    (signature.s ≠ 0 → ∃! w, IsInverse signature.s w) ∧
      (signature.verifies P z = true ↔
        signature.r ≠ 0 ∧ signature.s ≠ 0 ∧ P ≠ .infinity ∧
          ∃ w, IsInverse signature.s w ∧ ∃ x y,
            repeated (z * w) generator + repeated (signature.r * w) P = .affine x y ∧
              x.value ≡ signature.r [MOD order]) := by
  have hinverse : signature.s ≠ 0 →
      ∀ w, IsInverse signature.s w ↔ w = inverseModOrder signature.s :=
    fun hs _ => isInverse_iff (Nat.pos_of_ne_zero hs) signature.s_lt_order
  obtain ⟨Q, rfl⟩ := exists_ofAffine_eq elliptic hP
  constructor
  · intro hs
    refine ⟨inverseModOrder signature.s, (hinverse hs _).mpr rfl, ?_⟩
    intro w hw
    exact (hinverse hs w).mp hw
  · rw [verifies_ofAffine_iff]
    refine and_congr_right fun hr => and_congr_right fun hs => and_congr_right fun hne => ?_
    simp only [hinverse hs, exists_eq_left]
    have hsum : repeated (z * inverseModOrder signature.s) generator +
        repeated (signature.r * inverseModOrder signature.s) (ofAffine Q) =
          ofAffine ((z * inverseModOrder signature.s) • base +
            ((signature.r : Int) * inverseModOrder signature.s) • Q) := by
      rw [← ofAffine_base, repeated_ofAffine prime_ne_two, repeated_ofAffine prime_ne_two,
        ofAffine_add prime_ne_two]
    simp only [hsum, Nat.ModEq, Nat.mod_eq_of_lt signature.r_lt_order]

-- The nonce and the secret are one, and the hash is negative.
theorem verifies_iff_repeated_secret_one :
    generator.OnCurve ∧ verifies ⟨generatorX.value, 1, by decide, by decide⟩ generator
      (1 - generatorX.value) = true := by
  have hinverse : IsInverse 1 1 := ⟨by decide, rfl⟩
  have hsum : repeated ((1 - (generatorX.value : Int)) * (1 : Nat)) generator +
      repeated (generatorX.value * (1 : Nat)) generator = .affine generatorX generatorY := by
    have hone : (1 - (generatorX.value : Int)) * (1 : Nat) + generatorX.value * (1 : Nat) = 1 := by
      ring
    rw [← ofAffine_base, repeated_ofAffine prime_ne_two, repeated_ofAffine prime_ne_two,
      ← ofAffine_add prime_ne_two, ← add_zsmul, hone, one_zsmul, ofAffine_base]
    rfl
  refine ⟨onCurve_generator, (verifies_iff_repeated _ onCurve_generator _).2.mpr ?_⟩
  exact ⟨by decide, by decide, nofun, 1, hinverse, generatorX, generatorY, hsum, rfl⟩

end Signature

end BitcoinSpend
