import BitcoinSpend.Proofs.Curve.Jacobian
import BitcoinSpend.Proofs.Secp256k1.Prime
import Mathlib.GroupTheory.OrderOfElement

namespace BitcoinSpend.Secp256k1

open BitcoinSpend.Point

theorem prime_ne_two : curve.prime ≠ 2 := by
  decide

theorem elliptic : curve.Elliptic :=
  ⟨prime_prime, prime_ne_two, by decide⟩

theorem onCurve_generator : generator.OnCurve := by
  change curve.Satisfies generatorX generatorY
  decide +kernel

noncomputable def base : curve.weierstrass.Point :=
  (exists_ofAffine_eq elliptic onCurve_generator).choose

@[simp]
theorem ofAffine_base : ofAffine base = generator :=
  (exists_ofAffine_eq elliptic onCurve_generator).choose_spec

theorem base_ne_zero : base ≠ 0 := by
  intro h
  have hg := ofAffine_base
  rw [h] at hg
  cases hg

-- The inverse of the generator, which comes last before infinity.
def lastMultiple : Jacobian curve :=
  .multiple generatorX generatorY 255 (order - 1)

theorem lastMultiple_eq :
    lastMultiple.z.value ≠ 0 ∧
      lastMultiple.x = generatorX * (lastMultiple.z * lastMultiple.z) ∧
      lastMultiple.y = -generatorY * (lastMultiple.z * lastMultiple.z * lastMultiple.z) := by
  decide +kernel

theorem order_nsmul_base : order • base = 0 := by
  obtain ⟨hz, hx, hy⟩ := lastMultiple_eq
  have hrepresents : lastMultiple.Represents ((order - 1) • base) :=
    Jacobian.represents_multiple prime_ne_two ofAffine_base (by decide) (by decide)
  have hneg : (order - 1) • base = -base := by
    apply ofAffine_injective
    rw [hrepresents.ofAffine_eq hz hx hy, ofAffine_neg, ofAffine_base]
    rfl
  have horder : order - 1 + 1 = order := by decide
  rw [← horder, succ_nsmul, hneg, neg_add_cancel]

theorem addOrderOf_base : addOrderOf base = order :=
  addOrderOf_eq_prime order_nsmul_base base_ne_zero

theorem zsmul_base_eq_iff {j k : Int} : j • base = k • base ↔ (j : ZMod order) = k := by
  rw [zsmul_eq_zsmul_iff_modEq, addOrderOf_base, ZMod.intCast_eq_intCast_iff]

end BitcoinSpend.Secp256k1
