import BitcoinSpend.Proofs.Secp256k1.Order
import Mathlib.GroupTheory.Perm.Cycle.Type
import Mathlib.SetTheory.Cardinal.Finite

namespace BitcoinSpend

namespace Curve

variable {E : Curve} [Fact E.prime.Prime]

-- Of two opposite points the parity of the ordinate tells which one it is.
def parityCode : E.weierstrass.Point → Option (ZMod E.prime × Bool)
  | .zero => none
  | .some x y _ => some (x, decide (y.val % 2 = 0))

theorem eq_of_parity_eq (hp : E.prime ≠ 2) {y z : ZMod E.prime} (h : y = z ∨ y = -z)
    (hparity : y.val % 2 = 0 ↔ z.val % 2 = 0) : y = z := by
  rcases h with h | rfl
  · exact h
  · rw [ZMod.neg_val] at hparity
    split_ifs at hparity with hz
    · rw [hz, neg_zero]
    · have hodd := (Fact.out : E.prime.Prime).eq_two_or_odd.resolve_left hp
      have hlt := z.val_lt
      omega

theorem parityCode_injective (hp : E.prime ≠ 2) :
    Function.Injective (parityCode : E.weierstrass.Point → _) := by
  intro P Q h
  cases P with
  | zero =>
      cases Q with
      | zero => rfl
      | some x y hQ => cases h
  | some x₁ y₁ h₁ =>
      cases Q with
      | zero => cases h
      | some x₂ y₂ h₂ =>
          simp only [parityCode, Option.some.injEq, Prod.mk.injEq, decide_eq_decide] at h
          obtain ⟨rfl, hparity⟩ := h
          have hy := WeierstrassCurve.Affine.Y_eq_of_X_eq h₁.1 h₂.1 rfl
          rw [negY_weierstrass] at hy
          cases eq_of_parity_eq hp hy hparity
          rfl

theorem finite_point (hp : E.prime ≠ 2) : Finite E.weierstrass.Point :=
  Finite.of_injective parityCode (parityCode_injective hp)

-- Two points for each abscissa, and infinity.
theorem card_point_le (hp : E.prime ≠ 2) : Nat.card E.weierstrass.Point ≤ E.prime * 2 + 1 := by
  have hcode : Nat.card (Option (ZMod E.prime × Bool)) = E.prime * 2 + 1 := by
    rw [Finite.card_option, Nat.card_prod, Nat.card_zmod, Nat.card_eq_fintype_card,
      Fintype.card_bool]
  rw [← hcode]
  exact Nat.card_le_card_of_injective parityCode (parityCode_injective hp)

end Curve

namespace Secp256k1

open BitcoinSpend.Point

theorem powMod_neg_seven_ne_one :
    powMod curve.prime (curve.prime - 7) ((curve.prime - 1) / 3) ≠ 1 := by
  decide +kernel

-- A third of the order of the group takes every cube to one.
theorem cube_ne_neg_seven (x : ZMod curve.prime) : x ^ 3 ≠ -7 := by
  intro hx
  have hcast : ((curve.prime - 7 : Nat) : ZMod curve.prime) = x ^ 3 := by
    rw [hx, Nat.cast_sub (by decide), ZMod.natCast_self, zero_sub, Nat.cast_ofNat]
  have hne : x ≠ 0 := by
    rintro rfl
    rw [zero_pow three_ne_zero, ZMod.natCast_eq_zero_iff] at hcast
    exact absurd hcast (by decide)
  apply powMod_neg_seven_ne_one
  rw [← natCast_pow_eq_one_iff (by decide), hcast, ← pow_mul]
  exact ZMod.pow_card_sub_one_eq_one hne

-- No point is its own inverse but infinity.
theorem ordinate_ne_zero {x y : ZMod curve.prime} (h : curve.weierstrass.Equation x y) :
    y ≠ 0 := by
  rintro rfl
  rw [WeierstrassCurve.Affine.equation_iff] at h
  have ha : curve.a.toZMod = 0 := Nat.cast_zero
  have hb : curve.b.toZMod = 7 := Nat.cast_ofNat
  simp only [Curve.weierstrass, ha, hb] at h
  exact cube_ne_neg_seven x (by linear_combination -h)

theorem add_self_ne_zero {P : curve.weierstrass.Point} (hP : P ≠ 0) : P + P ≠ 0 := by
  cases P with
  | zero => exact absurd rfl hP
  | some x y h =>
      have hy := Curve.ne_negY_self prime_ne_two (ordinate_ne_zero h.1) x
      rw [WeierstrassCurve.Affine.Point.add_of_Y_ne hy]
      exact WeierstrassCurve.Affine.Point.some_ne_zero _

instance : Finite curve.weierstrass.Point :=
  Curve.finite_point prime_ne_two

-- The order of the generator divides the number of points and is more than a
-- third of it. If it were half of it, there would be a point of order two.
theorem card_point : Nat.card curve.weierstrass.Point = order := by
  have hle : Nat.card curve.weierstrass.Point ≤ prime * 2 + 1 := Curve.card_point_le prime_ne_two
  have hpos : 0 < Nat.card curve.weierstrass.Point := Nat.card_pos
  obtain ⟨m, hm⟩ : order ∣ Nat.card curve.weierstrass.Point :=
    addOrderOf_base ▸ addOrderOf_dvd_natCard base
  have hsmall : prime * 2 + 1 < order * 3 := by decide
  have hlt : m < 3 := Nat.lt_of_mul_lt_mul_left (hm ▸ hle.trans_lt hsmall)
  have hnone : m ≠ 0 := by
    rintro rfl
    omega
  have htwice : m ≠ 2 := by
    rintro rfl
    obtain ⟨P, hP⟩ := exists_prime_addOrderOf_dvd_card' 2 (Dvd.intro_left order hm.symm)
    have hzero : P ≠ 0 := by
      rintro rfl
      simp at hP
    apply add_self_ne_zero hzero
    rw [← two_nsmul, ← hP, addOrderOf_nsmul_eq_zero]
  have hone : m = 1 := by omega
  rw [hm, hone, mul_one]

theorem order_nsmul (P : curve.weierstrass.Point) : order • P = 0 := by
  rw [← card_point]
  exact card_nsmul_eq_zero'

theorem mul_ofAffine (k : Int) (P : curve.weierstrass.Point) :
    mul k (ofAffine P) = ofAffine (k • P) := by
  rw [mul, BitcoinSpend.Point.mul_ofAffine prime_ne_two, ← card_point, mod_natCard_zsmul]

theorem mul_generator (k : Int) : mul k generator = ofAffine (k • base) := by
  rw [← ofAffine_base, mul_ofAffine]

-- The order of the generator takes every point of the curve to infinity, and
-- reducing a scalar by it changes no multiple.
theorem mul_eq_unreduced {P : Point} (hP : P.OnCurve) :
    (∀ k : Int, mul k P = BitcoinSpend.Point.mul k P) ∧
      BitcoinSpend.Point.mul order P = .infinity := by
  obtain ⟨Q, rfl⟩ := exists_ofAffine_eq elliptic hP
  constructor
  · intro k
    rw [mul_ofAffine, BitcoinSpend.Point.mul_ofAffine prime_ne_two]
  · rw [BitcoinSpend.Point.mul_ofAffine prime_ne_two, natCast_zsmul, order_nsmul, ofAffine_zero]

def abscissaOne : Point :=
  .affine ⟨1, by decide⟩
    ⟨0x4218f20ae6c646b363db68605822fb14264ca8d2587fdd6fbc750d587e76a7ee, by decide⟩

theorem onCurve_abscissaOne : abscissaOne.OnCurve := by
  change curve.Satisfies _ _
  decide +kernel

theorem mul_eq_unreduced_abscissaOne :
    abscissaOne.OnCurve ∧ mul (-1) abscissaOne = BitcoinSpend.Point.mul (-1) abscissaOne ∧
      BitcoinSpend.Point.mul order abscissaOne = .infinity := by
  obtain ⟨hmul, horder⟩ := mul_eq_unreduced onCurve_abscissaOne
  exact ⟨onCurve_abscissaOne, hmul _, horder⟩

end Secp256k1

end BitcoinSpend
