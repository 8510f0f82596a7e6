import BitcoinSpend.Curve.Point
import BitcoinSpend.Proofs.Field.Prime
import Mathlib.AlgebraicGeometry.EllipticCurve.Affine.Point

namespace BitcoinSpend

namespace Curve

variable (E : Curve)

def weierstrass : WeierstrassCurve.Affine (ZMod E.prime) where
  a₁ := 0
  a₂ := 0
  a₃ := 0
  a₄ := E.a.toZMod
  a₆ := E.b.toZMod

theorem negY_weierstrass (x y : ZMod E.prime) : E.weierstrass.negY x y = -y := by
  simp [WeierstrassCurve.Affine.negY, weierstrass]

theorem addX_weierstrass (x₁ x₂ s : ZMod E.prime) :
    E.weierstrass.addX x₁ x₂ s = s * s - x₁ - x₂ := by
  simp [WeierstrassCurve.Affine.addX, weierstrass, pow_two]

theorem addY_weierstrass (x₁ x₂ y₁ s : ZMod E.prime) :
    E.weierstrass.addY x₁ x₂ y₁ s = s * (x₁ - (s * s - x₁ - x₂)) - y₁ := by
  rw [WeierstrassCurve.Affine.addY, negY_weierstrass, WeierstrassCurve.Affine.negAddY,
    addX_weierstrass]
  ring

-- The modulus is an odd prime, and no point of the curve is singular.
structure Elliptic : Prop where
  prime : E.prime.Prime
  prime_ne_two : E.prime ≠ 2
  nonsingular : ¬E.prime ∣ 4 * E.a.value ^ 3 + 27 * E.b.value ^ 2

variable {E}

-- The equation does not tell an ordinate from its opposite.
theorem satisfies_neg {x y : Residue E.prime} (h : E.Satisfies x y) : E.Satisfies x (-y) := by
  have hsquare : -y * -y = y * y := by
    rw [← Residue.toZMod_inj, Residue.toZMod_mul, Residue.toZMod_mul, Residue.toZMod_neg,
      neg_mul_neg]
  exact hsquare.trans h

variable [Fact E.prime.Prime]

-- The cube is the only power in the equation. With an odd modulus its exponent
-- is not a multiple of the order of the multiplicative group.
theorem toZMod_rhs (hp : E.prime ≠ 2) (x : Residue E.prime) :
    (E.rhs x).toZMod = x.toZMod ^ 3 + E.a.toZMod * x.toZMod + E.b.toZMod := by
  have h2 := (Fact.out : E.prime.Prime).two_le
  have hdvd : 3 % (E.prime - 1) ≠ 0 := by
    intro h
    have hd : E.prime - 1 ∣ 3 := Nat.dvd_of_mod_eq_zero h
    rcases (Nat.dvd_prime Nat.prime_three).mp hd with h1 | h3
    · omega
    · have h4 : E.prime = 4 := by omega
      exact absurd (Fact.out : E.prime.Prime) (by rw [h4]; decide)
  have hcube : (x.pow 3).toZMod = x.toZMod ^ 3 := Residue.toZMod_pow x 3 (.inr hdvd)
  rw [rhs, Residue.toZMod_add, Residue.toZMod_add, Residue.toZMod_mul, hcube]

theorem equation_toZMod_iff (hp : E.prime ≠ 2) {x y : Residue E.prime} :
    E.weierstrass.Equation x.toZMod y.toZMod ↔ E.Satisfies x y := by
  rw [WeierstrassCurve.Affine.equation_iff, Satisfies, ← Residue.toZMod_inj, toZMod_rhs hp,
    Residue.toZMod_mul]
  simp [weierstrass, pow_two]

-- The equation as it is written, with powers of integers.
theorem satisfies_iff_modEq (hp : E.prime ≠ 2) {x y : Residue E.prime} :
    E.Satisfies x y ↔
      y.value ^ 2 ≡ x.value ^ 3 + E.a.value * x.value + E.b.value [MOD E.prime] := by
  have hcast := ZMod.natCast_eq_natCast_iff (y.value ^ 2)
    (x.value ^ 3 + E.a.value * x.value + E.b.value) E.prime
  push_cast at hcast
  rw [Satisfies, ← Residue.toZMod_inj, Residue.toZMod_mul, toZMod_rhs hp, ← pow_two, ← hcast]
  rfl

theorem two_ne_zero_of_odd (hp : E.prime ≠ 2) : (2 : ZMod E.prime) ≠ 0 := by
  intro h
  have hd : E.prime ∣ 2 := (ZMod.natCast_eq_zero_iff 2 E.prime).mp (by exact_mod_cast h)
  exact hp ((Nat.prime_dvd_prime_iff_eq Fact.out Nat.prime_two).mp hd)

theorem Elliptic.discriminant_ne_zero (hE : E.Elliptic) : E.weierstrass.Δ ≠ 0 := by
  have hcast : E.weierstrass.Δ =
      -(2 ^ 4 * ((4 * E.a.value ^ 3 + 27 * E.b.value ^ 2 : Nat) : ZMod E.prime)) := by
    simp only [WeierstrassCurve.Δ, WeierstrassCurve.b₂, WeierstrassCurve.b₄,
      WeierstrassCurve.b₆, WeierstrassCurve.b₈, weierstrass, Residue.toZMod]
    push_cast
    ring
  rw [hcast, neg_ne_zero]
  apply mul_ne_zero (pow_ne_zero 4 (two_ne_zero_of_odd hE.prime_ne_two))
  rw [Ne, ZMod.natCast_eq_zero_iff]
  exact hE.nonsingular

theorem ne_negY_self (hp : E.prime ≠ 2) {y : ZMod E.prime} (hy : y ≠ 0) (x : ZMod E.prime) :
    y ≠ E.weierstrass.negY x y := by
  rw [negY_weierstrass]
  intro h
  exact mul_ne_zero (two_ne_zero_of_odd hp) hy (by linear_combination h)

theorem slope_tangent (hp : E.prime ≠ 2) {y : ZMod E.prime} (hy : y ≠ 0) (x : ZMod E.prime) :
    E.weierstrass.slope x x y y * (2 * y) = 3 * x ^ 2 + E.a.toZMod := by
  rw [WeierstrassCurve.Affine.slope_of_Y_ne rfl (ne_negY_self hp hy x), negY_weierstrass,
    sub_neg_eq_add, ← two_mul, div_mul_cancel₀ _ (mul_ne_zero (two_ne_zero_of_odd hp) hy)]
  simp [weierstrass]

theorem slope_chord {x₁ x₂ : ZMod E.prime} (hx : x₁ ≠ x₂) (y₁ y₂ : ZMod E.prime) :
    E.weierstrass.slope x₁ x₂ y₁ y₂ * (x₁ - x₂) = y₁ - y₂ := by
  rw [WeierstrassCurve.Affine.slope_of_X_ne hx, div_mul_cancel₀ _ (sub_ne_zero.mpr hx)]

-- The slopes that sums are formed with.
theorem toZMod_chord (hp : E.prime ≠ 2) {x₁ x₂ : Residue E.prime} (hx : x₁ ≠ x₂)
    (y₁ y₂ : Residue E.prime) :
    ((y₂ - y₁) / (x₂ - x₁)).toZMod =
      E.weierstrass.slope x₁.toZMod x₂.toZMod y₁.toZMod y₂.toZMod := by
  rw [WeierstrassCurve.Affine.slope_of_X_ne (mt Residue.toZMod_inj.mp hx),
    Residue.toZMod_div (.inr hp), Residue.toZMod_sub, Residue.toZMod_sub, ← neg_div_neg_eq, neg_sub,
    neg_sub]

theorem toZMod_tangent (hp : E.prime ≠ 2) {y : Residue E.prime} (hy : y.value ≠ 0)
    (x : Residue E.prime) :
    (((x * x).scale 3 + E.a) / y.scale 2).toZMod =
      E.weierstrass.slope x.toZMod x.toZMod y.toZMod y.toZMod := by
  have hne : y.toZMod ≠ 0 := mt Residue.toZMod_eq_zero_iff.mp hy
  have hslope := slope_tangent hp hne x.toZMod
  rw [Residue.toZMod_div (.inr hp), Residue.toZMod_add, Residue.toZMod_scale, Residue.toZMod_mul,
    Residue.toZMod_scale]
  push_cast
  rw [div_eq_iff (mul_ne_zero hne (two_ne_zero_of_odd hp))]
  linear_combination -hslope

end Curve

namespace Point

variable {E : Curve} [Fact E.prime.Prime]

def ofAffine : E.weierstrass.Point → Point E
  | .zero => infinity
  | .some x y _ => affine (.ofZMod x) (.ofZMod y)

@[simp]
theorem ofAffine_zero : ofAffine (0 : E.weierstrass.Point) = infinity :=
  rfl

theorem ofAffine_injective : Function.Injective (ofAffine : E.weierstrass.Point → Point E) := by
  intro P Q h
  cases P <;> cases Q
  · rfl
  · cases h
  · cases h
  · simp only [ofAffine, affine.injEq, Residue.ofZMod_eq_iff, Residue.toZMod_ofZMod] at h
    obtain ⟨rfl, rfl⟩ := h
    rfl

theorem ofAffine_eq_affine_iff {P : E.weierstrass.Point} {x y : Residue E.prime} :
    ofAffine P = affine x y ↔ ∃ h, P = .some x.toZMod y.toZMod h := by
  constructor
  · intro hP
    cases P with
    | zero => cases hP
    | some u v h =>
        simp only [ofAffine, affine.injEq, Residue.ofZMod_eq_iff] at hP
        obtain ⟨rfl, rfl⟩ := hP
        exact ⟨h, rfl⟩
  · rintro ⟨h, rfl⟩
    simp [ofAffine]

theorem onCurve_ofAffine (hp : E.prime ≠ 2) (P : E.weierstrass.Point) : (ofAffine P).OnCurve := by
  cases P with
  | zero => trivial
  | some x y h =>
      apply (Curve.equation_toZMod_iff hp).mp
      simpa using h.1

-- On a curve without singular points there are no points but these.
theorem exists_ofAffine_eq (hE : E.Elliptic) {P : Point E} (hP : P.OnCurve) :
    ∃ Q, ofAffine Q = P := by
  cases P with
  | infinity => exact ⟨0, rfl⟩
  | affine x y =>
      have he := (Curve.equation_toZMod_iff hE.prime_ne_two).mpr hP
      have hn := (E.weierstrass.equation_iff_nonsingular_of_Δ_ne_zero hE.discriminant_ne_zero).mp he
      exact ⟨.some _ _ hn, ofAffine_eq_affine_iff.mpr ⟨hn, rfl⟩⟩

theorem ofAffine_neg (P : E.weierstrass.Point) : ofAffine (-P) = -ofAffine P := by
  cases P with
  | zero => rfl
  | some x y h =>
      change affine (.ofZMod x) (.ofZMod (E.weierstrass.negY x y)) =
        affine (.ofZMod x) (-.ofZMod y)
      rw [Curve.negY_weierstrass]
      congr 1
      rw [Residue.ofZMod_eq_iff, Residue.toZMod_neg, Residue.toZMod_ofZMod]

theorem reflectThird_ofZMod {slope : Residue E.prime} {s : ZMod E.prime}
    (hs : slope.toZMod = s) (x₁ y₁ x₂ : ZMod E.prime) :
    reflectThird slope (.ofZMod x₁) (.ofZMod y₁) (.ofZMod x₂) =
      affine (.ofZMod (E.weierstrass.addX x₁ x₂ s)) (.ofZMod (E.weierstrass.addY x₁ x₂ y₁ s)) := by
  subst hs
  simp only [reflectThird, affine.injEq]
  constructor
  · rw [eq_comm, Residue.ofZMod_eq_iff, Curve.addX_weierstrass]
    simp only [Residue.toZMod_sub, Residue.toZMod_mul, Residue.toZMod_ofZMod]
  · rw [eq_comm, Residue.ofZMod_eq_iff, Curve.addY_weierstrass]
    simp only [Residue.toZMod_sub, Residue.toZMod_mul, Residue.toZMod_ofZMod]

-- A point without ordinate is its own inverse.
theorem vertical_iff (hp : E.prime ≠ 2) {x y₁ y₂ : ZMod E.prime}
    (h₁ : E.weierstrass.Equation x y₁) (h₂ : E.weierstrass.Equation x y₂) :
    (y₁ ≠ y₂ ∨ y₁ = 0) ↔ y₁ = E.weierstrass.negY x y₂ := by
  have hy := WeierstrassCurve.Affine.Y_eq_of_X_eq h₁ h₂ rfl
  rw [Curve.negY_weierstrass] at hy ⊢
  constructor
  · rintro (hne | rfl)
    · exact hy.resolve_left hne
    · rcases hy with rfl | h
      · exact neg_zero.symm
      · exact h
  · intro h
    by_contra! hn
    have h2 : (2 : ZMod E.prime) * y₁ = 0 := by linear_combination h + hn.1
    exact hn.2 ((mul_eq_zero.mp h2).resolve_left (Curve.two_ne_zero_of_odd hp))

theorem ofAffine_add (hp : E.prime ≠ 2) (P Q : E.weierstrass.Point) :
    ofAffine (P + Q) = ofAffine P + ofAffine Q := by
  cases P with
  | zero => exact congrArg ofAffine (zero_add Q)
  | some x₁ y₁ h₁ =>
      cases Q with
      | zero => exact congrArg ofAffine (add_zero _)
      | some x₂ y₂ h₂ =>
          have hinj : ∀ u v : ZMod E.prime, Residue.ofZMod u = Residue.ofZMod v ↔ u = v :=
            fun u v => by rw [Residue.ofZMod_eq_iff, Residue.toZMod_ofZMod]
          have hzero : (Residue.ofZMod y₁).value = 0 ↔ y₁ = 0 := by
            rw [← Residue.toZMod_eq_zero_iff, Residue.toZMod_ofZMod]
          change _ = Point.add (affine (.ofZMod x₁) (.ofZMod y₁)) (affine (.ofZMod x₂) (.ofZMod y₂))
          simp only [Point.add, ne_eq, hinj, hzero]
          by_cases hx : x₁ = x₂
          · subst x₂
            rw [if_pos rfl]
            by_cases hy : y₁ = E.weierstrass.negY x₁ y₂
            · rw [if_pos ((vertical_iff hp h₁.1 h₂.1).mpr hy),
                WeierstrassCurve.Affine.Point.add_of_Y_eq rfl hy, ofAffine_zero]
            · have hv := mt (vertical_iff hp h₁.1 h₂.1).mp hy
              obtain ⟨hsame, hne⟩ := not_or.mp hv
              obtain rfl : y₁ = y₂ := not_not.mp hsame
              have hslope := Curve.toZMod_tangent hp (mt hzero.mp hne) (Residue.ofZMod x₁)
              simp only [Residue.toZMod_ofZMod] at hslope
              rw [if_neg hv, WeierstrassCurve.Affine.Point.add_of_Y_ne hy]
              exact (reflectThird_ofZMod hslope x₁ y₁ x₁).symm
          · have hslope := Curve.toZMod_chord hp (mt (hinj x₁ x₂).mp hx) (.ofZMod y₁) (.ofZMod y₂)
            simp only [Residue.toZMod_ofZMod] at hslope
            rw [if_neg hx, WeierstrassCurve.Affine.Point.add_of_X_ne hx]
            exact (reflectThird_ofZMod hslope x₁ y₁ x₂).symm

theorem accumulate_ofAffine (hp : E.prime ≠ 2) (k : Nat) (P Q : E.weierstrass.Point) :
    accumulate (ofAffine P) (ofAffine Q) k = ofAffine (P + k • Q) := by
  induction k using Nat.strong_induction_on generalizing P Q with
  | h k ih =>
      rw [accumulate]
      split_ifs with hzero hodd
      · rw [hzero, zero_nsmul, add_zero]
      · -- The odd bit adds the addend once, and what is left of `k` adds its double.
        have hk : k = 2 * (k / 2) + 1 := by omega
        rw [← ofAffine_add hp, ← ofAffine_add hp, ih (k / 2) (by omega)]
        conv_rhs => rw [hk]
        rw [← two_nsmul, ← mul_nsmul', add_nsmul, one_nsmul, mul_comm]
        abel_nf
      · have hk : k = 2 * (k / 2) := by omega
        rw [← ofAffine_add hp, ih (k / 2) (by omega)]
        conv_rhs => rw [hk]
        rw [← two_nsmul, ← mul_nsmul', mul_comm]

theorem signed_ofAffine (k : Int) (P : E.weierstrass.Point) :
    (if k < 0 then -ofAffine P else ofAffine P) = ofAffine (if k < 0 then -P else P) := by
  rw [← ofAffine_neg, apply_ite ofAffine]

theorem natAbs_nsmul_signed (k : Int) (P : E.weierstrass.Point) :
    k.natAbs • (if k < 0 then -P else P) = k • P := by
  split_ifs with hneg
  · have hk : k = -(k.natAbs : Int) := by omega
    conv_rhs => rw [hk]
    rw [neg_zsmul, natCast_zsmul, neg_nsmul]
  · have hk : k = (k.natAbs : Int) := by omega
    conv_rhs => rw [hk]
    rw [natCast_zsmul]

theorem mul_ofAffine (hp : E.prime ≠ 2) (k : Int) (P : E.weierstrass.Point) :
    mul k (ofAffine P) = ofAffine (k • P) := by
  rw [mul, signed_ofAffine, ← ofAffine_zero, accumulate_ofAffine hp, zero_add, natAbs_nsmul_signed]

end Point

end BitcoinSpend
