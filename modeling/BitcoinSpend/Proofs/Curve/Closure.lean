import BitcoinSpend.Proofs.Curve.Group

namespace BitcoinSpend

namespace Point

variable {E : Curve}

theorem onCurve_neg {P : Point E} (hP : P.OnCurve) : (-P).OnCurve := by
  cases P with
  | infinity => trivial
  | affine x y => exact Curve.satisfies_neg hP

variable [Fact E.prime.Prime]

-- The line through two points of the curve meets it in a third one, and the equation
-- does not tell a point from its reflection.
theorem onCurve_reflectThird (hp : E.prime ≠ 2) {x₁ y₁ x₂ y₂ slope : Residue E.prime}
    (h₁ : E.Satisfies x₁ y₁) (h₂ : E.Satisfies x₂ y₂)
    (hvertical : ¬ (x₁.toZMod = x₂.toZMod ∧ y₁.toZMod = E.weierstrass.negY x₂.toZMod y₂.toZMod))
    (hslope : slope.toZMod = E.weierstrass.slope x₁.toZMod x₂.toZMod y₁.toZMod y₂.toZMod) :
    (reflectThird slope x₁ y₁ x₂).OnCurve := by
  have hthird := reflectThird_ofZMod hslope x₁.toZMod y₁.toZMod x₂.toZMod
  simp only [Residue.ofZMod_toZMod] at hthird
  rw [hthird]
  apply (Curve.equation_toZMod_iff hp).mp
  simp only [Residue.toZMod_ofZMod]
  exact WeierstrassCurve.Affine.equation_add ((Curve.equation_toZMod_iff hp).mpr h₁)
    ((Curve.equation_toZMod_iff hp).mpr h₂) hvertical

-- No discriminant is needed: the curve may have a singular point.
theorem onCurve_add (hp : E.prime ≠ 2) {P Q : Point E} (hP : P.OnCurve) (hQ : Q.OnCurve) :
    (P + Q).OnCurve := by
  cases P with
  | infinity => exact hQ
  | affine x₁ y₁ =>
      cases Q with
      | infinity => exact hP
      | affine x₂ y₂ =>
          change (Point.add (affine x₁ y₁) (affine x₂ y₂)).OnCurve
          rw [Point.add]
          split_ifs with hx hvertical
          · trivial
          · obtain ⟨hy, hzero⟩ := not_or.mp hvertical
            have hy : y₁ = y₂ := not_not.mp hy
            subst hx hy
            have hne : y₁.toZMod ≠ 0 := mt Residue.toZMod_eq_zero_iff.mp hzero
            exact onCurve_reflectThird hp hP hQ (fun h => Curve.ne_negY_self hp hne _ h.2)
              (Curve.toZMod_tangent hp hzero x₁)
          · exact onCurve_reflectThird hp hP hQ (fun h => hx (Residue.toZMod_inj.mp h.1))
              (Curve.toZMod_chord hp hx y₁ y₂)

theorem onCurve_accumulate (hp : E.prime ≠ 2) {total addend : Point E} {k : Nat}
    (htotal : total.OnCurve) (haddend : addend.OnCurve) : (accumulate total addend k).OnCurve := by
  induction k using Nat.strong_induction_on generalizing total addend with
  | h k ih =>
      rw [accumulate]
      have hdouble := onCurve_add hp haddend haddend
      split_ifs with hzero hodd
      · exact htotal
      · exact ih (k / 2) (by omega) (onCurve_add hp htotal haddend) hdouble
      · exact ih (k / 2) (by omega) htotal hdouble

theorem onCurve_mul (hp : E.prime ≠ 2) (k : Int) {P : Point E} (hP : P.OnCurve) :
    (mul k P).OnCurve := by
  have hinfinity : (infinity : Point E).OnCurve := trivial
  have hsigned : (if k < 0 then -P else P).OnCurve := by
    split_ifs
    · exact onCurve_neg hP
    · exact hP
  exact onCurve_accumulate hp hinfinity hsigned

end Point

namespace Curve

variable {E : Curve}

-- Infinity, or coordinates in range that the equation holds of.
def Lies (E : Curve) : Point E → Prop
  | .infinity => True
  | .affine x y => (x.value < E.prime ∧ y.value < E.prime) ∧
      y.value ^ 2 ≡ x.value ^ 3 + E.a.value * x.value + E.b.value [MOD E.prime]

theorem lies_iff [Fact E.prime.Prime] (hp : E.prime ≠ 2) {P : Point E} :
    E.Lies P ↔ P.OnCurve := by
  cases P with
  | infinity => rfl
  | affine x y =>
      rw [Lies, and_iff_right ⟨x.value_lt, y.value_lt⟩, ← satisfies_iff_modEq hp]
      rfl

-- A point that comes from checked coordinates and from infinity by any operations.
inductive Reachable (E : Curve) : CurvePoint → Prop
  | infinity : E.Reachable ⟨E, .infinity⟩
  | point {x y : FieldElement} {P : Point E} (h : E.point x y = .ok P) : E.Reachable ⟨E, P⟩
  | neg {P : CurvePoint} (hP : E.Reachable P) : E.Reachable P.neg
  | add {P Q S : CurvePoint} (hP : E.Reachable P) (hQ : E.Reachable Q) (h : P.add Q = .ok S) :
      E.Reachable S
  | mul {P : CurvePoint} (k : Int) (hP : E.Reachable P) : E.Reachable (P.mul k)

theorem Reachable.exists_onCurve (hprime : E.prime.Prime) (hp : E.prime ≠ 2) {P : CurvePoint}
    (h : E.Reachable P) : ∃ Q : Point E, P = ⟨E, Q⟩ ∧ Q.OnCurve := by
  have : Fact E.prime.Prime := ⟨hprime⟩
  induction h with
  | infinity => exact ⟨.infinity, rfl, trivial⟩
  | point h => exact ⟨_, rfl, onCurve_of_point_eq_ok h⟩
  | neg _ ih =>
      obtain ⟨Q, rfl, hQ⟩ := ih
      exact ⟨-Q, rfl, Point.onCurve_neg hQ⟩
  | add _ _ h ihP ihQ =>
      obtain ⟨P, rfl, hP⟩ := ihP
      obtain ⟨Q, rfl, hQ⟩ := ihQ
      rw [CurvePoint.add_mk] at h
      cases h
      exact ⟨P + Q, rfl, Point.onCurve_add hp hP hQ⟩
  | mul k _ ih =>
      obtain ⟨Q, rfl, hQ⟩ := ih
      exact ⟨Q.mul k, rfl, Point.onCurve_mul hp k hQ⟩

theorem reachable_of_onCurve (hprime : 2 ≤ E.prime) {P : Point E} (hP : P.OnCurve) :
    E.Reachable ⟨E, P⟩ := by
  cases P with
  | infinity => exact .infinity
  | affine x y => exact .point (point_eq_ok hprime hP)

theorem reachable_iff (hprime : E.prime.Prime) (hp : E.prime ≠ 2) {P : CurvePoint} :
    E.Reachable P ↔ ∃ Q : Point E, P = ⟨E, Q⟩ ∧ E.Lies Q := by
  have : Fact E.prime.Prime := ⟨hprime⟩
  simp only [lies_iff hp]
  constructor
  · exact Reachable.exists_onCurve hprime hp
  · rintro ⟨Q, rfl, hQ⟩
    exact reachable_of_onCurve hprime.two_le hQ

end Curve

end BitcoinSpend
