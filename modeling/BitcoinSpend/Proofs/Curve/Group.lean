import BitcoinSpend.Proofs.Curve.GroupLaw
import Mathlib.Tactic.NormNum.Prime

namespace BitcoinSpend

namespace Curve

variable {E : Curve}

-- Infinity, and each point whose coordinates pass the check.
inductive Accepts (E : Curve) : CurvePoint → Prop
  | infinity : E.Accepts ⟨E, .infinity⟩
  | affine {x y : FieldElement} {P : Point E} (h : E.point x y = .ok P) : E.Accepts ⟨E, P⟩

theorem onCurve_of_point_eq_ok {x y : FieldElement} {P : Point E} (h : E.point x y = .ok P) :
    P.OnCurve := by
  rw [point] at h
  split at h
  next =>
    split_ifs at h with hsatisfies
    cases h
    exact hsatisfies
  next => cases h

theorem residue?_mk (hprime : 2 ≤ E.prime) (x : Residue E.prime) :
    E.residue? ⟨E.prime, hprime, x⟩ = some x :=
  dif_pos rfl

theorem point_eq_ok {x y : Residue E.prime} (hprime : 2 ≤ E.prime) (h : E.Satisfies x y) :
    E.point ⟨E.prime, hprime, x⟩ ⟨E.prime, hprime, y⟩ = .ok (.affine x y) := by
  simp only [point, residue?_mk, h, if_true]

theorem accepts_iff (hprime : 2 ≤ E.prime) {P : CurvePoint} :
    E.Accepts P ↔ ∃ Q : Point E, Q.OnCurve ∧ P = ⟨E, Q⟩ := by
  constructor
  · rintro (_ | h)
    · exact ⟨.infinity, trivial, rfl⟩
    · exact ⟨_, onCurve_of_point_eq_ok h, rfl⟩
  · rintro ⟨Q, hQ, rfl⟩
    cases Q with
    | infinity => exact .infinity
    | affine x y => exact .affine (point_eq_ok hprime hQ)

end Curve

namespace CurvePoint

variable {E : Curve}

theorem add_mk (P Q : Point E) : add ⟨E, P⟩ ⟨E, Q⟩ = .ok ⟨E, P + Q⟩ := by
  have honto : onto E ⟨E, Q⟩ = .ok Q := dif_pos rfl
  rw [add, honto]
  rfl

variable [Fact E.prime.Prime]

def ofAffine (P : E.weierstrass.Point) : CurvePoint :=
  ⟨E, Point.ofAffine P⟩

theorem ofAffine_zero : ofAffine (0 : E.weierstrass.Point) = ⟨E, .infinity⟩ :=
  rfl

theorem ofAffine_add (hp : E.prime ≠ 2) (P Q : E.weierstrass.Point) :
    (ofAffine P).add (ofAffine Q) = .ok (ofAffine (P + Q)) := by
  rw [ofAffine, ofAffine, add_mk, ← Point.ofAffine_add hp]
  rfl

theorem ofAffine_neg (P : E.weierstrass.Point) : (ofAffine P).neg = ofAffine (-P) := by
  rw [ofAffine, ofAffine, Point.ofAffine_neg]
  rfl

theorem accepts_iff_exists_ofAffine (hE : E.Elliptic) {P : CurvePoint} :
    E.Accepts P ↔ ∃ Q : E.weierstrass.Point, ofAffine Q = P := by
  rw [Curve.accepts_iff hE.prime.two_le]
  constructor
  · rintro ⟨Q, hQ, rfl⟩
    obtain ⟨R, rfl⟩ := Point.exists_ofAffine_eq hE hQ
    exact ⟨R, rfl⟩
  · rintro ⟨Q, rfl⟩
    exact ⟨_, Point.onCurve_ofAffine hE.prime_ne_two Q, rfl⟩

end CurvePoint

namespace Curve

-- The sum of two points can fail, so the laws say also that it does not.
structure AbelianGroup (E : Curve) : Prop where
  add_accepted : ∀ P Q, E.Accepts P → E.Accepts Q → ∃ S, P.add Q = .ok S ∧ E.Accepts S
  neg_accepted : ∀ P, E.Accepts P → E.Accepts P.neg
  add_comm : ∀ P Q, E.Accepts P → E.Accepts Q → P.add Q = Q.add P
  add_assoc : ∀ P Q S, E.Accepts P → E.Accepts Q → E.Accepts S →
    (do (← P.add Q).add S) = do P.add (← Q.add S)
  infinity_add : ∀ P, E.Accepts P → CurvePoint.add ⟨E, .infinity⟩ P = .ok P
  add_infinity : ∀ P, E.Accepts P → P.add ⟨E, .infinity⟩ = .ok P
  add_neg : ∀ P, E.Accepts P → P.add P.neg = .ok ⟨E, .infinity⟩

-- What passes the check of its coordinates is a group with chord and tangent.
theorem Elliptic.abelianGroup {E : Curve} (hE : E.Elliptic) : E.AbelianGroup := by
  have : Fact E.prime.Prime := ⟨hE.prime⟩
  have hmem := fun P => CurvePoint.accepts_iff_exists_ofAffine hE (P := P)
  have hadd := CurvePoint.ofAffine_add hE.prime_ne_two
  constructor
  case add_accepted =>
    intro P Q hP hQ
    obtain ⟨P, rfl⟩ := (hmem _).mp hP
    obtain ⟨Q, rfl⟩ := (hmem _).mp hQ
    exact ⟨_, hadd P Q, (hmem _).mpr ⟨P + Q, rfl⟩⟩
  case neg_accepted =>
    intro P hP
    obtain ⟨P, rfl⟩ := (hmem _).mp hP
    rw [CurvePoint.ofAffine_neg]
    exact (hmem _).mpr ⟨-P, rfl⟩
  case add_comm =>
    intro P Q hP hQ
    obtain ⟨P, rfl⟩ := (hmem _).mp hP
    obtain ⟨Q, rfl⟩ := (hmem _).mp hQ
    rw [hadd, hadd, add_comm]
  case add_assoc =>
    intro P Q S hP hQ hS
    obtain ⟨P, rfl⟩ := (hmem _).mp hP
    obtain ⟨Q, rfl⟩ := (hmem _).mp hQ
    obtain ⟨S, rfl⟩ := (hmem _).mp hS
    rw [hadd, hadd]
    change (CurvePoint.ofAffine (P + Q)).add _ = (CurvePoint.ofAffine P).add (.ofAffine (Q + S))
    rw [hadd, hadd, add_assoc]
  case infinity_add =>
    intro P hP
    obtain ⟨P, rfl⟩ := (hmem _).mp hP
    rw [← CurvePoint.ofAffine_zero, hadd, zero_add]
  case add_infinity =>
    intro P hP
    obtain ⟨P, rfl⟩ := (hmem _).mp hP
    rw [← CurvePoint.ofAffine_zero, hadd, add_zero]
  case add_neg =>
    intro P hP
    obtain ⟨P, rfl⟩ := (hmem _).mp hP
    rw [CurvePoint.ofAffine_neg, hadd, add_neg_cancel, CurvePoint.ofAffine_zero]

-- `y ^ 2 = x ^ 3 + 7` modulo 223.
def small : Curve where
  prime := 223
  a := ⟨0, by decide⟩
  b := ⟨7, by decide⟩

theorem elliptic_small : small.Elliptic :=
  ⟨by norm_num [small], by decide, by decide⟩

theorem Elliptic.abelianGroup_small : small.Elliptic ∧ small.AbelianGroup :=
  ⟨elliptic_small, elliptic_small.abelianGroup⟩

end Curve

end BitcoinSpend
