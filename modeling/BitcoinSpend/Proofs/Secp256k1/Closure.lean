import BitcoinSpend.Proofs.Curve.Closure
import BitcoinSpend.Proofs.Secp256k1.Canonical

namespace BitcoinSpend

namespace Secp256k1

-- A point that comes from coordinates, the generator, a point of a curve known at run time or
-- bytes, by any operations.
inductive Obtainable : Point → Prop
  | infinity : Obtainable .infinity
  | generator : Obtainable generator
  | point {x y : Int} {P : Point} (h : point x y = .ok P) : Obtainable P
  | onto {P : CurvePoint} {Q : Point} (hP : P.curve.Reachable P) (h : P.onto curve = .ok Q) :
      Obtainable Q
  | ofSec {bytes : Bytes} {P : Point} (h : ofSec bytes = .ok P) : Obtainable P
  | add {P Q : Point} (hP : Obtainable P) (hQ : Obtainable Q) : Obtainable (P + Q)
  | mul {P : Point} (k : Int) (hP : Obtainable P) : Obtainable (mul k P)

theorem onCurve_of_point {x y : Int} {P : Point} (h : point x y = .ok P) : P.OnCurve := by
  obtain ⟨_, -, h⟩ := bind_eq_ok_iff.mp h
  obtain ⟨_, -, h⟩ := bind_eq_ok_iff.mp h
  exact Curve.onCurve_of_point_eq_ok h

theorem onCurve_of_ofSec {bytes : Bytes} {P : Point} (h : ofSec bytes = .ok P) : P.OnCurve := by
  obtain ⟨x, y, rfl, hcurve, -⟩ := eq_sec_of_ofSec h
  exact hcurve

theorem onCurve_of_onto {P : CurvePoint} {Q : Point} (hP : P.curve.Reachable P)
    (h : P.onto curve = .ok Q) : Q.OnCurve := by
  rw [CurvePoint.onto] at h
  split_ifs at h with hsame
  rw [hsame] at hP
  obtain ⟨Q', rfl, hcurve⟩ := hP.exists_onCurve prime_prime prime_ne_two
  cases h
  exact hcurve

theorem Obtainable.onCurve {P : Point} (h : Obtainable P) : P.OnCurve := by
  induction h with
  | infinity => trivial
  | generator => exact onCurve_generator
  | point h => exact onCurve_of_point h
  | onto hP h => exact onCurve_of_onto hP h
  | ofSec h => exact onCurve_of_ofSec h
  | add _ _ ihP ihQ => exact BitcoinSpend.Point.onCurve_add prime_ne_two ihP ihQ
  | mul k _ ih => exact BitcoinSpend.Point.onCurve_mul prime_ne_two _ ih

theorem obtainable_iff {P : Point} : Obtainable P ↔ curve.Lies P := by
  rw [Curve.lies_iff prime_ne_two]
  constructor
  · exact Obtainable.onCurve
  · intro hP
    cases P with
    | infinity => exact .infinity
    | affine x y => exact .point (point_value hP)

end Secp256k1

namespace Curve

-- The points that are got without a check are those that pass it.
theorem reachable_iff_lies :
    (∀ E : Curve, E.prime.Prime → E.prime ≠ 2 → ∀ P : CurvePoint,
      E.Reachable P ↔ ∃ Q : Point E, P = ⟨E, Q⟩ ∧ E.Lies Q) ∧
    ∀ P : Secp256k1.Point, Secp256k1.Obtainable P ↔ Secp256k1.curve.Lies P :=
  ⟨fun _ hprime hp _ => reachable_iff hprime hp, fun _ => Secp256k1.obtainable_iff⟩

-- `y ^ 2 = x ^ 3` modulo 3, which is singular at the origin.
def cusp : Curve where
  prime := 3
  a := ⟨0, by decide⟩
  b := ⟨0, by decide⟩

theorem reachable_iff_lies_cusp :
    cusp.prime.Prime ∧ cusp.prime ≠ 2 ∧ ∃ P : CurvePoint, cusp.Reachable P ∧
      cusp.Reachable (P.mul (-2)) ∧ ∃ Q : Point cusp, P.mul (-2) = ⟨cusp, Q⟩ ∧ cusp.Lies Q := by
  let P : CurvePoint := ⟨cusp, .affine ⟨1, by decide⟩ ⟨1, by decide⟩⟩
  have hprime : cusp.prime.Prime := Nat.prime_three
  have hP : cusp.Reachable P := .point (point_eq_ok (by decide) (by decide +kernel))
  have hmul : cusp.Reachable (P.mul (-2)) := hP.mul (-2)
  exact ⟨hprime, by decide, P, hP, hmul,
    (reachable_iff_lies.1 cusp hprime (by decide) _).mp hmul⟩

end Curve

end BitcoinSpend
