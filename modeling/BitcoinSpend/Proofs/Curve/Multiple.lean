import BitcoinSpend.Proofs.Curve.Group

namespace BitcoinSpend

namespace Point

variable {E : Curve}

-- A multiple by adding one copy to the next. A negative one adds the inverse.
def repeated (k : Int) (P : Point E) : Point E :=
  (List.replicate k.natAbs (if k < 0 then -P else P)).foldl (· + ·) infinity

theorem foldl_add_ofAffine [Fact E.prime.Prime] (hp : E.prime ≠ 2) (n : Nat)
    (P Q : E.weierstrass.Point) :
    (List.replicate n (ofAffine Q)).foldl (· + ·) (ofAffine P) = ofAffine (P + n • Q) := by
  induction n generalizing P with
  | zero => rw [zero_nsmul, add_zero, List.replicate_zero, List.foldl_nil]
  | succ n ih =>
      rw [List.replicate_succ, List.foldl_cons, ← ofAffine_add hp, ih, succ_nsmul', add_assoc]

theorem repeated_ofAffine [Fact E.prime.Prime] (hp : E.prime ≠ 2) (k : Int)
    (P : E.weierstrass.Point) : repeated k (ofAffine P) = ofAffine (k • P) := by
  rw [repeated, signed_ofAffine, ← ofAffine_zero, foldl_add_ofAffine hp, zero_add,
    natAbs_nsmul_signed]

end Point

namespace CurvePoint

variable {E : Curve}

-- The same with sums that can fail.
def repeated (k : Int) (P : CurvePoint) : Except Error CurvePoint :=
  (List.replicate k.natAbs (if k < 0 then P.neg else P)).foldlM add ⟨P.curve, .infinity⟩

theorem foldlM_add_mk (points : List (Point E)) (total : Point E) :
    (points.map (mk E)).foldlM add ⟨E, total⟩ = .ok ⟨E, points.foldl (· + ·) total⟩ := by
  induction points generalizing total with
  | nil => rfl
  | cons P points ih =>
      rw [List.map_cons, List.foldlM_cons, add_mk]
      exact ih (total + P)

theorem repeated_mk (k : Int) (P : Point E) : repeated k ⟨E, P⟩ = .ok ⟨E, P.repeated k⟩ := by
  have hcopy : (if k < 0 then neg ⟨E, P⟩ else ⟨E, P⟩) = mk E (if k < 0 then -P else P) :=
    (apply_ite (mk E) _ _ _).symm
  rw [repeated, hcopy, ← List.map_replicate, foldlM_add_mk]
  rfl

variable [Fact E.prime.Prime]

theorem mul_ofAffine (hp : E.prime ≠ 2) (k : Int) (P : E.weierstrass.Point) :
    (ofAffine P).mul k = ofAffine (k • P) :=
  congrArg (mk E) (Point.mul_ofAffine hp k P)

-- The walk over the bits comes to the same point as the sum of all copies.
theorem repeated_eq_mul {E : Curve} (hE : E.Elliptic) {P : CurvePoint} (hP : E.Accepts P) :
    (∀ k, P.repeated k = .ok (P.mul k)) ∧
      (∀ j k, (P.mul j).add (P.mul k) = .ok (P.mul (j + k))) ∧
      ∀ j k, (P.mul k).mul j = P.mul (j * k) := by
  have : Fact E.prime.Prime := ⟨hE.prime⟩
  have hmul := fun k P => mul_ofAffine hE.prime_ne_two k P
  obtain ⟨P, rfl⟩ := (accepts_iff_exists_ofAffine hE).mp hP
  refine ⟨?_, ?_, ?_⟩
  · intro k
    rw [hmul, ofAffine, repeated_mk, Point.repeated_ofAffine hE.prime_ne_two]
    rfl
  · intro j k
    rw [hmul, hmul, hmul, ofAffine_add hE.prime_ne_two, add_zsmul]
  · intro j k
    rw [hmul, hmul, hmul, mul_smul]

def smallPoint : CurvePoint :=
  ⟨.small, .affine ⟨47, by decide⟩ ⟨71, by decide⟩⟩

theorem accepts_smallPoint : Curve.small.Accepts smallPoint :=
  .affine (Curve.point_eq_ok (by decide) (by decide +kernel))

theorem repeated_eq_mul_small :
    Curve.small.Elliptic ∧ Curve.small.Accepts smallPoint ∧
      smallPoint.repeated (-22) = .ok (smallPoint.mul (-22)) ∧
      (smallPoint.mul 25).add (smallPoint.mul (-4)) = .ok (smallPoint.mul 21) ∧
      (smallPoint.mul 7).mul (-3) = smallPoint.mul (-21) := by
  obtain ⟨hrepeated, hadd, hmul⟩ := repeated_eq_mul Curve.elliptic_small accepts_smallPoint
  exact ⟨Curve.elliptic_small, accepts_smallPoint, hrepeated _, hadd _ _, hmul _ _⟩

end CurvePoint

end BitcoinSpend
