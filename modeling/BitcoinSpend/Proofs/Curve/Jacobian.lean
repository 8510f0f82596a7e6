import BitcoinSpend.Proofs.Curve.GroupLaw

namespace BitcoinSpend

-- A point by coordinates that are still to be divided: `x` by the square and
-- `y` by the cube of `z`. Multiples found this way take no division.
structure Jacobian (E : Curve) where
  x : Residue E.prime
  y : Residue E.prime
  z : Residue E.prime

namespace Jacobian

variable {E : Curve}

def ofCoordinates (x y : Residue E.prime) : Jacobian E :=
  ⟨x, y, ⟨1 % E.prime, Nat.mod_lt _ x.modulus_pos⟩⟩

def double (T : Jacobian E) : Jacobian E :=
  let square := T.y * T.y
  let depth := T.z * T.z
  let slope := (T.x * T.x).scale 3 + E.a * (depth * depth)
  let cross := (T.x * square).scale 4
  let x := slope * slope - cross.scale 2
  ⟨x, slope * (cross - x) - (square * square).scale 8, (T.y * T.z).scale 2⟩

def addAffine (T : Jacobian E) (x y : Residue E.prime) : Jacobian E :=
  let depth := T.z * T.z
  let run := x * depth - T.x
  let rise := y * (depth * T.z) - T.y
  let square := run * run
  let cross := T.x * square
  let x' := rise * rise - square * run - cross.scale 2
  ⟨x', rise * (cross - x') - T.y * (square * run), T.z * run⟩

-- The recursion is on a bound for the number of bits of `k` after the first.
def multiple (x y : Residue E.prime) : (steps k : Nat) → Jacobian E
  | 0, _ => ofCoordinates x y
  | steps + 1, k =>
      if k ≤ 1 then ofCoordinates x y
      else
        let doubled := (multiple x y steps (k / 2)).double
        if k % 2 = 0 then doubled else doubled.addAffine x y

variable [Fact E.prime.Prime]

-- The formulas leave out the cases in which a line is vertical. There `z`
-- becomes zero and stays so, and nothing is said.
def Represents (T : Jacobian E) (P : E.weierstrass.Point) : Prop :=
  T.z.toZMod ≠ 0 → ∃ x y h, P = .some x y h ∧
    T.x.toZMod = x * T.z.toZMod ^ 2 ∧ T.y.toZMod = y * T.z.toZMod ^ 3

theorem represents_ofCoordinates {x y : Residue E.prime} {P : E.weierstrass.Point}
    (hP : Point.ofAffine P = .affine x y) : (ofCoordinates x y).Represents P := by
  intro _
  have hz : (ofCoordinates x y).z.toZMod = 1 := by
    change ((1 % E.prime : Nat) : ZMod E.prime) = 1
    rw [ZMod.natCast_mod, Nat.cast_one]
  obtain ⟨h, rfl⟩ := Point.ofAffine_eq_affine_iff.mp hP
  refine ⟨_, _, h, rfl, ?_, ?_⟩
  · rw [hz, one_pow, mul_one]
    rfl
  · rw [hz, one_pow, mul_one]
    rfl

theorem Represents.double (hp : E.prime ≠ 2) {T : Jacobian E} {P : E.weierstrass.Point}
    (h : T.Represents P) : T.double.Represents (P + P) := by
  intro hz
  simp only [Jacobian.double, Residue.toZMod_scale, Residue.toZMod_mul, Nat.cast_ofNat] at hz
  have hTz : T.z.toZMod ≠ 0 := by
    intro h0
    exact hz (by rw [h0]; ring)
  obtain ⟨x, y, hxy, rfl, hTx, hTy⟩ := h hTz
  have hy : y ≠ 0 := by
    rintro rfl
    exact hz (by rw [hTy]; ring)
  have hne := Curve.ne_negY_self hp hy x
  have ha : E.a.toZMod = E.weierstrass.slope x x y y * (2 * y) - 3 * x ^ 2 := by
    linear_combination -Curve.slope_tangent hp hy x
  refine ⟨_, _, _, WeierstrassCurve.Affine.Point.add_of_Y_ne hne, ?_, ?_⟩
  · rw [Curve.addX_weierstrass]
    simp only [Jacobian.double, Residue.toZMod_add, Residue.toZMod_sub, Residue.toZMod_mul,
      Residue.toZMod_scale, hTx, hTy, ha, Nat.cast_ofNat]
    ring
  · rw [Curve.addY_weierstrass]
    simp only [Jacobian.double, Residue.toZMod_add, Residue.toZMod_sub, Residue.toZMod_mul,
      Residue.toZMod_scale, hTx, hTy, ha, Nat.cast_ofNat]
    ring

theorem Represents.addAffine {T : Jacobian E} {P Q : E.weierstrass.Point} (h : T.Represents P)
    {u v : Residue E.prime} (hQ : Point.ofAffine Q = .affine u v) :
    (T.addAffine u v).Represents (P + Q) := by
  intro hz
  simp only [Jacobian.addAffine, Residue.toZMod_mul, Residue.toZMod_sub] at hz
  have hTz : T.z.toZMod ≠ 0 := by
    intro h0
    exact hz (by rw [h0, zero_mul])
  obtain ⟨x, y, hxy, rfl, hTx, hTy⟩ := h hTz
  obtain ⟨huv, rfl⟩ := Point.ofAffine_eq_affine_iff.mp hQ
  have hne : x ≠ u.toZMod := by
    intro he
    exact hz (by rw [hTx, he]; ring)
  have hy : v.toZMod = y - E.weierstrass.slope x u.toZMod y v.toZMod * (x - u.toZMod) := by
    linear_combination Curve.slope_chord hne y v.toZMod
  generalize hs : E.weierstrass.slope x u.toZMod y v.toZMod = slope at hy
  refine ⟨_, _, _, WeierstrassCurve.Affine.Point.add_of_X_ne hne, ?_, ?_⟩
  · rw [Curve.addX_weierstrass, hs]
    simp only [Jacobian.addAffine, Residue.toZMod_sub, Residue.toZMod_mul, Residue.toZMod_scale,
      hTx, hTy, hy, Nat.cast_ofNat]
    ring
  · rw [Curve.addY_weierstrass, hs]
    simp only [Jacobian.addAffine, Residue.toZMod_sub, Residue.toZMod_mul, Residue.toZMod_scale,
      hTx, hTy, hy, Nat.cast_ofNat]
    ring

theorem Represents.ofAffine_eq {T : Jacobian E} {P : E.weierstrass.Point} (h : T.Represents P)
    {x y : Residue E.prime} (hz : T.z.value ≠ 0) (hx : T.x = x * (T.z * T.z))
    (hy : T.y = y * (T.z * T.z * T.z)) : Point.ofAffine P = .affine x y := by
  have hTz : T.z.toZMod ≠ 0 := mt Residue.toZMod_eq_zero_iff.mp hz
  obtain ⟨u, v, huv, rfl, hTx, hTy⟩ := h hTz
  rw [hx, Residue.toZMod_mul, Residue.toZMod_mul, ← pow_two] at hTx
  rw [hy, Residue.toZMod_mul, Residue.toZMod_mul, Residue.toZMod_mul, ← pow_two, ← pow_succ]
    at hTy
  have hu : x.toZMod = u := mul_right_cancel₀ (pow_ne_zero 2 hTz) hTx
  have hv : y.toZMod = v := mul_right_cancel₀ (pow_ne_zero 3 hTz) hTy
  subst hu hv
  exact Point.ofAffine_eq_affine_iff.mpr ⟨huv, rfl⟩

theorem represents_multiple (hp : E.prime ≠ 2) {x y : Residue E.prime}
    {P : E.weierstrass.Point} (hP : Point.ofAffine P = .affine x y) {steps k : Nat}
    (hpos : 0 < k) (hk : k < 2 ^ (steps + 1)) : (multiple x y steps k).Represents (k • P) := by
  induction steps generalizing k with
  | zero =>
      have h1 : k = 1 := by omega
      rw [h1, one_nsmul]
      exact represents_ofCoordinates hP
  | succ steps ih =>
      rw [multiple]
      by_cases hle : k ≤ 1
      · have h1 : k = 1 := by omega
        rw [if_pos hle, h1, one_nsmul]
        exact represents_ofCoordinates hP
      · have hhalf : k / 2 < 2 ^ (steps + 1) := by
          rw [Nat.pow_succ] at hk
          omega
        have hd := (ih (by omega) hhalf).double hp
        rw [if_neg hle]
        by_cases heven : k % 2 = 0
        · have he : k / 2 + k / 2 = k := by omega
          rw [← add_nsmul, he] at hd
          rw [if_pos heven]
          exact hd
        · have ho : k / 2 + k / 2 + 1 = k := by omega
          have ha := hd.addAffine hP
          rw [← add_nsmul, ← succ_nsmul, ho] at ha
          rw [if_neg heven]
          exact ha

end Jacobian

end BitcoinSpend
