import BitcoinSpend.Proofs.Curve.Group
import BitcoinSpend.Proofs.Field.SquareRoot
import BitcoinSpend.Proofs.Secp256k1.Order
import BitcoinSpend.Proofs.Wire.Integer
import BitcoinSpend.Secp256k1.Sec

namespace BitcoinSpend.Secp256k1

theorem value_neg {y : Residue curve.prime} (hy : y.value ≠ 0) :
    (-y).value = curve.prime - y.value :=
  Nat.mod_eq_of_lt (Nat.sub_lt y.modulus_pos (Nat.pos_of_ne_zero hy))

-- The prime is odd, so that of an ordinate and its opposite one is even.
theorem isEven_neg {y : Residue curve.prime} (hy : y.value ≠ 0) : isEven (-y) = !isEven y := by
  have hodd : curve.prime % 2 = 1 := by decide
  have hlt := y.value_lt
  rw [isEven, isEven, value_neg hy, ← decide_not]
  apply decide_eq_decide.mpr
  omega

theorem neg_eq_self {y : Residue curve.prime} (hy : y.value = 0) : -y = y := by
  rw [← Residue.toZMod_inj, Residue.toZMod_neg, Residue.toZMod_eq_zero_iff.mpr hy, neg_zero]

theorem neg_neg_residue (y : Residue curve.prime) : - -y = y := by
  rw [← Residue.toZMod_inj, Residue.toZMod_neg, Residue.toZMod_neg, neg_neg]

theorem length_sec_true_le (P : Point) : sec true P ≠ [] ∧ (sec true P).length ≤ 33 := by
  cases P with
  | infinity => decide
  | affine x y => exact ⟨List.cons_ne_nil _ _, by simp [sec]⟩

-- Of the two roots the tag picks the one it was made for.
theorem select_root {root y : Residue curve.prime} (h : root = y ∨ root = -y) :
    (if isEven root = isEven y then root else -root) = y := by
  rcases h with rfl | rfl
  · rw [if_pos rfl]
  · by_cases hy : y.value = 0
    · rw [neg_eq_self hy, if_pos rfl]
    · have hne : isEven (-y) ≠ isEven y := by
        rw [isEven_neg hy]
        exact Bool.not_ne_self _
      rw [if_neg hne, neg_neg_residue]

theorem lift_isEven {x y : Residue curve.prime} (h : curve.Satisfies x y) :
    lift (isEven y) x = .ok (.affine x y) := by
  have hroot := Residue.sqrt_mul_self (p := curve.prime) (by decide) y
  have hsquare : curve.rhs x = y * y := h.symm
  have hselect := select_root (Residue.eq_or_eq_neg_of_mul_self_eq hroot)
  simp only [lift, hsquare, hroot, ne_eq, not_true_eq_false, if_false, hselect]

theorem ofSec_tagged {even : Bool} {body : Bytes} {x : Residue curve.prime}
    (hlength : body.length = 32) (hx : Bytes.toNatBE body = x.value) :
    ofSec ((if even then evenTag else oddTag) :: body) = lift even x := by
  have htag : (if even then evenTag else oddTag) ≠ uncompressedTag ∧
      ((if even then evenTag else oddTag) = evenTag ∨
        (if even then evenTag else oddTag) = oddTag) ∧
      decide ((if even then evenTag else oddTag) = evenTag) = even := by
    cases even <;> decide
  obtain ⟨hcompressed, hknown, heven⟩ := htag
  have hlt : Bytes.toNatBE body < prime := hx ▸ x.value_lt
  rw [ofSec, if_neg hcompressed, if_pos hknown, if_neg (not_not.mpr hlength), dif_pos hlt, heven]
  congr 1
  cases x
  cases hx
  rfl

theorem ofSec_uncompressed {body : Bytes} (hlength : body.length = 64) :
    ofSec (uncompressedTag :: body) =
      point (Bytes.toNatBE (body.take 32)) (Bytes.toNatBE (body.drop 32)) := by
  rw [ofSec, if_pos rfl, if_neg (not_not.mpr hlength)]

theorem toNatBE_ofNatBE_value (x : Residue curve.prime) :
    Bytes.toNatBE (Bytes.ofNatBE 32 x.value) = x.value := by
  have hlt : x.value < 256 ^ 32 := x.value_lt.trans (by decide)
  rw [Bytes.toNatBE_ofNatBE, Nat.mod_eq_of_lt hlt]

theorem ofInts_value (x : Residue curve.prime) :
    FieldElement.ofInts x.value prime = .ok ⟨curve.prime, by decide, x⟩ := by
  have hx := x.value_lt
  have hrange : 2 ≤ (prime : Int) ∧ 0 ≤ (x.value : Int) ∧ (x.value : Int) < prime :=
    ⟨by decide, Int.natCast_nonneg _, Int.ofNat_lt.mpr hx⟩
  rw [FieldElement.ofInts, dif_pos hrange]
  rfl

theorem point_value {x y : Residue curve.prime} (h : curve.Satisfies x y) :
    point x.value y.value = .ok (.affine x y) := by
  rw [point, ofInts_value, ofInts_value]
  exact Curve.point_eq_ok _ h

-- A point of the curve comes back from either form.
theorem ofSec_sec (compressed : Bool) {P : Point} (hcurve : P.OnCurve) (hne : P ≠ .infinity) :
    ofSec (sec compressed P) = .ok P := by
  cases P with
  | infinity => exact absurd rfl hne
  | affine x y =>
      have hlength := Bytes.length_ofNatBE 32 x.value
      cases compressed with
      | false =>
          have hboth : (Bytes.ofNatBE 32 x.value ++ Bytes.ofNatBE 32 y.value).length = 64 := by
            rw [List.length_append, Bytes.length_ofNatBE, Bytes.length_ofNatBE]
          change ofSec (uncompressedTag :: _) = _
          rw [ofSec_uncompressed hboth, List.take_left' hlength, List.drop_left' hlength,
            toNatBE_ofNatBE_value, toNatBE_ofNatBE_value]
          exact point_value hcurve
      | true =>
          change ofSec ((if isEven y then evenTag else oddTag) :: _) = _
          rw [ofSec_tagged hlength (toNatBE_ofNatBE_value x)]
          exact lift_isEven hcurve

end BitcoinSpend.Secp256k1
