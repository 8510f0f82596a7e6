import BitcoinSpend.Proofs.Ecdsa.Signing

namespace BitcoinSpend

open Secp256k1
open BitcoinSpend.Point (ofAffine ofAffine_neg exists_ofAffine_eq)

namespace Secp256k1

-- The order takes every point to infinity, and so no multiple depends on more
-- than the residue of its scalar.
theorem zsmul_eq_zsmul {j k : Int} (h : (j : ZMod order) = k) (P : curve.weierstrass.Point) :
    j • P = k • P := by
  have hmod : j % order = k % order := (ZMod.intCast_eq_intCast_iff' j k order).mp h
  rw [← mod_natCard_zsmul P j, ← mod_natCard_zsmul P k, card_point, hmod]

-- Opposite points have one abscissa.
theorem exists_abscissa_neg_iff {P : curve.weierstrass.Point}
    {p : Residue curve.prime → Prop} :
    (∃ x y, ofAffine (-P) = .affine x y ∧ p x) ↔ ∃ x y, ofAffine P = .affine x y ∧ p x := by
  rw [ofAffine_neg]
  cases hP : ofAffine P with
  | infinity =>
      constructor
      · rintro ⟨x, y, hxy, -⟩
        cases hxy
      · rintro ⟨x, y, hxy, -⟩
        cases hxy
  | affine x y =>
      constructor
      · rintro ⟨x', y', hxy, hx⟩
        cases hxy
        exact ⟨x, y, rfl, hx⟩
      · rintro ⟨x', y', hxy, hx⟩
        cases hxy
        exact ⟨x, -y, rfl, hx⟩

end Secp256k1

theorem natCast_inverseModOrder_order_sub {s : Nat} (hs : s ≤ order) :
    (inverseModOrder (order - s) : ZMod order) = -inverseModOrder s := by
  rw [natCast_inverseModOrder, natCast_inverseModOrder, natCast_order_sub hs, inv_neg]

namespace Signature

-- The signature with the opposite of `s` modulo the order.
def flip (signature : Signature) (hs : 0 < signature.s) : Signature :=
  ⟨signature.r, order - signature.s, signature.r_lt_order,
    Nat.sub_lt (Nat.zero_lt_of_lt signature.s_lt_order) hs⟩

-- The verifier adds up the opposite point.
theorem total_flip {z z' : Int} (hz : z ≡ z' [ZMOD order]) (r : Nat) {s : Nat} (hs : s ≤ order)
    (P : curve.weierstrass.Point) :
    (z' * inverseModOrder (order - s)) • base + ((r : Int) * inverseModOrder (order - s)) • P =
      -((z * inverseModOrder s) • base + ((r : Int) * inverseModOrder s) • P) := by
  have hinverse := natCast_inverseModOrder_order_sub hs
  have hcast : (z : ZMod order) = z' := (ZMod.intCast_eq_intCast_iff z z' order).mpr hz
  have hbase : ((z' * inverseModOrder (order - s) : Int) : ZMod order) =
      (-(z * inverseModOrder s) : Int) := by
    push_cast
    rw [hinverse, hcast, mul_neg]
  have hkey : (((r : Int) * inverseModOrder (order - s) : Int) : ZMod order) =
      (-((r : Int) * inverseModOrder s) : Int) := by
    push_cast
    rw [hinverse, mul_neg]
  rw [zsmul_eq_zsmul hbase base, zsmul_eq_zsmul hkey P, neg_zsmul, neg_zsmul, neg_add]

theorem verifies_flip (signature : Signature) (hs : 0 < signature.s) {P : Secp256k1.Point}
    (hP : P.OnCurve) {z z' : Int} (hz : z ≡ z' [ZMOD order]) :
    (signature.flip hs).verifies P z' = signature.verifies P z := by
  obtain ⟨Q, rfl⟩ := exists_ofAffine_eq elliptic hP
  have htotal := total_flip hz signature.r signature.s_lt_order.le Q
  have hflip : order - signature.s ≠ 0 := Nat.sub_ne_zero_of_lt signature.s_lt_order
  rw [Bool.eq_iff_iff, verifies_ofAffine_iff, verifies_ofAffine_iff]
  simp only [flip, htotal, exists_abscissa_neg_iff, hflip, hs.ne', ne_eq, not_false_eq_true]

theorem flip_pos (signature : Signature) (hs : 0 < signature.s) : 0 < (signature.flip hs).s :=
  Nat.sub_pos_of_lt signature.s_lt_order

theorem flip_flip (signature : Signature) (hs : 0 < signature.s) :
    (signature.flip hs).flip (signature.flip_pos hs) = signature :=
  Signature.ext rfl (Nat.sub_sub_self signature.s_lt_order.le)

-- The order is odd, so that no number is its own opposite.
theorem flip_ne_self (signature : Signature) (hs : 0 < signature.s) :
    signature.flip hs ≠ signature := by
  intro h
  have hodd : order % 2 = 1 := by decide
  have hself : order - signature.s = signature.s := congrArg Signature.s h
  omega

theorem verifies_congr (signature : Signature) (hs : 0 < signature.s) {P : Secp256k1.Point}
    (hP : P.OnCurve) {z z' : Int} (hz : z ≡ z' [ZMOD order]) :
    signature.verifies P z' = signature.verifies P z := by
  have htwice := verifies_flip (signature.flip hs) (signature.flip_pos hs) hP hz
  rwa [flip_flip, verifies_flip signature hs hP (Int.ModEq.refl z)] at htwice

-- The signature as the signer would give it out.
def lowered (signature : Signature) : Signature :=
  ⟨signature.r, lowS signature.s, signature.r_lt_order,
    (lowS_le signature.s_lt_order).trans_lt (by decide)⟩

theorem lowered_cases (signature : Signature) (hs : 0 < signature.s) :
    signature.lowered = signature.flip hs ∨ signature.lowered = signature := by
  by_cases hhigh : order / 2 < signature.s
  · exact .inl (Signature.ext rfl (if_pos hhigh))
  · exact .inr (Signature.ext rfl (if_neg hhigh))

-- Whoever sees a signature knows another one that is as good, and the signer
-- chooses between the two without changing what verifies.
theorem verifies_eq_verifies_flip (signature : Signature) (hs : 0 < signature.s)
    {P : Secp256k1.Point} (hP : P.OnCurve) {z z' : Int} (hz : z ≡ z' [ZMOD order]) :
    signature.verifies P z = (signature.flip hs).verifies P z' ∧
      signature.flip hs ≠ signature ∧
      signature.lowered.verifies P z' = signature.verifies P z := by
  refine ⟨(verifies_flip signature hs hP hz).symm, signature.flip_ne_self hs, ?_⟩
  rcases signature.lowered_cases hs with hlowered | hlowered
  · rw [hlowered, verifies_flip signature hs hP hz]
  · rw [hlowered, verifies_congr signature hs hP hz]

-- The nonce and the secret are one, and the other hash is above the order.
theorem verifies_eq_verifies_flip_secret_one :
    generator.OnCurve ∧
      1 - (generatorX.value : Int) ≡ 1 - generatorX.value + order * 2 [ZMOD order] ∧
      verifies ⟨generatorX.value, order - 1, by decide, by decide⟩ generator
        (1 - generatorX.value + order * 2) = true := by
  have hz : 1 - (generatorX.value : Int) ≡ 1 - generatorX.value + order * 2 [ZMOD order] := by
    decide
  have hvalid : verifies ⟨generatorX.value, 1, by decide, by decide⟩ generator
      (1 - generatorX.value) = true := by
    have hbase : ofAffine ((1 : Int) • base) = generator := by
      rw [one_zsmul, ofAffine_base]
    have hnonce : ((1 : Int) : ZMod order) * (1 : Nat) =
        ((1 - generatorX.value : Int) : ZMod order) + generatorX.value * (1 : Int) := by
      push_cast
      ring
    rw [← hbase]
    exact (verifies_zsmul_base_iff ⟨generatorX.value, 1, by decide, by decide⟩ hnonce).mpr
      ⟨by decide, by decide, by simp, generatorX, generatorY, hbase, rfl⟩
  obtain ⟨hflip, -⟩ := verifies_eq_verifies_flip ⟨generatorX.value, 1, by decide, by decide⟩
    Nat.one_pos onCurve_generator hz
  exact ⟨onCurve_generator, hz, hflip ▸ hvalid⟩

end Signature

end BitcoinSpend
