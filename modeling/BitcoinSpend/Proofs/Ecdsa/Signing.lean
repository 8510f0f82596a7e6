import BitcoinSpend.Ecdsa.Signing
import BitcoinSpend.Proofs.Ecdsa.Verification

namespace BitcoinSpend

open Secp256k1
open BitcoinSpend.Point (ofAffine ofAffine_zero ofAffine_injective ofAffine_neg)

theorem natCast_order_sub {s : Nat} (hs : s ≤ order) :
    ((order - s : Nat) : ZMod order) = -s := by
  rw [Nat.cast_sub hs, ZMod.natCast_self, zero_sub]

theorem ofAffine_zsmul_base_eq_infinity_iff {k : Int} :
    ofAffine (k • base) = .infinity ↔ (k : ZMod order) = 0 := by
  rw [← ofAffine_zero, ofAffine_injective.eq_iff, ← zero_zsmul base, zsmul_base_eq_iff,
    Int.cast_zero]

namespace Signature

-- The verifier comes back to a nonce `k` that solves the equation for `s`.
theorem verifies_zsmul_base_iff (signature : Signature) {secret z k : Int}
    (hk : (k : ZMod order) * signature.s = z + signature.r * secret) :
    signature.verifies (ofAffine (secret • base)) z = true ↔
      0 < signature.r ∧ 0 < signature.s ∧ (secret : ZMod order) ≠ 0 ∧
        ∃ x y, ofAffine (k • base) = .affine x y ∧ x.value % order = signature.r := by
  have hkey : ofAffine (secret • base) ≠ .infinity ↔ (secret : ZMod order) ≠ 0 :=
    not_congr ofAffine_zsmul_base_eq_infinity_iff
  rw [verifies_ofAffine_iff, hkey, Nat.pos_iff_ne_zero, Nat.pos_iff_ne_zero]
  refine and_congr_right fun hr => and_congr_right fun hs => ?_
  have hsne := natCast_ne_zero_of_lt (Nat.pos_of_ne_zero hs) signature.s_lt_order
  have hscalar : z * (inverseModOrder signature.s : ZMod order) +
      signature.r * inverseModOrder signature.s * secret = k := by
    rw [natCast_inverseModOrder, mul_right_comm, ← add_mul, ← hk, mul_assoc,
      mul_inv_cancel₀ hsne, mul_one]
  have htotal : (z * inverseModOrder signature.s) • base +
      ((signature.r : Int) * inverseModOrder signature.s) • secret • base = k • base := by
    rw [smul_smul, ← add_zsmul, zsmul_base_eq_iff, ← hscalar]
    push_cast
    rfl
  rw [htotal]

theorem lowS_le {s : Nat} (hs : s < order) : lowS s ≤ (order - 1) / 2 := by
  have hodd : order % 2 = 1 := by decide
  rw [lowS]
  split_ifs with hhigh
  · omega
  · omega

theorem lowS_lt {s : Nat} (hs : s < order) : lowS s < order :=
  (lowS_le hs).trans_lt (by decide)

theorem natCast_lowS {s : Nat} (hs : s < order) :
    (lowS s : ZMod order) = s ∨ (lowS s : ZMod order) = -s := by
  rw [lowS]
  split_ifs with hhigh
  · right
    exact natCast_order_sub hs.le
  · left
    rfl

theorem ofPositive_eq_some {r s : Nat} {signature : Signature}
    (h : ofPositive r s = some signature) :
    signature.r = r ∧ signature.s = s ∧ 0 < signature.r ∧ 0 < signature.s := by
  rw [ofPositive] at h
  split_ifs at h with hrange
  cases h
  exact ⟨rfl, rfl, hrange.1.1, hrange.2.1⟩

-- The second component before it is lowered.
def rawS (secret z : Int) (k r : Nat) : Nat :=
  ((z + r * secret) * inverseModOrder k % order).toNat

theorem rawS_lt (secret z : Int) (k r : Nat) : rawS secret z k r < order := by
  have hpos : 0 < order := by decide
  have hbound : (z + r * secret) * inverseModOrder k % order < (order : Int) :=
    Int.emod_lt_of_pos _ (by decide)
  rw [rawS]
  omega

theorem natCast_rawS (secret z : Int) (k r : Nat) :
    (rawS secret z k r : ZMod order) = (z + r * secret) * (k : ZMod order)⁻¹ := by
  have hnonneg : 0 ≤ (z + r * secret) * inverseModOrder k % (order : Int) :=
    Int.emod_nonneg _ (by decide)
  rw [rawS, ← Int.cast_natCast, Int.toNat_of_nonneg hnonneg, ZMod.intCast_mod,
    ← natCast_inverseModOrder]
  push_cast
  rfl

theorem ofNonce_affine (secret z : Int) {k : Nat} {x y : Residue curve.prime}
    (hpoint : mul k generator = .affine x y) :
    ofNonce secret z k =
      ofPositive (x.value % order) (lowS (rawS secret z k (x.value % order))) := by
  rw [ofNonce, hpoint]
  rfl

-- A lowered `s` solves the equation for the opposite of the nonce.
theorem ofNonce_eq_some {secret z : Int} {k : Nat} {signature : Signature}
    (hpos : 0 < k) (hlt : k < order) (h : ofNonce secret z k = some signature) :
    0 < signature.r ∧ 0 < signature.s ∧ signature.s ≤ (order - 1) / 2 ∧
      ((k : ZMod order) * signature.s = z + signature.r * secret ∨
        -(k : ZMod order) * signature.s = z + signature.r * secret) ∧
      ∃ x y, ofAffine ((k : Int) • base) = .affine x y ∧ x.value % order = signature.r := by
  have hk := natCast_ne_zero_of_lt hpos hlt
  cases hpoint : ofAffine ((k : Int) • base) with
  | infinity =>
      rw [ofNonce, mul_generator, hpoint] at h
      cases h
  | affine x y =>
      rw [ofNonce_affine secret z ((mul_generator k).trans hpoint)] at h
      obtain ⟨hr, hs, hrpos, hspos⟩ := ofPositive_eq_some h
      rw [← hr] at hs
      have hraw := rawS_lt secret z k signature.r
      have hsolved : (k : ZMod order) * rawS secret z k signature.r =
          z + signature.r * secret := by
        rw [natCast_rawS, mul_comm, inv_mul_cancel_right₀ hk]
      refine ⟨hrpos, hspos, hs ▸ lowS_le hraw, ?_, x, y, rfl, hr.symm⟩
      rcases natCast_lowS hraw with hlow | hlow
      · left
        rw [hs, hlow, hsolved]
      · right
        rw [hs, hlow, neg_mul_neg, hsolved]

theorem sign_eq_some {secret z : Int} {draws : List Bytes} {signature : Signature}
    (h : sign secret z draws = some signature) :
    ∃ k, 0 < k ∧ k < order ∧ ofNonce secret z k = some signature := by
  obtain ⟨k, -, hk⟩ := List.exists_of_findSome?_eq_some h
  split_ifs at hk with hrange
  exact ⟨k, hrange.1, hrange.2, hk⟩

theorem exists_components_of_sign {secret z : Int} {draws : List Bytes} {signature : Signature}
    (h : sign secret z draws = some signature) :
    ∃ k x y, mul (k : Nat) generator = .affine x y ∧ signature.r = x.value % order ∧
      signature.s = lowS (rawS secret z k signature.r) := by
  obtain ⟨k, -, -, hnonce⟩ := sign_eq_some h
  cases hpoint : mul k generator with
  | infinity =>
      rw [ofNonce, hpoint] at hnonce
      cases hnonce
  | affine x y =>
      rw [ofNonce_affine secret z hpoint] at hnonce
      obtain ⟨hr, hs, -, -⟩ := ofPositive_eq_some hnonce
      exact ⟨k, x, y, hpoint, hr, hr ▸ hs⟩

-- Whatever is drawn, a signature that is made passes the check against its key.
theorem verifies_sign {secret z : Int} {draws : List Bytes} {signature : Signature}
    (hsecret : secret % order ≠ 0) (hsign : sign secret z draws = some signature) :
    (1 ≤ signature.r ∧ signature.r < order) ∧
      (1 ≤ signature.s ∧ signature.s ≤ (order - 1) / 2) ∧
      signature.verifies (mul secret generator) z = true := by
  obtain ⟨k, hpos, hlt, hnonce⟩ := sign_eq_some hsign
  obtain ⟨hr, hs, hlow, hsolves, x, y, hpoint, hx⟩ := ofNonce_eq_some hpos hlt hnonce
  have hsecret' : (secret : ZMod order) ≠ 0 := by
    rw [Ne, ZMod.intCast_zmod_eq_zero_iff_dvd]
    exact mt Int.emod_eq_zero_of_dvd hsecret
  refine ⟨⟨hr, signature.r_lt_order⟩, ⟨hs, hlow⟩, ?_⟩
  rw [mul_generator]
  rcases hsolves with hk | hk
  · have hk' : ((k : Int) : ZMod order) * signature.s = z + signature.r * secret := by
      rw [Int.cast_natCast, hk]
    exact (verifies_zsmul_base_iff signature hk').mpr ⟨hr, hs, hsecret', x, y, hpoint, hx⟩
  · have hk' : ((-(k : Int) : Int) : ZMod order) * signature.s = z + signature.r * secret := by
      rw [Int.cast_neg, Int.cast_natCast, hk]
    -- The opposite point has the same abscissa.
    have hneg : ofAffine ((-(k : Int)) • base) = .affine x (-y) := by
      rw [neg_zsmul, ofAffine_neg, hpoint]
      rfl
    exact (verifies_zsmul_base_iff signature hk').mpr ⟨hr, hs, hsecret', x, -y, hneg, hx⟩

-- The first draw is no secret, and the second makes an `s` that is lowered.
theorem verifies_sign_second_draw :
    (-1 : Int) % order ≠ 0 ∧ ∃ signature, sign (-1) 0 [[0], [1]] = some signature ∧
      signature.s = generatorX.value ∧ signature.verifies (mul (-1) generator) 0 = true := by
  have hpower : ∀ exponent, powMod order 1 exponent = 1 := by
    intro exponent
    rw [powMod_eq]
    exact congrArg (· % order) (Nat.one_pow exponent)
  have hinverse : inverseModOrder 1 = 1 := hpower (order - 2)
  have hmul : mul (1 : Nat) generator = .affine generatorX generatorY := by
    rw [mul_generator, Nat.cast_one, one_zsmul, ofAffine_base]
    rfl
  have hnonce : ofNonce (-1) 0 1 =
      some ⟨generatorX.value, generatorX.value, by decide, by decide⟩ := by
    rw [ofNonce, hmul, hinverse]
    decide
  have hfirst : Bytes.toNatBE [0] = 0 := rfl
  have hsecond : Bytes.toNatBE [1] = 1 := rfl
  have hsign : sign (-1) 0 [[0], [1]] =
      some ⟨generatorX.value, generatorX.value, by decide, by decide⟩ := by
    rw [sign, List.map_cons, List.map_cons, hfirst, hsecond, List.findSome?_cons,
      if_neg (by decide), List.findSome?_cons, if_pos (by decide), hnonce]
  exact ⟨by decide, _, hsign, rfl, (verifies_sign (by decide) hsign).2.2⟩

end Signature

end BitcoinSpend
