import BitcoinSpend.Proofs.Ecdsa.Signing
import BitcoinSpend.Proofs.Wire.Integer

namespace BitcoinSpend

open Secp256k1
open BitcoinSpend.Point (ofAffine ofAffine_neg)

namespace Secp256k1

def doubleX : Residue curve.prime :=
  ⟨0xc6047f9441ed7d6d3045406e95c07cd85c778e4b8cef3ca7abac09b95c709ee5, by decide⟩

def doubleY : Residue curve.prime :=
  ⟨0x1ae168fea63dc339a3c58419466ceaeef7f632653266d0e1236431a950cfe52a, by decide⟩

theorem multiple_two_eq :
    let double : Jacobian curve := .multiple generatorX generatorY 1 2
    double.z.value ≠ 0 ∧ double.x = doubleX * (double.z * double.z) ∧
      double.y = doubleY * (double.z * double.z * double.z) := by
  decide +kernel

theorem ofAffine_two_zsmul_base : ofAffine ((2 : Int) • base) = .affine doubleX doubleY := by
  obtain ⟨hz, hx, hy⟩ := multiple_two_eq
  have hrepresents : (Jacobian.multiple generatorX generatorY 1 2).Represents (2 • base) :=
    Jacobian.represents_multiple prime_ne_two ofAffine_base (by decide) (by decide)
  have hdouble := hrepresents.ofAffine_eq hz hx hy
  rwa [← natCast_zsmul] at hdouble

end Secp256k1

namespace Signature

theorem intCast_eq_zero_iff {value : Int} : (value : ZMod order) = 0 ↔ value % order = 0 := by
  rw [ZMod.intCast_zmod_eq_zero_iff_dvd, Int.dvd_iff_emod_eq_zero]

theorem secret_ne_zero {secret : Int} (h : secret % order ≠ 0) : (secret : ZMod order) ≠ 0 :=
  mt intCast_eq_zero_iff.mp h

-- Lowering `s` turns the nonce around, and its point keeps the abscissa.
theorem exists_nonce_of_sign {secret z : Int} {draws : List Bytes} {signature : Signature}
    (h : sign secret z draws = some signature) :
    0 < signature.r ∧ 0 < signature.s ∧
      ∃ k : Int, (k : ZMod order) * signature.s = z + signature.r * secret ∧
        ∃ x y, ofAffine (k • base) = .affine x y ∧ x.value % order = signature.r := by
  obtain ⟨k, hpos, hlt, hnonce⟩ := sign_eq_some h
  obtain ⟨hr, hs, -, hsolves, x, y, hpoint, hx⟩ := ofNonce_eq_some hpos hlt hnonce
  refine ⟨hr, hs, ?_⟩
  rcases hsolves with hk | hk
  · exact ⟨k, by rw [Int.cast_natCast, hk], x, y, hpoint, hx⟩
  · refine ⟨-k, by rw [Int.cast_neg, Int.cast_natCast, hk], x, -y, ?_, hx⟩
    rw [neg_zsmul, ofAffine_neg, hpoint]
    rfl

theorem verifies_of_sign {secret z : Int} {draws : List Bytes} {signature : Signature}
    (hsecret : secret % order ≠ 0) (h : sign secret z draws = some signature) :
    signature.verifies (mul secret generator) z = true := by
  obtain ⟨hr, hs, k, hk, hpoint⟩ := exists_nonce_of_sign h
  rw [mul_generator]
  exact (verifies_zsmul_base_iff signature hk).mpr ⟨hr, hs, secret_ne_zero hsecret, hpoint⟩

theorem lowS_pos {s : Nat} (hpos : 0 < s) (hlt : s < order) : 0 < lowS s := by
  rw [lowS]
  split_ifs with hhigh
  · omega
  · exact hpos

-- A nonce is usable when neither component comes out as zero.
theorem exists_ofNonce {secret z : Int} {k : Nat} {x y : Residue curve.prime}
    (hpos : 0 < k) (hlt : k < order) (hpoint : ofAffine ((k : Int) • base) = .affine x y)
    (hr : x.value % order ≠ 0) (hs : (z : ZMod order) + x.value * secret ≠ 0) :
    ∃ signature, ofNonce secret z k = some signature := by
  have hk := natCast_ne_zero_of_lt hpos hlt
  have hne : rawS secret z k (x.value % order) ≠ 0 := by
    intro hzero
    have hcast := natCast_rawS secret z k (x.value % order)
    rw [hzero, Nat.cast_zero, ZMod.natCast_mod] at hcast
    exact mul_ne_zero hs (inv_ne_zero hk) hcast.symm
  have hraw := rawS_lt secret z k (x.value % order)
  have hrange : (0 < x.value % order ∧ x.value % order < order) ∧
      0 < lowS (rawS secret z k (x.value % order)) ∧
        lowS (rawS secret z k (x.value % order)) < order :=
    ⟨⟨Nat.pos_of_ne_zero hr, Nat.mod_lt _ (by decide)⟩,
      lowS_pos (Nat.pos_of_ne_zero hne) hraw, lowS_lt hraw⟩
  rw [ofNonce_affine secret z ((mul_generator k).trans hpoint)]
  exact ⟨_, dif_pos hrange⟩

-- A nonce that a signature is made with, so that no other is drawn after it.
def Usable (secret z : Int) (k : Nat) : Prop :=
  (1 ≤ k ∧ k < order) ∧ ∃ signature, ofNonce secret z k = some signature

-- Two nonces with different abscissas do not both give zero for `s`, unless all do.
theorem exists_usable {secret z : Int} (h : (secret : ZMod order) ≠ 0 ∨ (z : ZMod order) ≠ 0) :
    ∃ k, Usable secret z k := by
  by_cases hs : (z : ZMod order) + generatorX.value * secret = 0
  · have hs' : (z : ZMod order) + doubleX.value * secret ≠ 0 := by
      intro hzero
      have hdiff : ((doubleX.value : ZMod order) - generatorX.value) * secret = 0 := by
        rw [sub_mul, sub_eq_zero]
        exact add_left_cancel (hzero.trans hs.symm)
      have hne : (doubleX.value : ZMod order) - generatorX.value ≠ 0 := by
        rw [sub_ne_zero, Ne, ZMod.natCast_eq_natCast_iff']
        decide
      have hsecret := (mul_eq_zero.mp hdiff).resolve_left hne
      rw [hsecret, mul_zero, add_zero] at hs
      exact h.elim (absurd hsecret) (absurd hs)
    exact ⟨2, by decide, exists_ofNonce (by decide) (by decide) ofAffine_two_zsmul_base
      (by decide) hs'⟩
  · have hbase : ofAffine (((1 : Nat) : Int) • base) = .affine generatorX generatorY := by
      rw [Nat.cast_one, one_zsmul, ofAffine_base]
      rfl
    exact ⟨1, by decide, exists_ofNonce (by decide) (by decide) hbase (by decide) hs⟩

-- When the secret and the hash count as zero, so does `s`, whatever the nonce.
theorem not_usable_of_eq_zero {secret z : Int} (hsecret : (secret : ZMod order) = 0)
    (hz : (z : ZMod order) = 0) (k : Nat) : ¬ Usable secret z k := by
  rintro ⟨⟨hpos, hlt⟩, signature, hnonce⟩
  obtain ⟨-, hs, -, hsolves, -⟩ := ofNonce_eq_some hpos hlt hnonce
  have hk := natCast_ne_zero_of_lt hpos hlt
  have hsne := natCast_ne_zero_of_lt hs signature.s_lt_order
  rw [hsecret, hz, mul_zero, add_zero] at hsolves
  rcases hsolves with h | h
  · exact mul_ne_zero hk hsne h
  · exact mul_ne_zero (neg_ne_zero.mpr hk) hsne h

theorem exists_sign_iff {secret z : Int} {draws : List Bytes} :
    (∃ signature, sign secret z draws = some signature) ↔
      ∃ draw ∈ draws, Usable secret z (Bytes.toNatBE draw) := by
  rw [← Option.isSome_iff_exists, sign, List.findSome?_isSome_iff]
  simp only [List.mem_map, exists_exists_and_eq_and]
  refine exists_congr fun draw => and_congr_right fun _ => ?_
  rw [Usable]
  split_ifs with hrange
  · rw [Option.isSome_iff_exists, and_iff_right hrange]
  · exact iff_of_false Bool.false_ne_true fun h => hrange h.1

theorem exists_sign {secret : Int} (hsecret : secret % order ≠ 0) (z : Int) :
    ∃ draws signature, sign secret z draws = some signature := by
  obtain ⟨k, hk⟩ := exists_usable (z := z) (.inl (secret_ne_zero hsecret))
  refine ⟨[Bytes.minimalBE k], exists_sign_iff.mpr ⟨_, List.mem_singleton_self _, ?_⟩⟩
  rwa [Bytes.toNatBE_minimalBE]

-- Signing ends with the first usable nonce that is drawn, and there is one unless the
-- secret and the hash both count as zero.
theorem exists_usable_iff (secret z : Int) :
    ((∃ k, Usable secret z k) ↔ ¬ (secret % order = 0 ∧ z % order = 0)) ∧
      ∀ draws, (∃ signature, sign secret z draws = some signature) ↔
        ∃ draw ∈ draws, Usable secret z (Bytes.toNatBE draw) := by
  refine ⟨?_, fun draws => exists_sign_iff⟩
  rw [← intCast_eq_zero_iff, ← intCast_eq_zero_iff]
  constructor
  · rintro ⟨k, hk⟩ ⟨hsecret, hz⟩
    exact not_usable_of_eq_zero hsecret hz k hk
  · intro h
    exact exists_usable (Classical.not_and_iff_not_or_not.mp h)

-- The point at infinity is the key, and every nonce is drawn in vain.
theorem not_forall_exists_usable : ¬ ∀ secret z : Int, ∃ k, Usable secret z k := by
  intro h
  obtain ⟨k, hk⟩ := h 0 0
  exact not_usable_of_eq_zero Int.cast_zero Int.cast_zero k hk

end Signature

end BitcoinSpend
