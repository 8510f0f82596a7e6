import BitcoinSpend.Proofs.Ecdsa.DerGrammar
import BitcoinSpend.Proofs.Ecdsa.Magnitude
import BitcoinSpend.Proofs.Ecdsa.Nonce

namespace BitcoinSpend.Signature

open Secp256k1

theorem length_derMagnitude_le {value : Nat} (h : value < order) :
    (derMagnitude value).length ≤ 33 :=
  (signedMagnitude_derMagnitude value).length_le (by decide) (h.trans (by decide : order < 256 ^ 32))

-- No length is too long for its byte.
theorem framed_der (signature : Signature) :
    Framed (derMagnitude signature.r) (derMagnitude signature.s) signature.der := by
  have hr := length_derMagnitude_le signature.r_lt_order
  have hs := length_derMagnitude_le signature.s_lt_order
  refine framed_iff_derContent.mpr ⟨by omega, by omega, ?_, rfl⟩
  simp only [derContent, List.length_cons, List.length_append]
  omega

theorem ofDer_der (signature : Signature) : ofDer signature.der = .ok signature := by
  rw [ofDer_of_framed signature.framed_der, (signedMagnitude_derMagnitude _).toNatBE_eq,
    (signedMagnitude_derMagnitude _).toNatBE_eq, ofInts_eq]

-- Whichever way a signature is made, its components are in range as they are computed, and its
-- bytes hold them whole.
theorem der_untruncated :
    (∀ (x y : Int) (signature : Signature), ofInts x y = .ok signature ↔
      ((0 ≤ x ∧ x < order) ∧ 0 ≤ y ∧ y < order) ∧ signature.r = x ∧ signature.s = y) ∧
    (∀ (input : Bytes) (signature : Signature), ofDer input = .ok signature →
      ∃ r s, Framed r s input ∧ (Bytes.toNatBE r < order ∧ Bytes.toNatBE s < order) ∧
        signature.r = Bytes.toNatBE r ∧ signature.s = Bytes.toNatBE s) ∧
    (∀ (secret z : Int) (draws : List Bytes) (signature : Signature),
      sign secret z draws = some signature →
      ∃ k x y, mul (k : Nat) generator = .affine x y ∧
        (x.value % order < order ∧ lowS (rawS secret z k signature.r) < order) ∧
        signature.r = x.value % order ∧ signature.s = lowS (rawS secret z k signature.r)) ∧
    ∀ signature : Signature, ∃ r s,
      (SignedMagnitude signature.r r ∧ SignedMagnitude signature.s s) ∧
        (r.length ≤ 33 ∧ s.length ≤ 33) ∧ Framed r s signature.der ∧
        signature.der.length ≤ 72 ∧ ofDer signature.der = .ok signature := by
  refine ⟨?_, ?_, ?_, ?_⟩
  · intro x y signature
    exact ofInts_eq_ok_iff
  · intro input signature h
    obtain ⟨r, s, hframed⟩ := exists_framed_of_ofDer h
    obtain ⟨hr, hs⟩ := components_of_framed hframed h
    refine ⟨r, s, hframed, ⟨?_, ?_⟩, hr, hs⟩
    · exact hr ▸ signature.r_lt_order
    · exact hs ▸ signature.s_lt_order
  · intro secret z draws signature h
    obtain ⟨k, x, y, hpoint, hr, hs⟩ := exists_components_of_sign h
    have hbounds : x.value % order < order ∧ lowS (rawS secret z k signature.r) < order :=
      ⟨Nat.mod_lt _ (by decide), lowS_lt (rawS_lt _ _ _ _)⟩
    exact ⟨k, x, y, hpoint, hbounds, hr, hs⟩
  · intro signature
    have hr := length_derMagnitude_le signature.r_lt_order
    have hs := length_derMagnitude_le signature.s_lt_order
    have hlength := signature.framed_der.length_eq
    exact ⟨_, _, ⟨signedMagnitude_derMagnitude _, signedMagnitude_derMagnitude _⟩, ⟨hr, hs⟩,
      signature.framed_der, by omega, signature.ofDer_der⟩

-- The first component takes a zero in front, and the other one is zero.
theorem der_untruncated_padded :
    ∃ signature, (ofInts 0x80 0 = .ok signature ∧ (signature.r : Int) = 0x80) ∧
      signature.der = [0x30, 0x07, 0x02, 0x02, 0x00, 0x80, 0x02, 0x01, 0x00] ∧
      (ofDer signature.der = .ok signature ∧ ∃ r s, Framed r s signature.der ∧
        0x80 = Bytes.toNatBE r ∧ 0 = Bytes.toNatBE s) ∧
      ∃ draws signed, sign 1 0 draws = some signed ∧ ∃ k x y,
        mul (k : Nat) generator = .affine x y ∧ signed.r = x.value % order ∧
          signed.s = lowS (rawS 1 0 k signed.r) := by
  obtain ⟨hmade, hread, hsigned, hder⟩ := der_untruncated
  have h : ofInts 0x80 0 = .ok ⟨0x80, 0, by decide, by decide⟩ := rfl
  have hbytes : der ⟨0x80, 0, by decide, by decide⟩ =
      [0x30, 0x07, 0x02, 0x02, 0x00, 0x80, 0x02, 0x01, 0x00] := by
    decide +kernel
  have hsecret : (1 : Int) % order ≠ 0 := by decide
  obtain ⟨-, hvalue, -⟩ := (hmade _ _ _).mp h
  obtain ⟨-, -, -, -, -, -, hback⟩ := hder ⟨0x80, 0, by decide, by decide⟩
  obtain ⟨r, s, hframed, -, hr, hs⟩ := hread _ _ hback
  obtain ⟨draws, signed, hsign⟩ := exists_sign hsecret 0
  obtain ⟨k, x, y, hpoint, -, hr', hs'⟩ := hsigned 1 0 draws signed hsign
  exact ⟨_, ⟨h, hvalue⟩, hbytes, ⟨hback, r, s, hframed, hr, hs⟩, draws, signed, hsign, k, x, y,
    hpoint, hr', hs'⟩

end BitcoinSpend.Signature
