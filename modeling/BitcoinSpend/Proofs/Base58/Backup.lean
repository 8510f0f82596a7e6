import BitcoinSpend.Proofs.Base58.Wif

namespace BitcoinSpend

open Secp256k1
open BitcoinSpend.Point (ofAffine_injective)

namespace PrivateKey

-- What an export keeps of a secret: neither its sign nor what is above 32 bytes.
def exported (key : PrivateKey) : Nat :=
  key.secret.natAbs % 2 ^ 256

theorem exported_eq_secret {key : PrivateKey} (hnonneg : 0 ≤ key.secret)
    (hlt : key.secret < 2 ^ 256) : (key.exported : Int) = key.secret := by
  rw [exported]
  omega

theorem ofWif_wif (key : PrivateKey) (compressed : Bool) (network : Network) :
    ofWif (key.wif compressed network) =
      if 1 ≤ key.exported ∧ key.exported < order then
        .ok ⟨⟨key.exported⟩, compressed, network⟩
      else .error (.format .secretOutOfRange) := by
  rw [wif_eq, ofWif_encodeChecked (Bytes.length_ofNatBE 32 _), Bytes.toNatBE_ofNatBE]
  rfl

-- Two secrets have one point when they are one modulo the order.
theorem point_eq_iff {key other : PrivateKey} :
    key.point = other.point ↔ key.secret ≡ other.secret [ZMOD order] := by
  rw [point, point, mul_generator, mul_generator, ofAffine_injective.eq_iff, zsmul_base_eq_iff,
    ZMod.intCast_eq_intCast_iff]

-- An export is read back as what it kept of the secret, which is the secret if that is
-- neither negative nor too long, and need not even have the same point if it is not.
theorem ofWif_wif_restores (key : PrivateKey) (compressed : Bool) (network : Network) :
    (ofWif (key.wif compressed network) =
      if 1 ≤ key.exported ∧ key.exported < order then
        .ok ⟨⟨key.exported⟩, compressed, network⟩
      else .error (.format .secretOutOfRange)) ∧
    ((∀ imported, ofWif (key.wif compressed network) = .ok imported →
        imported.key.point = key.point) ↔
      (1 ≤ key.exported → key.exported < order → key.exported ≡ key.secret [ZMOD order])) ∧
    (0 ≤ key.secret → key.secret < 2 ^ 256 →
      ∀ imported, ofWif (key.wif compressed network) = .ok imported → imported.key = key) := by
  have hwif := key.ofWif_wif compressed network
  refine ⟨hwif, ?_, ?_⟩
  · rw [hwif]
    constructor
    · intro h hpos hlt
      exact point_eq_iff.mp (h _ (if_pos ⟨hpos, hlt⟩))
    · intro h imported himported
      split_ifs at himported with hrange
      cases himported
      exact point_eq_iff.mpr (h hrange.1 hrange.2)
  · intro hnonneg hlt imported himported
    rw [hwif] at himported
    split_ifs at himported with hrange
    cases himported
    rw [exported_eq_secret hnonneg hlt]

-- The largest secret that is read back.
theorem ofWif_wif_restores_largest :
    (0 : Int) ≤ order - 1 ∧ (order : Int) - 1 < 2 ^ 256 ∧
      ∃ imported, ofWif (wif ⟨order - 1⟩ true .main) = .ok imported ∧
        imported.key = ⟨order - 1⟩ := by
  obtain ⟨hwif, -, hsame⟩ := ofWif_wif_restores ⟨order - 1⟩ true .main
  rw [if_pos (by decide)] at hwif
  exact ⟨by decide, by decide, _, hwif, hsame (by decide) (by decide) _ hwif⟩

-- A secret and its negative have one export, and their points are opposite.
theorem not_forall_restores :
    ¬ ∀ (key : PrivateKey) (compressed : Bool) (network : Network) (imported : WifExport),
      ofWif (key.wif compressed network) = .ok imported → imported.key.point = key.point := by
  intro h
  have hwif := ofWif_wif ⟨-1⟩ true .main
  rw [if_pos (by decide)] at hwif
  have hpoint := point_eq_iff.mp (h _ _ _ _ hwif)
  exact absurd hpoint (by decide)

end PrivateKey

end BitcoinSpend
