import BitcoinSpend.PrivateKey
import BitcoinSpend.Proofs.Base58.Checked
import BitcoinSpend.Proofs.Curve.Multiple
import BitcoinSpend.Proofs.Secp256k1.Count

namespace BitcoinSpend

open Secp256k1
open BitcoinSpend.Point (repeated repeated_ofAffine)

theorem Secp256k1.mul_generator_eq_repeated (k : Int) : mul k generator = repeated k generator := by
  rw [mul_generator, ← ofAffine_base, repeated_ofAffine prime_ne_two]

theorem Network.ofWifVersion?_eq_some_iff {version : UInt8} {network : Network} :
    Network.ofWifVersion? version = some network ↔ version = network.wifVersion := by
  rw [Network.ofWifVersion?]
  split_ifs with hmain htest
  · rw [hmain]
    cases network <;> decide
  · rw [htest]
    cases network <;> decide
  · constructor
    · intro h
      cases h
    · cases network with
      | main => exact fun h => absurd h hmain
      | test => exact fun h => absurd h htest

namespace PrivateKey

-- What follows the secret of a key in its export.
def wifMark (compressed : Bool) : Bytes :=
  if compressed then [0x01] else []

theorem wifMark_eq_singleton_iff {compressed : Bool} :
    wifMark compressed = [0x01] ↔ compressed = true := by
  cases compressed <;> decide

theorem wif_eq (key : PrivateKey) (compressed : Bool) (network : Network) :
    key.wif compressed network = Base58.encodeChecked
      (network.wifVersion :: (Bytes.ofNatBE 32 key.secret.natAbs ++ wifMark compressed)) := by
  cases compressed with
  | false =>
      rw [wif, wifMark, if_neg Bool.false_ne_true, if_neg Bool.false_ne_true, List.append_nil]
  | true => rfl

-- What follows the first 32 bytes is the mark or nothing.
theorem take_append_wifMark {body : Bytes} (h : body.drop 32 = [0x01] ∨ body.length = 32) :
    (body.take 32).length = 32 ∧
      body.take 32 ++ wifMark (decide (body.drop 32 = [0x01])) = body := by
  have hmark : wifMark (decide (body.drop 32 = [0x01])) = body.drop 32 := by
    by_cases hdrop : body.drop 32 = [0x01]
    · rw [hdrop]
      rfl
    · rw [decide_eq_false hdrop, List.drop_of_length_le (h.resolve_left hdrop).le]
      rfl
  have hlong : 32 ≤ body.length := by
    rcases h with hdrop | hlength
    · have hone := congrArg List.length hdrop
      rw [List.length_drop, List.length_singleton] at hone
      omega
    · exact hlength.ge
  exact ⟨List.length_take_of_le hlong, by rw [hmark, List.take_append_drop]⟩

theorem ofWif_encodeChecked {secret : Bytes} (hlength : secret.length = 32) (compressed : Bool)
    (network : Network) :
    ofWif (Base58.encodeChecked (network.wifVersion :: (secret ++ wifMark compressed))) =
      if 1 ≤ Bytes.toNatBE secret ∧ Bytes.toNatBE secret < order then
        .ok ⟨⟨Bytes.toNatBE secret⟩, compressed, network⟩
      else .error (.format .secretOutOfRange) := by
  have hform : ¬ (¬ compressed = true ∧ (secret ++ wifMark compressed).length ≠ 32) := by
    rw [List.length_append, hlength]
    cases compressed <;> decide
  have hrange : (Bytes.toNatBE secret = 0 ∨ order ≤ Bytes.toNatBE secret) ↔
      ¬ (1 ≤ Bytes.toNatBE secret ∧ Bytes.toNatBE secret < order) := by
    omega
  rw [ofWif, Base58.decodeChecked_iff.mpr rfl]
  simp only [bind, Except.bind, Network.ofWifVersion?_eq_some_iff.mpr rfl, List.take_left' hlength,
    List.drop_left' hlength, wifMark_eq_singleton_iff, Bool.decide_eq_true, if_neg hform, hrange,
    ite_not]
  split_ifs <;> rfl

theorem ofWif_eq_ok_iff_exists {text : String} {imported : WifExport} :
    ofWif text = .ok imported ↔ ∃ secret : Bytes, secret.length = 32 ∧
      text = Base58.encodeChecked
        (imported.network.wifVersion :: (secret ++ wifMark imported.compressed)) ∧
      (1 ≤ Bytes.toNatBE secret ∧ Bytes.toNatBE secret < order) ∧
      imported.key.secret = Bytes.toNatBE secret := by
  constructor
  · intro h
    rw [ofWif, bind_eq_ok_iff] at h
    simp only [Base58.decodeChecked_iff] at h
    obtain ⟨payload, rfl, hread⟩ := h
    cases payload with
    | nil => cases hread
    | cons version body =>
        dsimp only at hread
        split at hread
        · cases hread
        next network hversion =>
          rw [Network.ofWifVersion?_eq_some_iff] at hversion
          rw [unless_eq_ok_iff, unless_eq_ok_iff, Classical.not_and_iff_not_or_not, not_not,
            not_not] at hread
          obtain ⟨hform, hrange, hresult⟩ := hread
          obtain ⟨hlength, hbody⟩ := take_append_wifMark hform
          cases hresult
          exact ⟨body.take 32, hlength, by rw [hbody, hversion], by omega, rfl⟩
  · rintro ⟨secret, hlength, rfl, hrange, hsecret⟩
    rw [ofWif_encodeChecked hlength, if_pos hrange, ← hsecret]

theorem ofWif_iff {text : String} {imported : WifExport} :
    ofWif text = .ok imported ↔
      (1 ≤ imported.key.secret ∧ imported.key.secret < order) ∧
        text = imported.key.wif imported.compressed imported.network := by
  rw [ofWif_eq_ok_iff_exists, wif_eq]
  constructor
  · rintro ⟨secret, hlength, rfl, hrange, hsecret⟩
    rw [hsecret, Int.natAbs_natCast, Bytes.ofNatBE_toNatBE hlength]
    exact ⟨by omega, rfl⟩
  · rintro ⟨⟨hpos, hlt⟩, rfl⟩
    have horder : order < 256 ^ 32 := by decide
    refine ⟨_, Bytes.length_ofNatBE _ _, rfl, ?_⟩
    rw [Bytes.toNatBE_ofNatBE, Nat.mod_eq_of_lt (by omega)]
    exact ⟨by omega, by omega⟩

-- A text is imported to the key that it is the export of, and no key has two exports of one form.
theorem ofWif_eq_ok_iff :
    (∀ (text : String) (imported : WifExport), ofWif text = .ok imported ↔
      (1 ≤ imported.key.secret ∧ imported.key.secret < order) ∧
        imported.key.point = repeated imported.key.secret generator ∧
        text = imported.key.wif imported.compressed imported.network) ∧
    ∀ key : PrivateKey, 1 ≤ key.secret → key.secret < order →
      ∀ (compressed : Bool) (network : Network) (text : String),
        ofWif text = .ok ⟨key, compressed, network⟩ ↔ text = key.wif compressed network := by
  constructor
  · intro text imported
    rw [ofWif_iff, point, mul_generator_eq_repeated, eq_self, true_and]
  · intro key hpos hlt compressed network text
    rw [ofWif_iff]
    exact and_iff_right ⟨hpos, hlt⟩

-- A compressed export whose secret fills all 32 bytes.
theorem ofWif_eq_ok_iff_high_secret :
    ((1 : Int) ≤ 2 ^ 256 - 2 ^ 199 ∧ (2 : Int) ^ 256 - 2 ^ 199 < order) ∧
      ofWif "L5oLkpV3aqBJ4BgssVAsax1iRa77G5CVYnv9adQ6Z87te7TyUdSC" =
        .ok ⟨⟨2 ^ 256 - 2 ^ 199⟩, true, .main⟩ := by
  have hrange : (1 : Int) ≤ 2 ^ 256 - 2 ^ 199 ∧ (2 : Int) ^ 256 - 2 ^ 199 < order := by decide
  have hwif : wif ⟨2 ^ 256 - 2 ^ 199⟩ true .main =
      "L5oLkpV3aqBJ4BgssVAsax1iRa77G5CVYnv9adQ6Z87te7TyUdSC" := by
    decide +kernel
  exact ⟨hrange, (ofWif_eq_ok_iff.2 ⟨_⟩ hrange.1 hrange.2 true .main _).mpr hwif.symm⟩

end PrivateKey

end BitcoinSpend
