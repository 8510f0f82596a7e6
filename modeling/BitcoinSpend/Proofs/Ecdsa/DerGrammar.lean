import BitcoinSpend.Ecdsa.Signature
import BitcoinSpend.Proofs.Base58.Numeral
import BitcoinSpend.Reader

namespace BitcoinSpend.Signature

open Secp256k1

-- Two magnitudes laid out as the bytes of a signature. Each length is one byte.
structure Framed (r s bytes : Bytes) : Prop where
  length_r_le : r.length ≤ 255
  length_s_le : s.length ≤ 255
  length_le : bytes.length - 2 ≤ 255
  bytes_eq : bytes = [0x30, UInt8.ofNat (bytes.length - 2), 0x02, UInt8.ofNat r.length] ++ r ++
    [0x02, UInt8.ofNat s.length] ++ s

-- What follows the marker and the length of the whole.
def derContent (r s : Bytes) : Bytes :=
  0x02 :: UInt8.ofNat r.length :: (r ++ 0x02 :: UInt8.ofNat s.length :: s)

theorem framed_iff_derContent {r s bytes : Bytes} :
    Framed r s bytes ↔ r.length ≤ 255 ∧ s.length ≤ 255 ∧ (derContent r s).length ≤ 255 ∧
      bytes = 0x30 :: UInt8.ofNat (derContent r s).length :: derContent r s := by
  have happend : ∀ length : UInt8, [0x30, length, 0x02, UInt8.ofNat r.length] ++ r ++
      [0x02, UInt8.ofNat s.length] ++ s = 0x30 :: length :: derContent r s := by
    intro length
    simp [derContent]
  constructor
  · rintro ⟨hr, hs, hlength, hbytes⟩
    rw [happend] at hbytes
    have htotal : bytes.length - 2 = (derContent r s).length := by
      rw [hbytes]
      rfl
    rw [htotal] at hlength hbytes
    exact ⟨hr, hs, hlength, hbytes⟩
  · rintro ⟨hr, hs, hlength, rfl⟩
    exact ⟨hr, hs, hlength, (happend _).symm⟩

theorem Framed.length_eq {r s bytes : Bytes} (h : Framed r s bytes) :
    bytes.length = r.length + s.length + 6 := by
  have hlength := congrArg List.length h.bytes_eq
  simp only [List.length_append, List.length_cons, List.length_nil] at hlength
  omega

theorem toNat_ofNat_length {bytes : Bytes} (h : bytes.length ≤ 255) :
    (UInt8.ofNat bytes.length).toNat = bytes.length :=
  UInt8.toNat_ofNat_of_lt' (Nat.lt_succ_of_le h)

theorem readDerInteger_eq_ok_iff {component : Component} {input rest : Bytes} {value : Nat} :
    readDerInteger component input = .ok (value, rest) ↔ ∃ magnitude : Bytes,
      magnitude.length ≤ 255 ∧ Bytes.toNatBE magnitude = value ∧
        input = 0x02 :: UInt8.ofNat magnitude.length :: (magnitude ++ rest) := by
  constructor
  · intro hread
    unfold readDerInteger at hread
    split at hread
    next marker tail =>
      split_ifs at hread with hmarker
      split at hread
      · cases hread
      next length body =>
        split at hread
        · cases hread
        next magnitude left htake =>
          cases hread
          obtain ⟨hbody, hlength⟩ := Bytes.take?_eq_some_iff.mp htake
          refine ⟨magnitude, ?_, rfl, ?_⟩
          · exact hlength ▸ Nat.le_of_lt_succ length.toNat_lt
          · rw [not_not.mp hmarker, hlength, UInt8.ofNat_toNat, hbody]
    · cases hread
  · rintro ⟨magnitude, hlength, rfl, rfl⟩
    have htake : Bytes.take? magnitude.length (magnitude ++ rest) = some (magnitude, rest) :=
      Bytes.take?_eq_some_iff.mpr ⟨rfl, rfl⟩
    simp only [readDerInteger, toNat_ofNat_length hlength, htake, ne_eq, not_true_eq_false,
      if_false]

-- The components are judged last, when both magnitudes have been found to fill the bytes.
theorem ofDer_of_framed {r s input : Bytes} (h : Framed r s input) :
    ofDer input = ofInts (Bytes.toNatBE r) (Bytes.toNatBE s) := by
  obtain ⟨hr, hs, hlength, rfl⟩ := framed_iff_derContent.mp h
  have hfirst : readDerInteger .r (derContent r s) =
      .ok (Bytes.toNatBE r, 0x02 :: UInt8.ofNat s.length :: s) :=
    readDerInteger_eq_ok_iff.mpr ⟨r, hr, rfl, rfl⟩
  have hsecond : readDerInteger .s (0x02 :: UInt8.ofNat s.length :: s) =
      .ok (Bytes.toNatBE s, []) :=
    readDerInteger_eq_ok_iff.mpr ⟨s, hs, rfl, by rw [List.append_nil]⟩
  simp only [ofDer, toNat_ofNat_length hlength, hfirst, hsecond, bind, Except.bind, ne_eq,
    not_true_eq_false, if_false]

-- No length byte can point past the end or leave bytes over.
theorem exists_framed_of_ofDer {input : Bytes} {signature : Signature}
    (h : ofDer input = .ok signature) : ∃ r s, Framed r s input := by
  unfold ofDer at h
  split at h
  · cases h
  next marker tail =>
    split_ifs at h with hmarker
    split at h
    · cases h
    next length body =>
      split_ifs at h with hlength
      obtain ⟨⟨x, middle⟩, hfirst, h⟩ := bind_eq_ok_iff.mp h
      obtain ⟨⟨y, last⟩, hsecond, h⟩ := bind_eq_ok_iff.mp h
      obtain ⟨hlast, -⟩ := unless_eq_ok_iff.mp h
      obtain ⟨r, hr, -, rfl⟩ := readDerInteger_eq_ok_iff.mp hfirst
      obtain ⟨s, hs, -, rfl⟩ := readDerInteger_eq_ok_iff.mp hsecond
      rw [not_not.mp hlast, List.append_nil] at hlength ⊢
      have hcontent : length.toNat = (derContent r s).length := not_not.mp hlength
      refine ⟨r, s, framed_iff_derContent.mpr ⟨hr, hs, ?_, ?_⟩⟩
      · exact hcontent ▸ Nat.le_of_lt_succ length.toNat_lt
      · rw [not_not.mp hmarker, ← hcontent, UInt8.ofNat_toNat, derContent]

theorem ofInts_eq_ok_iff {x y : Int} {signature : Signature} :
    ofInts x y = .ok signature ↔
      ((0 ≤ x ∧ x < order) ∧ 0 ≤ y ∧ y < order) ∧ signature.r = x ∧ signature.s = y := by
  rw [ofInts]
  constructor
  · intro h
    split_ifs at h with hx hy
    cases h
    exact ⟨⟨hx, hy⟩, Int.toNat_of_nonneg hx.1, Int.toNat_of_nonneg hy.1⟩
  · rintro ⟨⟨hx, hy⟩, rfl, rfl⟩
    rw [dif_pos hx, dif_pos hy]
    rfl

theorem ofInts_eq (signature : Signature) : ofInts signature.r signature.s = .ok signature := by
  have hr : 0 ≤ (signature.r : Int) ∧ (signature.r : Int) < order :=
    ⟨Int.natCast_nonneg _, Int.ofNat_lt.mpr signature.r_lt_order⟩
  have hs : 0 ≤ (signature.s : Int) ∧ (signature.s : Int) < order :=
    ⟨Int.natCast_nonneg _, Int.ofNat_lt.mpr signature.s_lt_order⟩
  exact ofInts_eq_ok_iff.mpr ⟨⟨hr, hs⟩, rfl, rfl⟩

theorem components_of_framed {r s input : Bytes} {signature : Signature} (hframed : Framed r s input)
    (h : ofDer input = .ok signature) :
    signature.r = Bytes.toNatBE r ∧ signature.s = Bytes.toNatBE s := by
  rw [ofDer_of_framed hframed, ofInts_eq_ok_iff] at h
  exact ⟨Int.ofNat.inj h.2.1, Int.ofNat.inj h.2.2⟩

-- The bytes of two magnitudes in range are read and nothing else is. Two readings agree
-- when no more than the zeros in front of their magnitudes differ.
theorem ofDer_grammar (input : Bytes) :
    (∀ x y : Nat, (∃ signature, ofDer input = .ok signature ∧ signature.r = x ∧ signature.s = y) ↔
      ∃ r s, Framed r s input ∧ (Bytes.toNatBE r = x ∧ Bytes.toNatBE s = y) ∧
        x < order ∧ y < order) ∧
    ∀ (other : Bytes) (signature signature' : Signature) (r s r' s' : Bytes),
      ofDer input = .ok signature → ofDer other = .ok signature' →
      Framed r s input → Framed r' s' other →
      (signature = signature' ↔ Bytes.SameButZeros r r' ∧ Bytes.SameButZeros s s') := by
  constructor
  · intro x y
    constructor
    · rintro ⟨signature, h, rfl, rfl⟩
      obtain ⟨r, s, hframed⟩ := exists_framed_of_ofDer h
      obtain ⟨hr, hs⟩ := components_of_framed hframed h
      exact ⟨r, s, hframed, ⟨hr.symm, hs.symm⟩, signature.r_lt_order, signature.s_lt_order⟩
    · rintro ⟨r, s, hframed, ⟨rfl, rfl⟩, hr, hs⟩
      exact ⟨⟨_, _, hr, hs⟩, (ofDer_of_framed hframed).trans (ofInts_eq ⟨_, _, hr, hs⟩), rfl, rfl⟩
  · intro other signature signature' r s r' s' h h' hframed hframed'
    obtain ⟨hr, hs⟩ := components_of_framed hframed h
    obtain ⟨hr', hs'⟩ := components_of_framed hframed' h'
    rw [Bytes.sameButZeros_iff, Bytes.sameButZeros_iff, Signature.ext_iff, hr, hs, hr', hs']

-- A zero is spelled with one byte and with none.
theorem ofDer_grammar_empty_magnitude :
    ∃ signature, ofDer [0x30, 0x06, 0x02, 0x01, 0x01, 0x02, 0x01, 0x00] = .ok signature ∧
      ofDer [0x30, 0x05, 0x02, 0x01, 0x01, 0x02, 0x00] = .ok signature ∧
      Framed [0x01] [0x00] [0x30, 0x06, 0x02, 0x01, 0x01, 0x02, 0x01, 0x00] ∧
      Framed [0x01] [] [0x30, 0x05, 0x02, 0x01, 0x01, 0x02, 0x00] ∧
      Bytes.SameButZeros [0x01] [0x01] ∧ Bytes.SameButZeros [0x00] [] := by
  have hframed : Framed [0x01] [0x00] [0x30, 0x06, 0x02, 0x01, 0x01, 0x02, 0x01, 0x00] :=
    ⟨by decide, by decide, by decide, rfl⟩
  have hframed' : Framed [0x01] [] [0x30, 0x05, 0x02, 0x01, 0x01, 0x02, 0x00] :=
    ⟨by decide, by decide, by decide, rfl⟩
  have h := (ofDer_of_framed hframed).trans (ofInts_eq ⟨1, 0, by decide, by decide⟩)
  have h' := (ofDer_of_framed hframed').trans (ofInts_eq ⟨1, 0, by decide, by decide⟩)
  have hsame := ((ofDer_grammar _).2 _ _ _ _ _ _ _ h h' hframed hframed').mp rfl
  exact ⟨_, h, h', hframed, hframed', hsame.1, hsame.2⟩

end BitcoinSpend.Signature
