import BitcoinSpend.Proofs.Secp256k1.Count
import BitcoinSpend.Proofs.Secp256k1.Sec
import BitcoinSpend.Reader

namespace BitcoinSpend.Secp256k1

open BitcoinSpend.Curve (satisfies_neg)

theorem value_ne_zero {x y : Residue curve.prime} (h : curve.Satisfies x y) : y.value ≠ 0 := by
  have hequation := (Curve.equation_toZMod_iff prime_ne_two).mpr h
  exact mt Residue.toZMod_eq_zero_iff.mpr (ordinate_ne_zero hequation)

-- The equation as it is written, with powers of integers.
theorem satisfies_iff {x y : Residue curve.prime} :
    curve.Satisfies x y ↔ y.value ^ 2 ≡ x.value ^ 3 + 7 [MOD prime] := by
  have ha : curve.a.value = 0 := rfl
  have h := Curve.satisfies_iff_modEq prime_ne_two (x := x) (y := y)
  rwa [ha, Nat.zero_mul, Nat.add_zero] at h

theorem exists_of_ofInts {value : Nat} {x : FieldElement}
    (h : FieldElement.ofInts value prime = .ok x) :
    ∃ y : Residue curve.prime, y.value = value ∧ x = ⟨curve.prime, by decide, y⟩ := by
  rw [FieldElement.ofInts] at h
  split_ifs at h with hrange
  cases h
  exact ⟨⟨value, Int.ofNat_lt.mp hrange.2.2⟩, rfl, rfl⟩

theorem exists_of_point {x y : Nat} {P : Point} (h : point x y = .ok P) :
    ∃ x' y', x'.value = x ∧ y'.value = y ∧ curve.Satisfies x' y' ∧ P = .affine x' y' := by
  obtain ⟨_, hx, h⟩ := bind_eq_ok_iff.mp h
  obtain ⟨_, hy, h⟩ := bind_eq_ok_iff.mp h
  obtain ⟨x', hx', rfl⟩ := exists_of_ofInts hx
  obtain ⟨y', hy', rfl⟩ := exists_of_ofInts hy
  simp only [Curve.point, Curve.residue?_mk] at h
  split_ifs at h with hcurve
  cases h
  exact ⟨x', y', hx', hy', hcurve, rfl⟩

-- No root is zero, so that changing its sign changes its parity.
theorem exists_of_lift {even : Bool} {x : Residue curve.prime} {P : Point}
    (h : lift even x = .ok P) :
    ∃ y, isEven y = even ∧ curve.Satisfies x y ∧ P = .affine x y := by
  simp only [lift] at h
  split_ifs at h with hroot heven
  · cases h
    exact ⟨_, heven, not_not.mp hroot, rfl⟩
  · cases h
    have hcurve : curve.Satisfies x (curve.rhs x).sqrt := not_not.mp hroot
    refine ⟨_, ?_, satisfies_neg hcurve, rfl⟩
    rw [isEven_neg (value_ne_zero hcurve)]
    exact Bool.not_eq.mpr heven

theorem eq_sec_false {body : Bytes} {x y : Residue curve.prime} (hlength : body.length = 64)
    (hx : x.value = Bytes.toNatBE (body.take 32)) (hy : y.value = Bytes.toNatBE (body.drop 32)) :
    uncompressedTag :: body = sec false (.affine x y) := by
  have hfirst : (body.take 32).length = 32 := by rw [List.length_take, hlength]; rfl
  have hsecond : (body.drop 32).length = 32 := by rw [List.length_drop, hlength]
  change _ = uncompressedTag :: (Bytes.ofNatBE 32 x.value ++ Bytes.ofNatBE 32 y.value)
  rw [hx, hy, Bytes.ofNatBE_toNatBE hfirst, Bytes.ofNatBE_toNatBE hsecond,
    List.take_append_drop]

theorem eq_sec_true {tag : UInt8} {body : Bytes} {x y : Residue curve.prime}
    (htag : tag = evenTag ∨ tag = oddTag) (heven : isEven y = decide (tag = evenTag))
    (hlength : body.length = 32) (hx : x.value = Bytes.toNatBE body) :
    tag :: body = sec true (.affine x y) := by
  have hparity : (if isEven y then evenTag else oddTag) = tag := by
    rw [heven]
    rcases htag with rfl | rfl <;> rfl
  change _ = (if isEven y then evenTag else oddTag) :: Bytes.ofNatBE 32 x.value
  rw [hparity, hx, Bytes.ofNatBE_toNatBE hlength]

-- What is read is written back by the form that the length tells.
theorem eq_sec_of_ofSec {bytes : Bytes} {P : Point} (h : ofSec bytes = .ok P) :
    ∃ x y, P = .affine x y ∧ curve.Satisfies x y ∧
      bytes = sec (decide (bytes.length = 33)) P := by
  cases bytes with
  | nil => cases h
  | cons tag body =>
      rw [ofSec] at h
      split_ifs at h with huncompressed hlength hknown hlength
      · subst huncompressed
        have hlength' : body.length = 64 := not_not.mp hlength
        obtain ⟨x, y, hx, hy, hcurve, rfl⟩ := exists_of_point h
        refine ⟨x, y, rfl, hcurve, ?_⟩
        rw [List.length_cons, hlength']
        exact eq_sec_false hlength' hx hy
      · have hlength' : body.length = 32 := not_not.mp hlength
        simp only at h
        split_ifs at h with hrange
        obtain ⟨y, heven, hcurve, rfl⟩ := exists_of_lift h
        refine ⟨_, y, rfl, hcurve, ?_⟩
        rw [List.length_cons, hlength']
        exact eq_sec_true hknown heven hlength' rfl

-- Each point but infinity has one spelling in either form, and nothing else is read.
theorem ofSec_canonical :
    (∀ (compressed : Bool) (P : Point), P.OnCurve → P ≠ .infinity →
      ofSec (sec compressed P) = .ok P) ∧
    ∀ (bytes : Bytes) (P : Point), ofSec bytes = .ok P →
      ∃ x y, P = .affine x y ∧ P.OnCurve ∧ y.value ^ 2 ≡ x.value ^ 3 + 7 [MOD prime] ∧
        bytes = sec (decide (bytes.length = 33)) P := by
  constructor
  · intro compressed P hcurve hne
    exact ofSec_sec compressed hcurve hne
  · intro bytes P h
    obtain ⟨x, y, rfl, hcurve, hbytes⟩ := eq_sec_of_ofSec h
    exact ⟨x, y, rfl, hcurve, satisfies_iff.mp hcurve, hbytes⟩

theorem ofSec_canonical_oddOrdinate :
    ∃ P : Point, P.OnCurve ∧ P ≠ .infinity ∧ ofSec (oddTag :: Bytes.ofNatBE 32 1) = .ok P ∧
      oddTag :: Bytes.ofNatBE 32 1 = sec true P := by
  have hcurve : (-abscissaOne).OnCurve := satisfies_neg onCurve_abscissaOne
  have hsec : sec true (-abscissaOne) = oddTag :: Bytes.ofNatBE 32 1 := by decide +kernel
  have hne : -abscissaOne ≠ .infinity := by decide
  have hread := ofSec_canonical.1 true (-abscissaOne) hcurve hne
  rw [hsec] at hread
  obtain ⟨x, y, -, -, -, hbytes⟩ := ofSec_canonical.2 _ _ hread
  exact ⟨-abscissaOne, hcurve, hne, hread, hbytes⟩

end BitcoinSpend.Secp256k1
