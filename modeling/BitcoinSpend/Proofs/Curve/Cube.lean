import BitcoinSpend.Proofs.Curve.GroupLaw
import BitcoinSpend.Proofs.Field.Power

namespace BitcoinSpend

-- Reducing the exponent changes a power only where it leaves the empty product for one of zero.
theorem Residue.toZMod_pow_eq_iff {p : Nat} [Fact p.Prime] {x : Residue p} {n : Nat} (hn : 1 ≤ n) :
    (x.pow n).toZMod = x.toZMod ^ n ↔ ¬ (x.value = 0 ∧ p - 1 ∣ n) := by
  have hprime : p.Prime := Fact.out
  rw [← toZMod_eq_zero_iff]
  constructor
  · rintro hpow ⟨hzero, hdvd⟩
    have hone : (x.pow n).toZMod = 1 := by
      rw [pow_of_dvd hprime.two_le x hdvd]
      exact Nat.cast_one
    rw [hone, hzero, zero_pow (Nat.ne_of_gt hn)] at hpow
    exact one_ne_zero hpow
  · intro h
    apply toZMod_pow
    rwa [not_and_or, Nat.dvd_iff_mod_eq_zero] at h

namespace Curve

-- Modulo two every cube comes out as one, so that the equation of an abscissa zero is read with
-- another constant.
theorem satisfies_iff_of_prime_eq_two {a b x y : Residue 2} :
    Satisfies ⟨2, a, b⟩ x y ↔
      y.value * y.value % 2 = (1 + a.value * x.value % 2 + b.value) % 2 := by
  have hcube : x.pow 3 = ⟨1, by decide⟩ := Residue.pow_of_dvd (n := 3) (by decide) x (by decide)
  have hequation : Satisfies ⟨2, a, b⟩ x y ↔
      y.value * y.value % 2 = ((1 + a.value * x.value % 2) % 2 + b.value) % 2 := by
    rw [Satisfies, rhs, hcube]
    exact Iff.of_eq (Residue.mk.injEq _ _ _ _)
  rw [hequation, Nat.mod_add_mod]

theorem forall_satisfies_iff_modEq_iff {E : Curve} (hprime : E.prime.Prime) {x : Residue E.prime} :
    (∀ y, E.Satisfies x y ↔
      y.value ^ 2 ≡ x.value ^ 3 + E.a.value * x.value + E.b.value [MOD E.prime]) ↔
      ¬ (x.value = 0 ∧ E.prime = 2) := by
  by_cases hp : E.prime = 2
  · obtain ⟨p, a, b⟩ := E
    obtain rfl : p = 2 := hp
    by_cases hzero : x.value = 0
    · apply iff_of_false
      · intro h
        have horigin : Satisfies ⟨2, a, b⟩ x x ↔
          x.value ^ 2 ≡ x.value ^ 3 + a.value * x.value + b.value [MOD 2] := h x
        rw [satisfies_iff_of_prime_eq_two, Nat.ModEq, hzero] at horigin
        omega
      · exact not_not.mpr ⟨hzero, rfl⟩
    · have hone : x.value = 1 := by
        have hlt : x.value < 2 := x.value_lt
        omega
      apply iff_of_true
      · intro y
        change Satisfies ⟨2, a, b⟩ x y ↔
          y.value ^ 2 ≡ x.value ^ 3 + a.value * x.value + b.value [MOD 2]
        rw [satisfies_iff_of_prime_eq_two, Nat.ModEq, hone, pow_two]
        omega
      · exact fun h => hzero h.1
  · have : Fact E.prime.Prime := ⟨hprime⟩
    exact iff_of_true (fun y => satisfies_iff_modEq hp) (fun h => hp h.2)

end Curve

namespace FieldElement

-- A power is the product of copies unless the base is zero and the order of the group divides
-- the exponent: there it is one. With this cube the equation of a curve is the one that is
-- written unless the abscissa is zero and the modulus two.
theorem pow_eq_repeated_iff {x : FieldElement} (hprime : x.prime.Prime) :
    (∀ n : Nat, 1 ≤ n → ∃ product, x.repeated n = .ok product ∧
      product.value = x.value ^ n % x.prime ∧
      (x.pow n = product ↔ ¬ (x.value = 0 ∧ x.prime - 1 ∣ n)) ∧
      (x.prime - 1 ∣ n → x.pow n = x.one)) ∧
    ∀ a b : Residue x.prime,
      (∀ y, Curve.Satisfies ⟨x.prime, a, b⟩ x.residue y ↔
        y.value ^ 2 ≡ x.value ^ 3 + a.value * x.value + b.value [MOD x.prime]) ↔
        ¬ (x.value = 0 ∧ x.prime = 2) := by
  obtain ⟨p, h, x⟩ := x
  have : Fact p.Prime := ⟨hprime⟩
  constructor
  · intro n hn
    obtain ⟨product, hrepeated, hproduct⟩ := exists_repeated_mk h n x
    refine ⟨_, hrepeated, ?_, ?_, ?_⟩
    · apply Residue.value_eq_mod_of_toZMod
      rw [hproduct, Nat.cast_pow]
      rfl
    · rw [← Except.ok.injEq, ← hrepeated, eq_comm, pow, repeated_mk_eq_ok_iff]
      exact Residue.toZMod_pow_eq_iff hn
    · intro hdvd
      rw [pow, Residue.pow_of_dvd h x hdvd]
      rfl
  · intro a b
    exact Curve.forall_satisfies_iff_modEq_iff (E := ⟨p, a, b⟩) hprime

def zeroModulo (p : Nat) (h : 2 ≤ p) : FieldElement :=
  ⟨p, h, ⟨0, Nat.zero_lt_of_lt h⟩⟩

-- The group modulo two has order one, so that no exponent is left.
theorem pow_eq_repeated_iff_zeroModulo :
    (zeroModulo 3 (by decide)).prime.Prime ∧ 1 ≤ 3 ∧
      (zeroModulo 3 (by decide)).repeated 3 = .ok ((zeroModulo 3 (by decide)).pow 3) ∧
      (zeroModulo 2 (by decide)).prime.Prime ∧
      (zeroModulo 2 (by decide)).pow 3 = (zeroModulo 2 (by decide)).one ∧
      ∀ a b : Residue 2, ¬ ∀ y, Curve.Satisfies ⟨2, a, b⟩ (⟨0, by decide⟩ : Residue 2) y ↔
        y.value ^ 2 ≡ 0 ^ 3 + a.value * 0 + b.value [MOD 2] := by
  have hthree : (zeroModulo 3 (by decide)).prime.Prime := Nat.prime_three
  have htwo : (zeroModulo 2 (by decide)).prime.Prime := Nat.prime_two
  obtain ⟨product, hrepeated, -, heq, -⟩ := (pow_eq_repeated_iff hthree).1 3 (by decide)
  obtain ⟨_, -, -, -, hone⟩ := (pow_eq_repeated_iff htwo).1 3 (by decide)
  have hcube : (zeroModulo 3 (by decide)).pow 3 = product := heq.mpr (by decide)
  refine ⟨hthree, by decide, hcube ▸ hrepeated, htwo, hone (by decide), ?_⟩
  intro a b h
  exact ((pow_eq_repeated_iff htwo).2 a b).mp h ⟨rfl, rfl⟩

theorem not_forall_pow_eq_repeated :
    ¬ ∀ x : FieldElement, x.prime.Prime → ∀ n : Nat, 1 ≤ n → x.repeated n = .ok (x.pow n) := by
  intro h
  let zero := zeroModulo 2 (by decide)
  have hproduct : zero.repeated 3 = .ok zero := by decide
  have hone : zero.pow 3 = zero.one := by decide +kernel
  have hpow := h zero Nat.prime_two 3 (by decide)
  rw [Nat.cast_ofNat, hproduct, hone] at hpow
  exact absurd hpow (by decide)

end FieldElement

end BitcoinSpend
