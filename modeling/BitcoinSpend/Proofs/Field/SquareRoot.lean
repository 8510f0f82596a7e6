import BitcoinSpend.Proofs.Field.Power

namespace BitcoinSpend

namespace Residue

variable {p : Nat} [Fact p.Prime]

theorem toZMod_sqrt (hp : p % 4 = 3) (x : Residue p) :
    x.sqrt.toZMod = x.toZMod ^ ((p + 1) / 4) := by
  have hexponent : ((p : Int) + 1) / 4 = ((p + 1) / 4 : Nat) := by omega
  have hreduced : (p + 1) / 4 % (p - 1) = (p + 1) / 4 := Nat.mod_eq_of_lt (by omega)
  rw [sqrt, hexponent]
  exact toZMod_pow x ((p + 1) / 4) (.inr (by omega))

-- The root of a square is one, though not the root that was squared. Twice its
-- exponent is the order of the group and two more.
theorem sqrt_mul_self (hp : p % 4 = 3) (y : Residue p) :
    (y * y).sqrt * (y * y).sqrt = y * y := by
  rw [← toZMod_inj, toZMod_mul, toZMod_sqrt hp, toZMod_mul]
  by_cases hy : y.toZMod = 0
  · have hpos : (p + 1) / 4 ≠ 0 := by omega
    rw [hy, mul_zero, zero_pow hpos, mul_zero]
  · have hsum : 2 * ((p + 1) / 4 + (p + 1) / 4) = p - 1 + 2 := by omega
    rw [← pow_add, ← pow_two, ← pow_mul, hsum, pow_add, ZMod.pow_card_sub_one_eq_one hy, one_mul]

theorem eq_or_eq_neg_of_mul_self_eq {x y : Residue p} (h : x * x = y * y) : x = y ∨ x = -y := by
  rw [← toZMod_inj, toZMod_mul, toZMod_mul] at h
  rw [← toZMod_inj, ← toZMod_inj, toZMod_neg]
  exact mul_self_eq_mul_self_iff.mp h

-- The power that is taken for a root is one only if there is any.
theorem sqrt_mul_sqrt_eq_iff (hp : p % 4 = 3) (x : Residue p) :
    x.sqrt * x.sqrt = x ↔ ∃ y : Residue p, y * y = x := by
  constructor
  · intro h
    exact ⟨x.sqrt, h⟩
  · rintro ⟨y, rfl⟩
    exact sqrt_mul_self hp y

end Residue

namespace FieldElement

instance : Neg FieldElement where
  neg x := { x with residue := -x.residue }

-- The root is one of every square, and it is the element that was squared or its opposite.
theorem sqrt_mul_sqrt_iff {x : FieldElement} (hprime : x.prime.Prime) (hp : x.prime % 4 = 3) :
    (x.sqrt.mul x.sqrt = .ok x ↔ ∃ y : FieldElement, y.SameField x ∧ y.mul y = .ok x) ∧
      ∃ square, x.mul x = .ok square ∧ (square.sqrt = x ∨ square.sqrt = -x) := by
  obtain ⟨p, h, x⟩ := x
  have : Fact p.Prime := ⟨hprime⟩
  constructor
  · rw [sqrt, mul_mk, ok_mk_inj, Residue.sqrt_mul_sqrt_eq_iff hp]
    constructor
    · rintro ⟨y, hy⟩
      exact ⟨⟨p, h, y⟩, rfl, by rw [mul_mk, hy]⟩
    · rintro ⟨⟨_, _, y⟩, hfield, hy⟩
      obtain rfl : _ = p := hfield
      rw [mul_mk, ok_mk_inj] at hy
      exact ⟨y, hy⟩
  · refine ⟨_, mul_mk h x x, ?_⟩
    rcases Residue.eq_or_eq_neg_of_mul_self_eq (Residue.sqrt_mul_self hp x) with hroot | hroot
    · exact .inl (congrArg (mk p h) hroot)
    · exact .inr (congrArg (mk p h) hroot)

def two : FieldElement :=
  ⟨3, by decide, ⟨2, by decide⟩⟩

-- Two is no square modulo three, and its opposite is.
theorem sqrt_mul_sqrt_iff_nonresidue :
    two.prime.Prime ∧ two.prime % 4 = 3 ∧ two.sqrt.mul two.sqrt ≠ .ok two ∧
      (¬ ∃ y : FieldElement, y.SameField two ∧ y.mul y = .ok two) ∧
      ∃ square, two.mul two = .ok square ∧ (square.sqrt = two ∨ square.sqrt = -two) := by
  have hprime : two.prime.Prime := Nat.prime_three
  have hp : two.prime % 4 = 3 := rfl
  have hroot : two.sqrt.mul two.sqrt ≠ .ok two := by decide +kernel
  obtain ⟨hiff, hsquare⟩ := sqrt_mul_sqrt_iff hprime hp
  exact ⟨hprime, hp, hroot, mt hiff.mpr hroot, hsquare⟩

end FieldElement

end BitcoinSpend
