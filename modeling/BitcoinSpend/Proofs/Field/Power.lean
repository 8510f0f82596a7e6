import BitcoinSpend.Field.Element
import BitcoinSpend.Proofs.Field.Prime
import Mathlib.Tactic.NormNum.Prime

namespace BitcoinSpend

namespace Residue

variable {p : Nat}

theorem value_eq_mod_of_toZMod {x : Residue p} {n : Nat} (h : x.toZMod = n) : x.value = n % p := by
  rw [← (ZMod.natCast_eq_natCast_iff' x.value n p).mp h, Nat.mod_eq_of_lt x.value_lt]

theorem toZMod_foldl_mul (n : Nat) (total x : Residue p) :
    ((List.replicate n x).foldl (· * ·) total).toZMod = total.toZMod * x.toZMod ^ n := by
  induction n generalizing total with
  | zero => rw [List.replicate_zero, List.foldl_nil, pow_zero, mul_one]
  | succ n ih => rw [List.replicate_succ, List.foldl_cons, ih, toZMod_mul, pow_succ', mul_assoc]

-- An exponent that the order of the group divides is reduced to zero, whatever the base is.
theorem pow_of_dvd (h : 2 ≤ p) (x : Residue p) {n : Nat} (hdvd : p - 1 ∣ n) :
    x.pow n = ⟨1, h⟩ := by
  have hreduced : ((n : Int) % ((p : Int) - 1)).toNat = 0 := by
    rw [← Nat.cast_pred (by omega), ← Int.natCast_mod, Nat.mod_eq_zero_of_dvd hdvd]
    rfl
  have hpower : powMod p x.value 0 = 1 := (powMod_eq p x.value 0).trans (Nat.mod_eq_of_lt h)
  simp only [pow, hreduced, hpower]

variable [Fact p.Prime] {x y : Residue p}

theorem pow_toZMod_ne_zero (hx : x.toZMod ≠ 0) (n : Int) : (x.pow n).toZMod ≠ 0 := by
  rw [toZMod_pow_of_ne_zero hx]
  exact zpow_ne_zero n hx

theorem div_mul_cancel_of_ne_zero (hy : y.toZMod ≠ 0) : x / y * y = x := by
  rw [← toZMod_inj, toZMod_mul, toZMod_div (.inl hy), div_mul_cancel₀ _ hy]

theorem pow_mul_pow (hx : x.toZMod ≠ 0) (m n : Int) : x.pow m * x.pow n = x.pow (m + n) := by
  rw [← toZMod_inj, toZMod_mul, toZMod_pow_of_ne_zero hx, toZMod_pow_of_ne_zero hx,
    toZMod_pow_of_ne_zero hx, zpow_add₀ hx]

theorem pow_pow (hx : x.toZMod ≠ 0) (m n : Int) : (x.pow m).pow n = x.pow (m * n) := by
  rw [← toZMod_inj, toZMod_pow_of_ne_zero (pow_toZMod_ne_zero hx m), toZMod_pow_of_ne_zero hx,
    toZMod_pow_of_ne_zero hx, zpow_mul]

end Residue

namespace FieldElement

-- The unit of the field that an element is in.
def one (x : FieldElement) : FieldElement :=
  { x with residue := ⟨1, x.two_le_prime⟩ }

-- A power by multiplying one copy to the next.
def repeated (x : FieldElement) (n : Nat) : Except Error FieldElement :=
  (List.replicate n x).foldlM mul x.one

section Mk

variable {p : Nat} (h : 2 ≤ p)

theorem ok_mk_inj {x y : Residue p} :
    (.ok ⟨p, h, x⟩ : Except Error FieldElement) = .ok ⟨p, h, y⟩ ↔ x = y := by
  rw [Except.ok.injEq, mk.injEq, heq_eq_eq, eq_self, true_and]

theorem mul_mk (x y : Residue p) : mul ⟨p, h, x⟩ ⟨p, h, y⟩ = .ok ⟨p, h, x * y⟩ :=
  combine_mk _ h x y

theorem div_mk (x y : Residue p) : div ⟨p, h, x⟩ ⟨p, h, y⟩ = .ok ⟨p, h, x / y⟩ :=
  combine_mk _ h x y

theorem foldlM_mul_mk (factors : List (Residue p)) (total : Residue p) :
    (factors.map (mk p h)).foldlM mul ⟨p, h, total⟩ =
      .ok ⟨p, h, factors.foldl (· * ·) total⟩ := by
  induction factors generalizing total with
  | nil => rfl
  | cons x factors ih =>
      rw [List.map_cons, List.foldlM_cons, mul_mk]
      exact ih (total * x)

theorem exists_repeated_mk (n : Nat) (x : Residue p) :
    ∃ y : Residue p, repeated ⟨p, h, x⟩ n = .ok ⟨p, h, y⟩ ∧ y.toZMod = x.toZMod ^ n := by
  have hone : (⟨1, h⟩ : Residue p).toZMod = 1 := Nat.cast_one
  refine ⟨(List.replicate n x).foldl (· * ·) ⟨1, h⟩, ?_, ?_⟩
  · rw [repeated, ← List.map_replicate]
    exact foldlM_mul_mk h (List.replicate n x) ⟨1, h⟩
  · rw [Residue.toZMod_foldl_mul, hone, one_mul]

theorem repeated_mk_eq_ok_iff {n : Nat} {x y : Residue p} :
    repeated ⟨p, h, x⟩ n = .ok ⟨p, h, y⟩ ↔ y.toZMod = x.toZMod ^ n := by
  obtain ⟨power, hrepeated, hpower⟩ := exists_repeated_mk h n x
  rw [hrepeated, ← hpower, Residue.toZMod_inj, ok_mk_inj]
  exact eq_comm

end Mk

-- Any integer is an exponent of an element that is not zero, and division undoes
-- multiplication by it.
theorem repeated_eq_pow {a b : FieldElement} (hprime : b.prime.Prime) (hfield : a.SameField b)
    (hb : b.isZero = false) :
    (a.div b = a.mul (b.pow (b.prime - 2)) ∧ ∃ quotient, a.div b = .ok quotient ∧
      quotient.mul b = .ok a) ∧
      (∀ m n, (b.pow m).mul (b.pow n) = .ok (b.pow (m + n))) ∧
      (∀ m n, (b.pow m).pow n = b.pow (m * n)) ∧
      (∀ n, (b.pow (-n)).mul (b.pow n) = .ok b.one) ∧
      ∀ n : Nat, b.repeated n = .ok (b.pow n) := by
  obtain ⟨p, h, x⟩ := a
  obtain ⟨_, _, y⟩ := b
  obtain rfl : p = _ := hfield
  have : Fact p.Prime := ⟨hprime⟩
  have hy : y.toZMod ≠ 0 := by
    rw [ne_eq, Residue.toZMod_eq_zero_iff]
    exact of_decide_eq_false hb
  refine ⟨⟨?_, _, div_mk h x y, ?_⟩, ?_, ?_, ?_, ?_⟩
  · rw [div_mk, pow, mul_mk]
    rfl
  · rw [mul_mk, Residue.div_mul_cancel_of_ne_zero hy]
  · intro m n
    rw [pow, pow, mul_mk, Residue.pow_mul_pow hy]
    rfl
  · intro m n
    simp only [pow, Residue.pow_pow hy]
  · intro n
    have hone : y.pow 0 = ⟨1, h⟩ := Residue.pow_of_dvd (n := 0) h y (dvd_zero _)
    rw [pow, pow, mul_mk, Residue.pow_mul_pow hy, neg_add_cancel, hone]
    rfl
  · intro n
    rw [pow, repeated_mk_eq_ok_iff, Residue.toZMod_pow_of_ne_zero hy, zpow_natCast]

def three : FieldElement :=
  ⟨31, by decide, ⟨3, by decide⟩⟩

def twentyFour : FieldElement :=
  ⟨31, by decide, ⟨24, by decide⟩⟩

theorem repeated_eq_pow_twentyFour :
    twentyFour.prime.Prime ∧ three.SameField twentyFour ∧ twentyFour.isZero = false ∧
      (∃ quotient, three.div twentyFour = .ok quotient ∧ quotient.mul twentyFour = .ok three) ∧
      (twentyFour.pow (-3)).mul (twentyFour.pow (10 ^ 20)) = .ok (twentyFour.pow (10 ^ 20 - 3)) ∧
      (twentyFour.pow (-3)).pow (-7) = twentyFour.pow 21 ∧
      (twentyFour.pow (-60)).mul (twentyFour.pow 60) = .ok twentyFour.one ∧
      twentyFour.repeated 30 = .ok (twentyFour.pow 30) := by
  have hprime : twentyFour.prime.Prime := by norm_num [twentyFour]
  have hfield : three.SameField twentyFour := by decide
  have hne : twentyFour.isZero = false := by decide
  obtain ⟨⟨-, hdiv⟩, hadd, hmul, hneg, hrepeated⟩ := repeated_eq_pow hprime hfield hne
  exact ⟨hprime, hfield, hne, hdiv, hadd _ _, hmul _ _, hneg _, hrepeated _⟩

end FieldElement

end BitcoinSpend
