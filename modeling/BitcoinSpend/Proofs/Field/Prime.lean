import BitcoinSpend.Field.Residue
import Mathlib.FieldTheory.Finite.Basic

namespace BitcoinSpend

theorem natCast_powMod (modulus base exponent : Nat) :
    (powMod modulus base exponent : ZMod modulus) = (base : ZMod modulus) ^ exponent := by
  rw [powMod_eq, ZMod.natCast_mod]
  exact Nat.cast_pow base exponent

theorem natCast_pow_eq_one_iff {modulus base exponent : Nat} (h : 1 < modulus) :
    (base : ZMod modulus) ^ exponent = 1 ↔ powMod modulus base exponent = 1 := by
  rw [powMod_eq, ← Nat.cast_pow, ← Nat.cast_one (R := ZMod modulus), ZMod.natCast_eq_natCast_iff',
    Nat.mod_eq_of_lt h]
  rfl

-- Zero is its own inverse here, except modulo two, where its power is the empty product.
theorem zmod_pow_sub_two {p : Nat} [Fact p.Prime] {x : ZMod p} (h : x ≠ 0 ∨ p ≠ 2) :
    x ^ (p - 2) = x⁻¹ := by
  have h2 := (Fact.out : p.Prime).two_le
  rcases eq_or_ne x 0 with rfl | hx
  · have hp : p ≠ 2 := h.resolve_left (not_not.mpr rfl)
    rw [inv_zero, zero_pow (by omega)]
  · have hs : p - 2 + 1 = p - 1 := by omega
    refine eq_inv_of_mul_eq_one_left ?_
    rw [← pow_succ, hs]
    exact ZMod.pow_card_sub_one_eq_one hx

namespace Residue

variable {p : Nat}

def toZMod (x : Residue p) : ZMod p :=
  x.value

def ofZMod [NeZero p] (x : ZMod p) : Residue p :=
  ⟨x.val, x.val_lt⟩

@[simp]
theorem toZMod_ofZMod [NeZero p] (x : ZMod p) : (ofZMod x).toZMod = x :=
  ZMod.natCast_zmod_val x

theorem toZMod_inj {x y : Residue p} : x.toZMod = y.toZMod ↔ x = y := by
  constructor
  · intro h
    have hv := (ZMod.natCast_eq_natCast_iff' x.value y.value p).mp h
    rw [Nat.mod_eq_of_lt x.value_lt, Nat.mod_eq_of_lt y.value_lt] at hv
    cases x
    cases y
    cases hv
    rfl
  · rintro rfl
    rfl

theorem ofZMod_eq_iff [NeZero p] {x : ZMod p} {y : Residue p} : ofZMod x = y ↔ x = y.toZMod := by
  rw [← toZMod_inj, toZMod_ofZMod]

@[simp]
theorem ofZMod_toZMod [NeZero p] (x : Residue p) : ofZMod x.toZMod = x :=
  ofZMod_eq_iff.mpr rfl

theorem toZMod_eq_zero_iff {x : Residue p} : x.toZMod = 0 ↔ x.value = 0 := by
  have h := (ZMod.natCast_eq_natCast_iff' x.value 0 p)
  rwa [Nat.mod_eq_of_lt x.value_lt, Nat.zero_mod, Nat.cast_zero] at h

@[simp]
theorem toZMod_add (x y : Residue p) : (x + y).toZMod = x.toZMod + y.toZMod := by
  change (((x.value + y.value) % p : Nat) : ZMod p) = _
  rw [ZMod.natCast_mod, Nat.cast_add]
  rfl

@[simp]
theorem toZMod_neg (x : Residue p) : (-x).toZMod = -x.toZMod := by
  change (((p - x.value) % p : Nat) : ZMod p) = _
  rw [ZMod.natCast_mod, Nat.cast_sub x.value_lt.le, ZMod.natCast_self, zero_sub]
  rfl

@[simp]
theorem toZMod_sub (x y : Residue p) : (x - y).toZMod = x.toZMod - y.toZMod := by
  change (((x.value + (p - y.value)) % p : Nat) : ZMod p) = _
  rw [ZMod.natCast_mod, Nat.cast_add, Nat.cast_sub y.value_lt.le, ZMod.natCast_self, zero_sub,
    ← sub_eq_add_neg]
  rfl

@[simp]
theorem toZMod_mul (x y : Residue p) : (x * y).toZMod = x.toZMod * y.toZMod := by
  change ((x.value * y.value % p : Nat) : ZMod p) = _
  rw [ZMod.natCast_mod, Nat.cast_mul]
  rfl

@[simp]
theorem toZMod_scale (x : Residue p) (factor : Nat) :
    (x.scale factor).toZMod = x.toZMod * factor := by
  change ((x.value * factor % p : Nat) : ZMod p) = _
  rw [ZMod.natCast_mod, Nat.cast_mul]
  rfl

variable [Fact p.Prime]

theorem zpow_order_eq_one {x : ZMod p} (hx : x ≠ 0) : x ^ ((p : Int) - 1) = 1 := by
  rw [← Nat.cast_pred (Fact.out : p.Prime).pos, zpow_natCast]
  exact ZMod.pow_card_sub_one_eq_one hx

-- A residue with an inverse has a power for every integer, and the order of the group can be
-- left out of the exponent.
theorem toZMod_pow_of_ne_zero {x : Residue p} (hx : x.toZMod ≠ 0) (n : Int) :
    (x.pow n).toZMod = x.toZMod ^ n := by
  have h2 := (Fact.out : p.Prime).two_le
  have hreduced : ((n % ((p : Int) - 1)).toNat : Int) = n % ((p : Int) - 1) :=
    Int.toNat_of_nonneg (Int.emod_nonneg n (by omega))
  calc (x.pow n).toZMod
    _ = x.toZMod ^ (n % ((p : Int) - 1)).toNat := natCast_powMod p x.value _
    _ = x.toZMod ^ (n % ((p : Int) - 1)) := by rw [← zpow_natCast, hreduced]
    _ = x.toZMod ^ (((p : Int) - 1) * (n / ((p : Int) - 1)) + n % ((p : Int) - 1)) := by
      rw [zpow_add₀ hx, zpow_mul, zpow_order_eq_one hx, one_zpow, one_mul]
    _ = x.toZMod ^ n := by rw [Int.mul_ediv_add_emod]

-- A reduced exponent may make a power of zero the empty product.
theorem toZMod_pow (x : Residue p) (n : Nat) (h : x.toZMod ≠ 0 ∨ n % (p - 1) ≠ 0) :
    (x.pow n).toZMod = x.toZMod ^ n := by
  by_cases hx : x.toZMod = 0
  · have hm : n % (p - 1) ≠ 0 := h.resolve_left (not_not.mpr hx)
    have h0 : n ≠ 0 := by
      rintro rfl
      exact hm (Nat.zero_mod _)
    have hreduced : ((n : Int) % ((p : Int) - 1)).toNat = n % (p - 1) := by
      rw [← Nat.cast_pred (Fact.out : p.Prime).pos, ← Int.natCast_mod, Int.toNat_natCast]
    calc (x.pow n).toZMod
      _ = x.toZMod ^ ((n : Int) % ((p : Int) - 1)).toNat := natCast_powMod p x.value _
      _ = x.toZMod ^ n := by rw [hreduced, hx, zero_pow hm, zero_pow h0]
  · rw [toZMod_pow_of_ne_zero hx, zpow_natCast]

theorem toZMod_div {x y : Residue p} (h : y.toZMod ≠ 0 ∨ p ≠ 2) :
    (x / y).toZMod = x.toZMod / y.toZMod := by
  have h2 := (Fact.out : p.Prime).two_le
  have hexponent : (p : Int) - 2 = ((p - 2 : Nat) : Int) := by omega
  have hreduced : y.toZMod ≠ 0 ∨ (p - 2) % (p - 1) ≠ 0 := by
    rw [Nat.mod_eq_of_lt (by omega)]
    exact h.imp_right (by omega)
  change (x * y.pow ((p : Int) - 2)).toZMod = _
  rw [toZMod_mul, hexponent, toZMod_pow y (p - 2) hreduced, zmod_pow_sub_two h, div_eq_mul_inv]

end Residue

end BitcoinSpend
