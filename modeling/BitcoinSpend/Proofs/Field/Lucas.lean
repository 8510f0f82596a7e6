import BitcoinSpend.Field.Residue
import BitcoinSpend.Proofs.Field.Prime
import Mathlib.NumberTheory.LucasPrimality

namespace BitcoinSpend

-- `powMod` by a recursion that the kernel can run.
def powModWithin (modulus base : Nat) : (steps exponent : Nat) → Nat
  | 0, _ => 1 % modulus
  | steps + 1, exponent =>
      if exponent = 0 then 1 % modulus
      else
        let root := powModWithin modulus base steps (exponent / 2)
        let square := root * root % modulus
        if exponent % 2 = 0 then square else square * base % modulus

theorem powModWithin_eq {modulus base steps exponent : Nat} (h : exponent < 2 ^ steps) :
    powModWithin modulus base steps exponent = powMod modulus base exponent := by
  induction steps generalizing exponent with
  | zero =>
      have he : exponent = 0 := by simpa using h
      subst exponent
      simp [powModWithin, powMod]
  | succ steps ih =>
      have hhalf : exponent / 2 < 2 ^ steps := by
        rw [Nat.pow_succ] at h
        omega
      rw [powModWithin, powMod, ih hhalf]

-- The base has order `n - 1`, which the factors of `n - 1` tell.
def LucasWitness (n base : Nat) (factors : List Nat) : Prop :=
  factors.prod = n - 1 ∧ n < 2 ^ 256 ∧ 1 < n ∧ powModWithin n base 256 (n - 1) = 1 ∧
    ∀ q ∈ factors, powModWithin n base 256 ((n - 1) / q) ≠ 1

instance (n base : Nat) (factors : List Nat) : Decidable (LucasWitness n base factors) :=
  inferInstanceAs (Decidable (_ ∧ _))

theorem prime_of_lucasWitness {n base : Nat} {factors : List Nat}
    (hprime : ∀ q ∈ factors, q.Prime) (h : LucasWitness n base factors) : n.Prime := by
  obtain ⟨hprod, hbound, hn, hone, hne⟩ := h
  have hpow : ∀ exponent ≤ n - 1,
      (base : ZMod n) ^ exponent = 1 ↔ powModWithin n base 256 exponent = 1 := by
    intro exponent he
    rw [powModWithin_eq (by omega), natCast_pow_eq_one_iff hn]
  apply lucas_primality n (base : ZMod n)
  · exact (hpow _ le_rfl).mpr hone
  · intro q hq hd hroot
    have hmem : q ∈ factors := by
      rw [← hprod] at hd
      obtain ⟨r, hr, hqr⟩ := (Prime.dvd_prod_iff hq.prime).mp hd
      rwa [(Nat.prime_dvd_prime_iff_eq hq (hprime r hr)).mp hqr]
    exact hne q hmem ((hpow _ (Nat.div_le_self _ _)).mp hroot)

def SmallPrime (n : Nat) : Prop :=
  2 ≤ n ∧ n < 10000 ∧ ∀ d < 100, 2 ≤ d → d < n → n % d ≠ 0

instance (n : Nat) : Decidable (SmallPrime n) :=
  inferInstanceAs (Decidable (_ ∧ _))

theorem SmallPrime.prime {n : Nat} (h : SmallPrime n) : n.Prime := by
  obtain ⟨h2, hbound, hdiv⟩ := h
  refine Nat.prime_def_le_sqrt.mpr ⟨h2, ?_⟩
  intro d hd hsqrt hdvd
  have hsquare : d * d ≤ n := Nat.le_sqrt.mp hsqrt
  -- The bound on `n` keeps the divisors up to its root below one hundred.
  have hd100 : d < 100 := by
    by_contra hge
    have := Nat.mul_le_mul (Nat.le_of_not_lt hge) (Nat.le_of_not_lt hge)
    omega
  have hlt : d < n := by nlinarith
  exact hdiv d hd100 hd hlt (Nat.mod_eq_zero_of_dvd hdvd)

-- Each entry is certified by small primes and by the entries after it.
structure PrattEntry where
  number : Nat
  base : Nat
  factors : List Nat

def PrattTable : List PrattEntry → Prop
  | [] => True
  | entry :: rest =>
      LucasWitness entry.number entry.base entry.factors ∧
        (∀ q ∈ entry.factors, q ∈ rest.map PrattEntry.number ∨ SmallPrime q) ∧ PrattTable rest

instance decidablePrattTable : (table : List PrattEntry) → Decidable (PrattTable table)
  | [] => inferInstanceAs (Decidable True)
  | _ :: rest =>
      have := decidablePrattTable rest
      inferInstanceAs (Decidable (_ ∧ _))

theorem prime_of_prattTable {table : List PrattEntry} (h : PrattTable table) {n : Nat}
    (hn : n ∈ table.map PrattEntry.number) : n.Prime := by
  induction table generalizing n with
  | nil => exact absurd hn List.not_mem_nil
  | cons entry rest ih =>
      obtain ⟨hw, hfactors, hrest⟩ := h
      have hprime : ∀ q ∈ entry.factors, q.Prime := by
        intro q hq
        rcases hfactors q hq with hmem | hsmall
        · exact ih hrest hmem
        · exact hsmall.prime
      rcases List.mem_cons.mp hn with rfl | hmem
      · exact prime_of_lucasWitness hprime hw
      · exact ih hrest hmem

end BitcoinSpend
