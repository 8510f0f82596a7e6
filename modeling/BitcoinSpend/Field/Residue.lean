namespace BitcoinSpend

-- `base ^ exponent` modulo `modulus`, by repeated squaring.
def powMod (modulus base exponent : Nat) : Nat :=
  if exponent = 0 then 1 % modulus
  else
    let root := powMod modulus base (exponent / 2)
    let square := root * root % modulus
    if exponent % 2 = 0 then square else square * base % modulus
termination_by exponent
decreasing_by omega

theorem powMod_eq (modulus base exponent : Nat) :
    powMod modulus base exponent = base.pow exponent % modulus := by
  change powMod modulus base exponent = base ^ exponent % modulus
  fun_induction powMod modulus base exponent with
  | case1 => simp
  | case2 exponent _ root square heven ih =>
      have he : exponent / 2 + exponent / 2 = exponent := by omega
      have hr : root = base ^ (exponent / 2) % modulus := ih
      rw [show square = root * root % modulus from rfl, hr, ← Nat.mul_mod, ← Nat.pow_add, he]
  | case3 exponent _ root square hodd ih =>
      have he : exponent / 2 + exponent / 2 + 1 = exponent := by omega
      have hr : root = base ^ (exponent / 2) % modulus := ih
      rw [show square = root * root % modulus from rfl, hr, ← Nat.mul_mod, ← Nat.pow_add,
        Nat.mod_mul_mod, ← Nat.pow_add_one, he]

-- An integer modulo `modulus`, by its representative from zero up.
structure Residue (modulus : Nat) where
  value : Nat
  value_lt : value < modulus
deriving DecidableEq

namespace Residue

variable {p : Nat}

theorem modulus_pos (x : Residue p) : 0 < p :=
  Nat.zero_lt_of_lt x.value_lt

instance : Add (Residue p) where
  add x y := ⟨(x.value + y.value) % p, Nat.mod_lt _ x.modulus_pos⟩

instance : Neg (Residue p) where
  neg x := ⟨(p - x.value) % p, Nat.mod_lt _ x.modulus_pos⟩

instance : Sub (Residue p) where
  sub x y := ⟨(x.value + (p - y.value)) % p, Nat.mod_lt _ x.modulus_pos⟩

instance : Mul (Residue p) where
  mul x y := ⟨x.value * y.value % p, Nat.mod_lt _ x.modulus_pos⟩

def scale (x : Residue p) (factor : Nat) : Residue p :=
  ⟨x.value * factor % p, Nat.mod_lt _ x.modulus_pos⟩

-- The same residue under another name of the modulus.
def cast {q : Nat} (same : p = q) (x : Residue p) : Residue q :=
  ⟨x.value, same ▸ x.value_lt⟩

theorem powMod_lt (x : Residue p) (base exponent : Nat) : powMod p base exponent < p := by
  rw [powMod_eq]
  exact Nat.mod_lt _ x.modulus_pos

-- The exponent may be any integer and is first reduced modulo `p - 1`, the
-- order of the multiplicative group when `p` is prime.
def pow (x : Residue p) (exponent : Int) : Residue p :=
  ⟨powMod p x.value (exponent % (p - 1)).toNat, x.powMod_lt _ _⟩

-- Division multiplies by `y ^ (p - 2)`, the inverse of `y` when `p` is prime.
instance : Div (Residue p) where
  div x y := x * y.pow (p - 2)

-- A root of `x` when `p` is a prime with `p % 4 = 3` and `x` is a square.
def sqrt (x : Residue p) : Residue p :=
  x.pow ((p + 1) / 4)

end Residue

end BitcoinSpend
