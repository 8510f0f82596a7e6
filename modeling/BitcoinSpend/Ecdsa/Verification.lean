import BitcoinSpend.Ecdsa.Signature

namespace BitcoinSpend

open Secp256k1

-- The inverse modulo the order, which is prime.
def inverseModOrder (value : Nat) : Nat :=
  powMod order value (order - 2)

-- Whether a signature over the hash `z` was made with the secret behind `key`.
def Signature.verifies (signature : Signature) (key : Secp256k1.Point) (z : Int) : Bool :=
  if signature.r = 0 ∨ signature.s = 0 ∨ key = .infinity then false
  else
    let inverse := inverseModOrder signature.s
    match mul (z * inverse) generator + mul (signature.r * inverse : Nat) key with
    | .infinity => false
    | .affine x _ => x.value % order = signature.r

end BitcoinSpend
