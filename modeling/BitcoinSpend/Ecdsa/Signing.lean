import BitcoinSpend.Ecdsa.Verification

namespace BitcoinSpend

open Secp256k1

-- How many random bytes one draw of a secret below `bound` takes.
def drawLength (bound : Nat) : Nat :=
  max 1 (Bytes.minimalBE bound).length

-- The first drawn number that is a secret below `bound`, if there is one.
def drawSecret (bound : Nat) (draws : List Bytes) : Option Nat :=
  (draws.map Bytes.toNatBE).find? fun secret => 1 ≤ secret ∧ secret < bound

namespace Signature

-- Of a component and its negative the lower one, which verifies as well.
def lowS (s : Nat) : Nat :=
  if order / 2 < s then order - s else s

-- The signature of two components that are positive and below the order.
def ofPositive (r s : Nat) : Option Signature :=
  if h : (0 < r ∧ r < order) ∧ 0 < s ∧ s < order then some ⟨r, s, h.1.2, h.2.2⟩ else none

-- The signature made with the nonce `k`. There is none when a component
-- would be zero.
def ofNonce (secret z : Int) (k : Nat) : Option Signature :=
  match mul k generator with
  | .infinity => none
  | .affine x _ =>
      let r := x.value % order
      let s := ((z + r * secret) * inverseModOrder k % order).toNat
      ofPositive r (lowS s)

-- Signs the hash `z` with the first draw that is a usable nonce. There is no
-- signature when the draws run out.
def sign (secret z : Int) (draws : List Bytes) : Option Signature :=
  (draws.map Bytes.toNatBE).findSome? fun k =>
    if 1 ≤ k ∧ k < order then ofNonce secret z k else none

end Signature

end BitcoinSpend
