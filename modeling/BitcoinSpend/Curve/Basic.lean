import BitcoinSpend.Field.Element

namespace BitcoinSpend

-- The curve `y ^ 2 = x ^ 3 + a * x + b` over the residues modulo `prime`.
structure Curve where
  prime : Nat
  a : Residue prime
  b : Residue prime
deriving DecidableEq

-- The identity, or an affine pair of coordinates. That the pair satisfies the
-- equation is a property of its own, since sums are formed without checking it.
inductive Point (E : Curve) where
  | infinity
  | affine (x y : Residue E.prime)
deriving DecidableEq

namespace Curve

def ofCoefficients (a b : FieldElement) : Except Error Curve :=
  if same : b.SameField a then
    .ok ⟨a.prime, a.residue, b.residue.cast same⟩
  else .error .fieldMismatch

def rhs (E : Curve) (x : Residue E.prime) : Residue E.prime :=
  x.pow 3 + E.a * x + E.b

def Satisfies (E : Curve) (x y : Residue E.prime) : Prop :=
  y * y = E.rhs x

instance (E : Curve) (x y : Residue E.prime) : Decidable (E.Satisfies x y) :=
  inferInstanceAs (Decidable (y * y = E.rhs x))

-- An element as a residue modulo the prime of the curve.
def residue? (E : Curve) (x : FieldElement) : Option (Residue E.prime) :=
  if same : x.prime = E.prime then some (x.residue.cast same) else none

def contains (E : Curve) (x y : FieldElement) : Bool :=
  match E.residue? x, E.residue? y with
  | some x, some y => E.Satisfies x y
  | _, _ => false

-- The affine point with the given coordinates, if it is on the curve.
def point (E : Curve) (x y : FieldElement) : Except Error (Point E) :=
  match E.residue? x, E.residue? y with
  | some x, some y =>
      if E.Satisfies x y then .ok (.affine x y)
      else .error (.notOnCurve x.value (some y.value))
  | _, _ => .error .fieldMismatch

end Curve

end BitcoinSpend
