import BitcoinSpend.Error
import BitcoinSpend.Field.Residue

namespace BitcoinSpend

-- A residue together with its modulus, for fields that are known only at run
-- time. The modulus is not checked to be prime.
structure FieldElement where
  prime : Nat
  two_le_prime : 2 ≤ prime
  residue : Residue prime
deriving DecidableEq

namespace FieldElement

def ofInts (value prime : Int) : Except Error FieldElement :=
  if h : 2 ≤ prime ∧ 0 ≤ value ∧ value < prime then
    .ok ⟨prime.toNat, by omega, value.toNat, by omega⟩
  else .error (.fieldRange value prime)

def value (x : FieldElement) : Nat :=
  x.residue.value

def SameField (x y : FieldElement) : Prop :=
  x.prime = y.prime

instance (x y : FieldElement) : Decidable (x.SameField y) :=
  inferInstanceAs (Decidable (x.prime = y.prime))

-- Applies an operation on residues to two elements of one field.
def combine (operation : {p : Nat} → Residue p → Residue p → Residue p)
    (x y : FieldElement) : Except Error FieldElement :=
  if same : y.SameField x then .ok { x with residue := operation x.residue (y.residue.cast same) }
  else .error .fieldMismatch

theorem combine_mk (operation : {p : Nat} → Residue p → Residue p → Residue p) {p : Nat}
    (h : 2 ≤ p) (x y : Residue p) :
    combine operation ⟨p, h, x⟩ ⟨p, h, y⟩ = .ok ⟨p, h, operation x y⟩ :=
  dif_pos rfl

def add : FieldElement → FieldElement → Except Error FieldElement :=
  combine (· + ·)

def sub : FieldElement → FieldElement → Except Error FieldElement :=
  combine (· - ·)

def mul : FieldElement → FieldElement → Except Error FieldElement :=
  combine (· * ·)

def div : FieldElement → FieldElement → Except Error FieldElement :=
  combine (· / ·)

def pow (x : FieldElement) (exponent : Int) : FieldElement :=
  { x with residue := x.residue.pow exponent }

def scale (x : FieldElement) (factor : Nat) : FieldElement :=
  { x with residue := x.residue.scale factor }

def sqrt (x : FieldElement) : FieldElement :=
  { x with residue := x.residue.sqrt }

def isZero (x : FieldElement) : Bool :=
  x.value = 0

def render (x : FieldElement) : String :=
  "FieldElement_" ++ toString x.prime ++ "(" ++ toString x.value ++ ")"

end FieldElement

end BitcoinSpend
