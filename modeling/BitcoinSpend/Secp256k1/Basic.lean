import BitcoinSpend.Curve.Point

namespace BitcoinSpend.Secp256k1

-- 2 ^ 256 - 2 ^ 32 - 977
def prime : Nat :=
  0xfffffffffffffffffffffffffffffffffffffffffffffffffffffffefffffc2f

-- The order of the generator.
def order : Nat :=
  0xfffffffffffffffffffffffffffffffebaaedce6af48a03bbfd25e8cd0364141

def curve : Curve where
  prime := prime
  a := ⟨0, by decide⟩
  b := ⟨7, by decide⟩

abbrev Point := BitcoinSpend.Point curve

def generatorX : Residue curve.prime :=
  ⟨0x79be667ef9dcbbac55a06295ce870b07029bfcdb2dce28d959f2815b16f81798, by decide⟩

def generatorY : Residue curve.prime :=
  ⟨0x483ada7726a3c4655da4fbfc0e1108a8fd17b448a68554199c47d08ffb10d4b8, by decide⟩

def generator : Point :=
  .affine generatorX generatorY

-- The point with the given coordinates, which have to be in range and on the curve.
def point (x y : Int) : Except Error Point := do
  let x ← FieldElement.ofInts x prime
  let y ← FieldElement.ofInts y prime
  curve.point x y

-- A multiple of a point, with the scalar first reduced modulo the order.
def mul (k : Int) (P : Point) : Point :=
  BitcoinSpend.Point.mul (k % order) P

end BitcoinSpend.Secp256k1
