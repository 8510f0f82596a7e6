import BitcoinSpend.Hash.Combined
import BitcoinSpend.Secp256k1.Basic

namespace BitcoinSpend.Secp256k1

-- The tag of a compressed point says whether its ordinate is even.
def evenTag : UInt8 := 0x02
def oddTag : UInt8 := 0x03
def uncompressedTag : UInt8 := 0x04

def isEven (y : Residue curve.prime) : Bool :=
  y.value % 2 = 0

-- A point as bytes. Infinity is the single byte zero, which is never read back.
def sec (compressed : Bool) : Point → Bytes
  | .infinity => [0x00]
  | .affine x y =>
      if compressed then
        (if isEven y then evenTag else oddTag) :: Bytes.ofNatBE 32 x.value
      else uncompressedTag :: (Bytes.ofNatBE 32 x.value ++ Bytes.ofNatBE 32 y.value)

-- The point with abscissa `x` whose ordinate has the given parity.
def lift (even : Bool) (x : Residue curve.prime) : Except Error Point :=
  let square := curve.rhs x
  let root := square.sqrt
  if root * root ≠ square then .error (.notOnCurve x.value none)
  else .ok (.affine x (if isEven root = even then root else -root))

def ofSec : Bytes → Except Error Point
  | [] => .error (.publicKey .empty)
  | tag :: body =>
      if tag = uncompressedTag then
        if body.length ≠ 64 then .error (.publicKey (.uncompressedLength (body.length + 1)))
        else point (Bytes.toNatBE (body.take 32)) (Bytes.toNatBE (body.drop 32))
      else if tag = evenTag ∨ tag = oddTag then
        if body.length ≠ 32 then .error (.publicKey (.compressedLength (body.length + 1)))
        else
          let x := Bytes.toNatBE body
          if inRange : x < prime then lift (tag = evenTag) ⟨x, inRange⟩
          else .error (.fieldRange x prime)
      else .error (.publicKey (.unknownTag tag))

-- The hash that addresses and locking scripts name a key by.
def keyHash (compressed : Bool) (P : Point) : FixedBytes 20 :=
  hash160 (sec compressed P)

-- Both coordinates as 64 hex digits.
def render : Point → String
  | .infinity => "S256Point(infinity)"
  | .affine x y =>
      "S256Point(" ++ Hex.padded 64 x.value ++ "," ++ Hex.padded 64 y.value ++ ")"

end BitcoinSpend.Secp256k1
