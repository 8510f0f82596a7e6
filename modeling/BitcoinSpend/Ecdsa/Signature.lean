import BitcoinSpend.Secp256k1.Basic

namespace BitcoinSpend

-- Both components are below the order, so each takes at most 33 bytes as a
-- signed integer.
@[ext]
structure Signature where
  r : Nat
  s : Nat
  r_lt_order : r < Secp256k1.order
  s_lt_order : s < Secp256k1.order
deriving DecidableEq

namespace Signature

-- `r` is judged before `s`.
def ofInts (r s : Int) : Except Error Signature :=
  if hr : 0 ≤ r ∧ r < Secp256k1.order then
    if hs : 0 ≤ s ∧ s < Secp256k1.order then .ok ⟨r.toNat, s.toNat, by omega, by omega⟩
    else .error (.signature (.outOfRange .s))
  else .error (.signature (.outOfRange .r))

def render (signature : Signature) : String :=
  "Signature(" ++ Hex.ofNat signature.r ++ "," ++ Hex.ofNat signature.s ++ ")"

-- The fewest bytes that hold a number as a signed integer, most significant
-- first. A leading zero keeps the first bit clear.
def derMagnitude (value : Nat) : Bytes :=
  match Bytes.minimalBE value with
  | [] => [0x00]
  | first :: rest => if 0x80 ≤ first then 0x00 :: first :: rest else first :: rest

def derInteger (value : Nat) : Bytes :=
  let magnitude := derMagnitude value
  0x02 :: UInt8.ofNat magnitude.length :: magnitude

def der (signature : Signature) : Bytes :=
  let content := derInteger signature.r ++ derInteger signature.s
  0x30 :: UInt8.ofNat content.length :: content

-- Reads one integer. Leading zeros are accepted, and so is an integer of no bytes.
def readDerInteger (component : Component) : Bytes → Except Error (Nat × Bytes)
  | marker :: rest =>
      if marker ≠ 0x02 then .error (.signature (.wrongIntegerMarker component))
      else
        match rest with
        | [] => .error (.signature (.truncated component))
        | length :: rest =>
            match Bytes.take? length.toNat rest with
            | none => .error (.signature (.truncated component))
            | some (magnitude, rest) => .ok (Bytes.toNatBE magnitude, rest)
  | [] => .error (.signature (.truncated component))

def ofDer (input : Bytes) : Except Error Signature :=
  match input with
  | [] => .error (.signature .missingMarker)
  | marker :: rest =>
      if marker ≠ 0x30 then .error (.signature .wrongMarker)
      else
        match rest with
        | [] => .error (.signature .missingLength)
        | length :: content =>
            if length.toNat ≠ content.length then .error (.signature .wrongLength)
            else do
              let (r, rest) ← readDerInteger .r content
              let (s, rest) ← readDerInteger .s rest
              if rest ≠ [] then throw (.signature .trailingBytes)
              ofInts r s

end Signature

end BitcoinSpend
