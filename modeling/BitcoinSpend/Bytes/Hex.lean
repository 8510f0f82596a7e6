import BitcoinSpend.Bytes

namespace BitcoinSpend

inductive HexError where
  | oddLength
  | invalidCharacter (code : UInt8) (position : Nat)
deriving DecidableEq

namespace Hex

-- The lowercase digit of a value below sixteen.
def digitChar (value : UInt8) : Char :=
  if value < 10 then Char.ofUInt8 (value + 48) else Char.ofUInt8 (value + 87)

-- The value of a digit given by its code, in either case.
def digitValue? (code : UInt8) : Option UInt8 :=
  if 48 ≤ code ∧ code ≤ 57 then some (code - 48)
  else if 97 ≤ code ∧ code ≤ 102 then some (code - 87)
  else if 65 ≤ code ∧ code ≤ 70 then some (code - 55)
  else none

def byteChars (byte : UInt8) : List Char :=
  [digitChar (byte / 16), digitChar (byte % 16)]

def encode (bytes : Bytes) : String :=
  String.ofList (bytes.flatMap byteChars)

-- Reads digits in pairs. The first offending code is reported with its position.
def decodePairs (position : Nat) : List UInt8 → Except HexError Bytes
  | high :: low :: rest =>
      match digitValue? high with
      | none => .error (.invalidCharacter high position)
      | some highValue =>
          match digitValue? low with
          | none => .error (.invalidCharacter low (position + 1))
          | some lowValue => do
              let decoded ← decodePairs (position + 2) rest
              return (highValue * 16 + lowValue) :: decoded
  | _ => .ok []

-- The length is judged before any digit is.
def decode (text : String) : Except HexError Bytes :=
  let codes := text.toUTF8.data.toList
  if codes.length % 2 = 1 then .error .oddLength else decodePairs 0 codes

-- A number in lowercase hex without leading zeros.
def ofNat (value : Nat) : String :=
  String.ofList (Nat.toDigits 16 value)

-- A number in lowercase hex, filled with zeros up to `width` characters. A
-- minus sign comes before the zeros and is one of those characters.
def padded (width : Nat) (value : Int) : String :=
  let sign := if value < 0 then "-" else ""
  let shown := ofNat value.natAbs
  sign ++ "".pushn '0' (width - sign.length - shown.length) ++ shown

-- A byte shown as the character with that code, in single quotes. Quotes,
-- backslashes and control characters are escaped.
def quoted (code : UInt8) : String :=
  let shown :=
    if code = 39 then "\\'"
    else if code = 92 then "\\\\"
    else if code = 10 then "\\n"
    else if code = 13 then "\\r"
    else if code = 9 then "\\t"
    else if code = 0 then "\\0"
    else if code < 32 ∨ (127 ≤ code ∧ code ≤ 160) ∨ code = 173 then
      "\\u\x7b" ++ ofNat code.toNat ++ "\x7d"
    else String.singleton (Char.ofUInt8 code)
  "'" ++ shown ++ "'"

end Hex

end BitcoinSpend
