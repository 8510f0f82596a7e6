import BitcoinSpend.Error
import BitcoinSpend.Hash.Combined

namespace BitcoinSpend.Base58

-- Digits and letters without the look-alikes 0, I, O and l.
def alphabet : List Char :=
  "123456789ABCDEFGHJKLMNPQRSTUVWXYZabcdefghijkmnopqrstuvwxyz".toList

def digitChar (digit : Nat) : Char :=
  alphabet.getD digit '1'

def digitValue? (char : Char) : Option Nat :=
  alphabet.idxOf? char

-- The number in base 58, after a `1` for each leading zero byte.
def encode (bytes : Bytes) : String :=
  let value := digits 58 (by decide) (Bytes.toNatBE bytes)
  String.ofList (List.replicate (bytes.takeWhile (· = 0)).length '1' ++
    value.reverse.map digitChar)

-- The digits of a text, most significant first. A character outside the
-- alphabet is reported by the first byte of its encoding.
def readDigits : List Char → Except Error (List Nat)
  | [] => .ok []
  | char :: rest =>
      match digitValue? char with
      | none => .error (.base58 (.invalidCharacter ((String.utf8EncodeChar char).headD 0)))
      | some digit => do
          let digits ← readDigits rest
          return digit :: digits

def decode (text : String) : Except Error Bytes := do
  let read ← readDigits text.toList
  let zeros := List.replicate (text.toList.takeWhile (· = '1')).length 0
  return zeros ++ Bytes.minimalBE (ofDigits 58 read.reverse)

-- The checksum is the start of a double digest.
def checksum (payload : Bytes) : Bytes :=
  (hash256 payload).bytes.take 4

def encodeChecked (payload : Bytes) : String :=
  encode (payload ++ checksum payload)

def decodeChecked (text : String) : Except Error Bytes := do
  let bytes ← decode text
  if bytes.length < 4 then throw (.base58 (.noChecksum text))
  let payload := bytes.take (bytes.length - 4)
  if checksum payload ≠ bytes.drop (bytes.length - 4) then throw .badChecksum
  return payload

end BitcoinSpend.Base58
