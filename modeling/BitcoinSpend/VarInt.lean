import BitcoinSpend.Bytes

namespace BitcoinSpend

-- Reads `size` bytes as a number, least significant first. No number takes
-- more than eight bytes.
def readInteger (size : Nat) (input : Bytes) : Option (Nat × Bytes) :=
  match Bytes.take? (min size 8) input with
  | none => none
  | some (taken, rest) => some (Bytes.toNatLE taken, rest)

def writeInteger (size value : Nat) : Bytes :=
  Bytes.ofNatLE (min size 8) value

-- A length or count. The first byte is the number itself or says how many
-- bytes of it follow, which may be more than it needs.
def readVarInt : Bytes → Option (Nat × Bytes)
  | [] => none
  | first :: rest =>
      if first = 0xfd then readInteger 2 rest
      else if first = 0xfe then readInteger 4 rest
      else if first = 0xff then readInteger 8 rest
      else some (first.toNat, rest)

-- The shortest form of a number below 2 ^ 64.
def writeVarInt (value : Nat) : Bytes :=
  if value < 0xfd then writeInteger 1 value
  else if value < 0x10000 then 0xfd :: writeInteger 2 value
  else if value < 0x100000000 then 0xfe :: writeInteger 4 value
  else 0xff :: writeInteger 8 value

end BitcoinSpend
