import BitcoinSpend.Bytes

namespace BitcoinSpend.ScriptNumber

-- A number as its magnitude, least significant byte first, with its sign in
-- the top bit of the last byte. A magnitude that needs that bit itself gets
-- one more byte. Zero has no bytes.
def encode (value : Int) : Bytes :=
  let magnitude := Bytes.minimalLE value.natAbs
  match magnitude.getLast? with
  | none => []
  | some top =>
      if 0x80 ≤ top then magnitude ++ [if value < 0 then 0x80 else 0x00]
      else if value < 0 then magnitude.dropLast ++ [top + 0x80]
      else magnitude

-- The number in an element. Elements of more than eight bytes are no numbers.
def decode (element : Bytes) : Option Int :=
  if 8 < element.length then none
  else
    match element.getLast? with
    | none => some 0
    | some top =>
        let magnitude : Int := Bytes.toNatLE (element.dropLast ++ [top % 0x80])
        some (if 0x80 ≤ top then -magnitude else magnitude)

-- An element is false when it is zero in any length and with either sign.
def truth (element : Bytes) : Bool :=
  match element.getLast? with
  | none => false
  | some top => element.dropLast.any (· ≠ 0) ∨ top % 0x80 ≠ 0

-- A count is a number that is not negative.
def decodeCount (element : Bytes) : Option Nat :=
  match decode element with
  | some (.ofNat count) => some count
  | _ => none

def ofBool (value : Bool) : Bytes :=
  encode (if value then 1 else 0)

theorem decodeCount_eq_some_iff {element : Bytes} {count : Nat} :
    decodeCount element = some count ↔ decode element = some (count : Int) := by
  unfold decodeCount
  split
  next value h =>
    rw [h, Option.some.injEq, Option.some.injEq]
    exact Int.ofNat_inj.symm
  next h =>
    constructor
    · intro hc
      cases hc
    · intro hd
      exact absurd hd (h count)

-- A check that fails leaves the empty element.
theorem ofBool_eq_nil_iff {value : Bool} : ofBool value = [] ↔ value = false := by
  cases value <;> simp [ofBool, encode, Bytes.minimalLE, digits]

end BitcoinSpend.ScriptNumber
