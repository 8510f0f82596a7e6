import BitcoinSpend.Transaction.OutputSet

namespace BitcoinSpend

-- The one sighash type that is supported. It commits to everything but the
-- unlocking scripts.
def sighashAll : UInt32 := 1

namespace Transaction

-- The transaction with the signed script in place of one unlocking script, and
-- without the others.
def signingForm (tx : Transaction) (index : Nat) (signed : Script) : Transaction :=
  { tx with
    inputs := tx.inputs.mapIdx fun i input =>
      { input with unlocking := if i = index then signed else [] } }

-- The bytes whose hash a signature for an input signs. The signed script is
-- the committed one if there is one, and else the one that locks the output.
def sighashPreimage (tx : Transaction) (index : Nat) (type : UInt32) (redeem : Option Script)
    (resolver : Resolver) : Except Error Bytes :=
  if type ≠ sighashAll then .error (.sighashType type)
  else
    match tx.inputs[index]? with
    | none => .error (.inputIndex index)
    | some input => do
        let signed ← match redeem with
          | some script => .ok script
          | none => (resolver input.previous).map Output.locking
        let body ← (tx.signingForm index signed).bytes
        return body ++ writeInteger 4 type.toNat

def sighash (tx : Transaction) (index : Nat) (type : UInt32) (redeem : Option Script)
    (resolver : Resolver) : Except Error Nat := do
  let preimage ← tx.sighashPreimage index type redeem resolver
  return Bytes.toNatBE (hash256 preimage).bytes

end Transaction

end BitcoinSpend
