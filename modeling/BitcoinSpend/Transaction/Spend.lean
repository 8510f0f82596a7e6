import BitcoinSpend.PrivateKey
import BitcoinSpend.Script.Machine
import BitcoinSpend.Transaction.Sighash

namespace BitcoinSpend.Transaction

def totalAmount : List Output → Nat
  | [] => 0
  | output :: outputs => output.amount.toNat + totalAmount outputs

-- What the spent outputs hold beyond the new ones. It may be negative.
def fee (tx : Transaction) (resolver : Resolver) : Except Error Int := do
  let spent ← tx.inputs.mapM fun input => resolver input.previous
  return (totalAmount spent : Int) - totalAmount tx.outputs

-- The last element that an unlocking script pushes, where the committed script
-- has to be.
def committed? (unlocking : Script) : Option Bytes :=
  unlocking.getLast?.bind Instruction.pushed?

-- What the locks in the scripts of an input are compared with.
def lockFields (tx : Transaction) (input : Input) : LockFields :=
  ⟨tx.version, tx.locktime, input.sequence⟩

-- Runs both scripts of an input as one.
def runInput (tx : Transaction) (index : Nat) (input : Input) (locking : Script)
    (redeem : Option Script) (resolver : Resolver) : Except Error Bool := do
  let hash ← tx.sighash index sighashAll redeem resolver
  Script.evaluate (input.unlocking ++ locking) hash (some (tx.lockFields input))

-- Whether an input may spend its output. The output is looked up once for the script to
-- run, and once more for the hash if the hash covers that script.
def verifyInputWith (tx : Transaction) (index : Nat) (running hashing : Resolver) :
    Except Error Bool :=
  match tx.inputs[index]? with
  | none => .error (.inputIndex index)
  | some input => do
      let spent ← running input.previous
      match spent.locking.scriptHash? with
      | none => tx.runInput index input spent.locking none hashing
      | some _ =>
          match committed? input.unlocking with
          | none => return false
          | some raw => do
              let redeem ← Script.ofBytes raw
              tx.runInput index input spent.locking (some redeem) hashing

-- Both lookups have one answer.
def verifyInput (tx : Transaction) (index : Nat) (resolver : Resolver) : Except Error Bool :=
  tx.verifyInputWith index resolver resolver

-- Whether no value is created and every input may spend its output.
def verify (tx : Transaction) (resolver : Resolver) : Except Error Bool := do
  let fee ← tx.fee resolver
  if fee < 0 then return false
  (List.range tx.inputs.length).allM fun index => tx.verifyInput index resolver

def setUnlocking (tx : Transaction) (index : Nat) (unlocking : Script) : Transaction :=
  { tx with inputs := tx.inputs.modify index fun input => { input with unlocking := unlocking } }

-- Signs an input that spends a key hash, and verifies it. The output is looked up for
-- the hash to sign, and again in the verification. The signature stays in the
-- transaction whatever the verdict is. Nothing is answered when the draws run out.
def signInputWith (tx : Transaction) (index : Nat) (key : PrivateKey) (type : UInt32)
    (signing running hashing : Resolver) (draws : List Bytes) :
    Option (Transaction × Except Error Bool) :=
  match tx.sighash index type none signing with
  | .error cause => some (tx, .error cause)
  | .ok hash => do
      let signature ← key.sign hash draws
      let signed := tx.setUnlocking index
        [.push (signature.der ++ [type.toUInt8]), .push (Secp256k1.sec true key.point)]
      return (signed, signed.verifyInputWith index running hashing)

-- All lookups have one answer.
def signInput (tx : Transaction) (index : Nat) (key : PrivateKey) (type : UInt32)
    (resolver : Resolver) (draws : List Bytes) : Option (Transaction × Except Error Bool) :=
  tx.signInputWith index key type resolver resolver resolver draws

end BitcoinSpend.Transaction
