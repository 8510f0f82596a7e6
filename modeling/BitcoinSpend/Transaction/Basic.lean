import BitcoinSpend.Error
import BitcoinSpend.Network
import BitcoinSpend.Script.Instruction

namespace BitcoinSpend

-- An output of an earlier transaction. The id is in the order it is shown in.
structure Outpoint where
  txid : FixedBytes 32
  index : UInt32
deriving DecidableEq

-- Spends an output. The unlocking script has to satisfy the one that locks it.
structure Input where
  previous : Outpoint
  unlocking : Script
  sequence : UInt32
deriving DecidableEq

structure Output where
  amount : UInt64
  locking : Script
deriving DecidableEq

structure Transaction where
  version : UInt32
  inputs : List Input
  outputs : List Output
  locktime : UInt32
  network : Network
deriving DecidableEq

def Input.same (a b : Input) : Bool :=
  a.previous = b.previous ∧ a.unlocking.same b.unlocking ∧ a.sequence = b.sequence

def Output.same (a b : Output) : Bool :=
  a.amount = b.amount ∧ a.locking.same b.locking

namespace Transaction

-- Equality that takes both forms of the empty push for one.
def same (a b : Transaction) : Bool :=
  a.version = b.version ∧ a.inputs.isEqv b.inputs Input.same ∧
    a.outputs.isEqv b.outputs Output.same ∧ a.locktime = b.locktime ∧ a.network = b.network

-- The outpoint that is no output of any transaction.
def noOutpoint : Outpoint :=
  ⟨⟨List.replicate 32 0, List.length_replicate⟩, 0xffffffff⟩

-- A coinbase creates coins and spends no output.
def coinbaseInput? (tx : Transaction) : Option Input :=
  match tx.inputs with
  | [input] => if input.previous = noOutpoint then some input else none
  | _ => none

def isCoinbase (tx : Transaction) : Bool :=
  tx.coinbaseInput?.isSome

-- A coinbase starts its unlocking script with a push of the block height, of
-- which four bytes count.
def coinbaseHeight (tx : Transaction) : Option UInt32 := do
  let input ← tx.coinbaseInput?
  let first ← input.unlocking.head?
  let data ← first.pushed?
  return UInt32.ofNat (Bytes.toNatLE (data.take 4))

end Transaction

end BitcoinSpend
