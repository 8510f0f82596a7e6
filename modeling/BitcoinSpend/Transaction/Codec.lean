import BitcoinSpend.Hash.Combined
import BitcoinSpend.Script.Codec
import BitcoinSpend.Transaction.Basic

namespace BitcoinSpend

namespace FixedBytes

def reverse {size : Nat} (x : FixedBytes size) : FixedBytes size :=
  ⟨x.bytes.reverse, by rw [List.length_reverse, x.length_eq]⟩

def read? (size : Nat) (input : Bytes) : Option (FixedBytes size × Bytes) :=
  match h : Bytes.take? size input with
  | none => none
  | some (taken, rest) => some (⟨taken, (Bytes.take?_eq_some_iff.mp h).2⟩, rest)

end FixedBytes

namespace TransactionPart

def orTruncated {α : Type} (part : TransactionPart) (read : Bytes → Option (α × Bytes)) :
    Reader α :=
  Reader.orElse read (.transaction (.truncated part))

def readWord (part : TransactionPart) : Reader UInt32 := do
  let value ← part.orTruncated (readInteger 4)
  return UInt32.ofNat value

end TransactionPart

-- On the wire an id is in the reverse of the order it is shown in.
def Input.read : Reader Input := do
  let txid ← TransactionPart.previousTxid.orTruncated (FixedBytes.read? 32)
  let index ← TransactionPart.previousIndex.readWord
  let unlocking ← Script.read
  let sequence ← TransactionPart.sequence.readWord
  return ⟨⟨txid.reverse, index⟩, unlocking, sequence⟩

def Input.write (input : Input) : Except Error Bytes := do
  let unlocking ← input.unlocking.write
  return input.previous.txid.reverse.bytes ++ writeInteger 4 input.previous.index.toNat ++
    unlocking ++ writeInteger 4 input.sequence.toNat

def Output.read : Reader Output := do
  let amount ← TransactionPart.amount.orTruncated (readInteger 8)
  let locking ← Script.read
  return ⟨UInt64.ofNat amount, locking⟩

def Output.write (output : Output) : Except Error Bytes := do
  let locking ← output.locking.write
  return writeInteger 8 output.amount.toNat ++ locking

namespace Transaction

-- A transaction without inputs cannot be read, since a count of zero marks
-- the form that carries its witnesses apart.
def read (network : Network) : Reader Transaction := do
  let version ← TransactionPart.version.readWord
  let inputCount ← TransactionPart.inputCount.orTruncated readVarInt
  if inputCount = 0 then throw (.transaction .noInputs)
  let inputs ← Reader.many Input.read inputCount
  let outputCount ← TransactionPart.outputCount.orTruncated readVarInt
  let outputs ← Reader.many Output.read outputCount
  let locktime ← TransactionPart.locktime.readWord
  return ⟨version, inputs, outputs, locktime, network⟩

-- The transaction that a whole byte string holds.
def ofBytes (network : Network) (input : Bytes) : Except Error Transaction := do
  let (tx, rest) ← (read network).run input
  if rest ≠ [] then throw (.transaction (.trailingBytes rest.length))
  return tx

def writeAll {α : Type} (write : α → Except Error Bytes) : List α → Except Error Bytes
  | [] => .ok []
  | item :: items => do
      let first ← write item
      let rest ← writeAll write items
      return first ++ rest

def bytes (tx : Transaction) : Except Error Bytes := do
  let inputs ← writeAll Input.write tx.inputs
  let outputs ← writeAll Output.write tx.outputs
  return writeInteger 4 tx.version.toNat ++ writeVarInt tx.inputs.length ++ inputs ++
    writeVarInt tx.outputs.length ++ outputs ++ writeInteger 4 tx.locktime.toNat

-- The id, in the order it is shown in.
def txid (tx : Transaction) : Except Error (FixedBytes 32) := do
  let bytes ← tx.bytes
  return (hash256 bytes).reverse

end Transaction

end BitcoinSpend
