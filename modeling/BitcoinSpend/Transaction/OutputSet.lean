import BitcoinSpend.Transaction.Codec

namespace BitcoinSpend

-- Finds the output that an outpoint names. An outpoint is taken to have one answer
-- during a call. Where the lookups of a call may be answered differently, each of them
-- has a resolver of its own, as in `verifyInputWith` and `signInputWith`.
abbrev Resolver := Outpoint → Except Error Output

-- Known outputs, at most one for an outpoint.
structure OutputSet where
  entries : List (Outpoint × Output)

namespace OutputSet

def empty : OutputSet :=
  ⟨[]⟩

-- Takes the place of an output that was known for the outpoint.
def insert (set : OutputSet) (outpoint : Outpoint) (output : Output) : OutputSet :=
  ⟨(outpoint, output) :: set.entries.filter fun entry => entry.1 ≠ outpoint⟩

def insertAll (set : OutputSet) (txid : FixedBytes 32) (index : Nat) : List Output → OutputSet
  | [] => set
  | output :: outputs =>
      (set.insert ⟨txid, UInt32.ofNat index⟩ output).insertAll txid (index + 1) outputs

-- Adds every output of a transaction under its id.
def insertTransaction (set : OutputSet) (tx : Transaction) : Except Error OutputSet := do
  let txid ← tx.txid
  return set.insertAll txid 0 tx.outputs

def size (set : OutputSet) : Nat :=
  set.entries.length

def resolve (set : OutputSet) : Resolver := fun outpoint =>
  match set.entries.find? fun entry => entry.1 = outpoint with
  | some entry => .ok entry.2
  | none => .error (.unresolved outpoint.txid outpoint.index)

end OutputSet

end BitcoinSpend
