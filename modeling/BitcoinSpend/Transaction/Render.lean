import BitcoinSpend.Script.Template
import BitcoinSpend.Transaction.Codec

namespace BitcoinSpend

def Outpoint.render (outpoint : Outpoint) : String :=
  Hex.encode outpoint.txid.bytes ++ ":" ++ toString outpoint.index

def Output.render (output : Output) : String :=
  toString output.amount ++ ":" ++ output.locking.render

-- The parts of a transaction, one to a line.
def Transaction.render (tx : Transaction) : String :=
  let id := match tx.txid with
    | .ok txid => Hex.encode txid.bytes
    | .error _ => "<unserializable>"
  let lines :=
    ["tx: " ++ id, "version: " ++ toString tx.version, "tx_ins:"] ++
      tx.inputs.map (fun input => input.previous.render) ++ ["tx_outs:"] ++
      tx.outputs.map Output.render ++ ["locktime: " ++ toString tx.locktime]
  "\n".intercalate lines

end BitcoinSpend
