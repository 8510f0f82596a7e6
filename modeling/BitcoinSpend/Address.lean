import BitcoinSpend.Base58
import BitcoinSpend.Network

namespace BitcoinSpend.Address

-- The address that pays to the owner of a key.
def ofKeyHash (network : Network) (hash : FixedBytes 20) : String :=
  Base58.encodeChecked (network.keyVersion :: hash.bytes)

-- The address that pays to whoever knows a script.
def ofScriptHash (network : Network) (hash : FixedBytes 20) : String :=
  Base58.encodeChecked (network.scriptVersion :: hash.bytes)

-- The hash in an address of either kind. Its version byte is not looked at.
def hash (text : String) : Except Error (FixedBytes 20) := do
  let payload ← Base58.decodeChecked text
  if h : payload.length = 21 then return ⟨payload.drop 1, by rw [List.length_drop, h]⟩
  else throw (.base58 (.addressLength payload.length))

end BitcoinSpend.Address
