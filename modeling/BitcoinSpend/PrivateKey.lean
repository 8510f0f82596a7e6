import BitcoinSpend.Base58
import BitcoinSpend.Ecdsa.Signing
import BitcoinSpend.Network

namespace BitcoinSpend

-- A secret scalar. Any integer is one, since scalars count modulo the order.
structure PrivateKey where
  secret : Int
deriving DecidableEq

-- What an exported secret says about itself.
structure WifExport where
  key : PrivateKey
  compressed : Bool
  network : Network
deriving DecidableEq

namespace PrivateKey

def point (key : PrivateKey) : Secp256k1.Point :=
  Secp256k1.mul key.secret Secp256k1.generator

def hex (key : PrivateKey) : String :=
  Hex.padded 64 key.secret

def sign (key : PrivateKey) (z : Int) (draws : List Bytes) : Option Signature :=
  Signature.sign key.secret z draws

-- Exports the low 32 bytes of the magnitude of the secret.
def wif (key : PrivateKey) (compressed : Bool) (network : Network) : String :=
  let body := network.wifVersion :: Bytes.ofNatBE 32 key.secret.natAbs
  Base58.encodeChecked (if compressed then body ++ [0x01] else body)

def ofWif (text : String) : Except Error WifExport := do
  let payload ← Base58.decodeChecked text
  match payload with
  | [] => throw (.base58 .emptyWif)
  | version :: body =>
      match Network.ofWifVersion? version with
      | none => throw (.base58 (.unknownWifVersion version))
      | some network =>
          let compressed := body.drop 32 = [0x01]
          if ¬ compressed ∧ body.length ≠ 32 then throw (.base58 (.wifLength payload.length))
          let secret := Bytes.toNatBE (body.take 32)
          if secret = 0 ∨ Secp256k1.order ≤ secret then throw (.format .secretOutOfRange)
          return ⟨⟨secret⟩, compressed, network⟩

end PrivateKey

end BitcoinSpend
