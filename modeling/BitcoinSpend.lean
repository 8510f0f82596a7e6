import BitcoinSpend.Proofs.Script.Isolation
import BitcoinSpend.Proofs.Script.Multisig
import BitcoinSpend.Proofs.Script.Number
import BitcoinSpend.Proofs.Script.Structured
import BitcoinSpend.Proofs.Script.Termination
import BitcoinSpend.Proofs.Wire.Encodable
import BitcoinSpend.Proofs.Wire.Form
import BitcoinSpend.Proofs.Wire.Spelling
import BitcoinSpend.Proofs.Wire.Shortest
import BitcoinSpend.Proofs.Wire.Written
import BitcoinSpend.Proofs.Wire.RoundTrip
import BitcoinSpend.Proofs.Wire.Unique
import BitcoinSpend.Proofs.Wire.Frame
import BitcoinSpend.Proofs.Wire.Truncation
import BitcoinSpend.Proofs.Wire.VarInt
import BitcoinSpend.Transaction.Render
import BitcoinSpend.Transaction.Spend
import BitcoinSpend.Proofs.Spend.KeyHash
import BitcoinSpend.Proofs.Spend.ScriptHash
import BitcoinSpend.Proofs.Spend.Threshold
import BitcoinSpend.Proofs.Spend.Sighash
import BitcoinSpend.Proofs.Spend.Signing
import BitcoinSpend.Proofs.Spend.Commitment
import BitcoinSpend.Proofs.Spend.Conservation
import BitcoinSpend.Proofs.Spend.SigningOrder
import BitcoinSpend.Proofs.Field.Prime
import BitcoinSpend.Proofs.Field.Power
import BitcoinSpend.Proofs.Field.SquareRoot
import BitcoinSpend.Proofs.Secp256k1.Sec
import BitcoinSpend.Proofs.Curve.GroupLaw
import BitcoinSpend.Proofs.Curve.Group
import BitcoinSpend.Proofs.Curve.Multiple
import BitcoinSpend.Proofs.Field.Lucas
import BitcoinSpend.Proofs.Secp256k1.Prime
import BitcoinSpend.Proofs.Curve.Jacobian
import BitcoinSpend.Proofs.Secp256k1.Order
import BitcoinSpend.Proofs.Secp256k1.Count
import BitcoinSpend.Proofs.Secp256k1.Canonical
import BitcoinSpend.Proofs.Ecdsa.DerGrammar
import BitcoinSpend.Proofs.Ecdsa.Magnitude
import BitcoinSpend.Proofs.Ecdsa.Der
import BitcoinSpend.Proofs.Ecdsa.Verification
import BitcoinSpend.Proofs.Ecdsa.Signing
import BitcoinSpend.Proofs.Ecdsa.Nonce
import BitcoinSpend.Proofs.Ecdsa.Malleability
import BitcoinSpend.Proofs.Script.Truth
import BitcoinSpend.Proofs.Script.Shortest
import BitcoinSpend.Proofs.Script.Arithmetic
import BitcoinSpend.Proofs.Script.Unreadable
import BitcoinSpend.Proofs.Spend.Mismatch
import BitcoinSpend.Proofs.Spend.SighashType
import BitcoinSpend.Proofs.Spend.FailedSigning
import BitcoinSpend.Proofs.Script.Locks
import BitcoinSpend.Proofs.Script.Locality
import BitcoinSpend.Proofs.Script.ElementSize
import BitcoinSpend.Proofs.Script.Same
import BitcoinSpend.Proofs.Spend.Same
import BitcoinSpend.Proofs.Base58.Numeral
import BitcoinSpend.Proofs.Base58.Bijection
import BitcoinSpend.Proofs.Base58.Checked
import BitcoinSpend.Proofs.Base58.Wif
import BitcoinSpend.Proofs.Base58.Backup
import BitcoinSpend.Proofs.Script.Alternation
import BitcoinSpend.Proofs.Base58.Version
import BitcoinSpend.Proofs.Script.Shuffle
import BitcoinSpend.Proofs.Curve.Closure
import BitcoinSpend.Proofs.Secp256k1.Closure
import BitcoinSpend.Proofs.Curve.Cube
import BitcoinSpend.Proofs.Spend.BlockHeight
