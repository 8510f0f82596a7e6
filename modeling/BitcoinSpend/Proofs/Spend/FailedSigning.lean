import BitcoinSpend.Proofs.Script.Unreadable
import BitcoinSpend.Proofs.Spend.Mismatch
import BitcoinSpend.Proofs.Spend.Signing

namespace BitcoinSpend

namespace Transaction

variable {tx after : Transaction} {index : Nat} {input : Input} {spent : Output}
  {signing running hashing resolver : Resolver} {key : PrivateKey} {type : UInt32}
  {draws : List Bytes} {cause : Error}

end Transaction

end BitcoinSpend
