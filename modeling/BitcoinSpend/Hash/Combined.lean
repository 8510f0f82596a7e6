import BitcoinSpend.Hash.Sha256
import BitcoinSpend.Hash.Sha1
import BitcoinSpend.Hash.Ripemd160

namespace BitcoinSpend

-- The digest behind transaction ids, checksums and signatures.
def hash256 (message : Bytes) : FixedBytes 32 :=
  sha256 (sha256 message).bytes

-- The digest behind key and script hashes.
def hash160 (message : Bytes) : FixedBytes 20 :=
  ripemd160 (sha256 message).bytes

end BitcoinSpend
