import BitcoinSpend.Hash.Block

namespace BitcoinSpend.Hash.Sha256

structure State where
  a : UInt32
  b : UInt32
  c : UInt32
  d : UInt32
  e : UInt32
  f : UInt32
  g : UInt32
  h : UInt32

def State.add (x y : State) : State :=
  ⟨x.a + y.a, x.b + y.b, x.c + y.c, x.d + y.d, x.e + y.e, x.f + y.f, x.g + y.g, x.h + y.h⟩

def State.bytes (x : State) : Bytes :=
  wordBytesBE x.a ++ wordBytesBE x.b ++ wordBytesBE x.c ++ wordBytesBE x.d ++
    wordBytesBE x.e ++ wordBytesBE x.f ++ wordBytesBE x.g ++ wordBytesBE x.h

-- Fractional parts of the square roots of the first eight primes.
def initial : State :=
  ⟨0x6a09e667, 0xbb67ae85, 0x3c6ef372, 0xa54ff53a, 0x510e527f, 0x9b05688c, 0x1f83d9ab, 0x5be0cd19⟩

-- Fractional parts of the cube roots of the first sixty-four primes.
def constants : List UInt32 :=
  [0x428a2f98, 0x71374491, 0xb5c0fbcf, 0xe9b5dba5, 0x3956c25b, 0x59f111f1, 0x923f82a4, 0xab1c5ed5,
   0xd807aa98, 0x12835b01, 0x243185be, 0x550c7dc3, 0x72be5d74, 0x80deb1fe, 0x9bdc06a7, 0xc19bf174,
   0xe49b69c1, 0xefbe4786, 0x0fc19dc6, 0x240ca1cc, 0x2de92c6f, 0x4a7484aa, 0x5cb0a9dc, 0x76f988da,
   0x983e5152, 0xa831c66d, 0xb00327c8, 0xbf597fc7, 0xc6e00bf3, 0xd5a79147, 0x06ca6351, 0x14292967,
   0x27b70a85, 0x2e1b2138, 0x4d2c6dfc, 0x53380d13, 0x650a7354, 0x766a0abb, 0x81c2c92e, 0x92722c85,
   0xa2bfe8a1, 0xa81a664b, 0xc24b8b70, 0xc76c51a3, 0xd192e819, 0xd6990624, 0xf40e3585, 0x106aa070,
   0x19a4c116, 0x1e376c08, 0x2748774c, 0x34b0bcb5, 0x391c0cb3, 0x4ed8aa4a, 0x5b9cca4f, 0x682e6ff3,
   0x748f82ee, 0x78a5636f, 0x84c87814, 0x8cc70208, 0x90befffa, 0xa4506ceb, 0xbef9a3f7, 0xc67178f2]

def next (window : List UInt32) : UInt32 :=
  let x := window.getD 1 0
  let y := window.getD 14 0
  window.getD 0 0 + (rotateRight 7 x ^^^ rotateRight 18 x ^^^ (x >>> 3)) +
    window.getD 9 0 + (rotateRight 17 y ^^^ rotateRight 19 y ^^^ (y >>> 10))

def round (x : State) (constant word : UInt32) : State :=
  let choice := (x.e &&& x.f) ^^^ (~~~x.e &&& x.g)
  let majority := (x.a &&& x.b) ^^^ (x.a &&& x.c) ^^^ (x.b &&& x.c)
  let first := x.h + (rotateRight 6 x.e ^^^ rotateRight 11 x.e ^^^ rotateRight 25 x.e) +
    choice + constant + word
  let second := (rotateRight 2 x.a ^^^ rotateRight 13 x.a ^^^ rotateRight 22 x.a) + majority
  ⟨first + second, x.a, x.b, x.c, x.d + first, x.e, x.f, x.g⟩

def compress (state : State) (block : List UInt32) : State :=
  state.add ((constants.zip (schedule next 64 block)).foldl (fun x pair => round x pair.1 pair.2) state)

def digest (message : Bytes) : State :=
  (blocksOf (wordsBE (pad (Bytes.ofNatBE 8) message))).foldl compress initial

end BitcoinSpend.Hash.Sha256

namespace BitcoinSpend

def sha256 (message : Bytes) : FixedBytes 32 :=
  ⟨(Hash.Sha256.digest message).bytes, rfl⟩

end BitcoinSpend
