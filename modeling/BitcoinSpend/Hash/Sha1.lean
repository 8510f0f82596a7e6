import BitcoinSpend.Hash.Block

namespace BitcoinSpend.Hash.Sha1

structure State where
  a : UInt32
  b : UInt32
  c : UInt32
  d : UInt32
  e : UInt32

def State.add (x y : State) : State :=
  ⟨x.a + y.a, x.b + y.b, x.c + y.c, x.d + y.d, x.e + y.e⟩

def State.bytes (x : State) : Bytes :=
  wordBytesBE x.a ++ wordBytesBE x.b ++ wordBytesBE x.c ++ wordBytesBE x.d ++ wordBytesBE x.e

def initial : State :=
  ⟨0x67452301, 0xefcdab89, 0x98badcfe, 0x10325476, 0xc3d2e1f0⟩

def next (window : List UInt32) : UInt32 :=
  rotateLeft 1 (window.getD 13 0 ^^^ window.getD 8 0 ^^^ window.getD 2 0 ^^^ window.getD 0 0)

def choice (x y z : UInt32) : UInt32 :=
  (x &&& y) ^^^ (~~~x &&& z)

def parity (x y z : UInt32) : UInt32 :=
  x ^^^ y ^^^ z

def majority (x y z : UInt32) : UInt32 :=
  (x &&& y) ^^^ (x &&& z) ^^^ (y &&& z)

def round (mix : UInt32 → UInt32 → UInt32 → UInt32) (constant : UInt32)
    (x : State) (word : UInt32) : State :=
  ⟨rotateLeft 5 x.a + mix x.b x.c x.d + x.e + constant + word, x.a, rotateLeft 30 x.b, x.c, x.d⟩

-- Four passes of twenty rounds, each with its own mixing function and constant.
def compress (state : State) (block : List UInt32) : State :=
  let words := schedule next 80 block
  let first := (words.take 20).foldl (round choice 0x5a827999) state
  let second := ((words.drop 20).take 20).foldl (round parity 0x6ed9eba1) first
  let third := ((words.drop 40).take 20).foldl (round majority 0x8f1bbcdc) second
  state.add ((words.drop 60).foldl (round parity 0xca62c1d6) third)

def digest (message : Bytes) : State :=
  (blocksOf (wordsBE (pad (Bytes.ofNatBE 8) message))).foldl compress initial

end BitcoinSpend.Hash.Sha1

namespace BitcoinSpend

def sha1 (message : Bytes) : FixedBytes 20 :=
  ⟨(Hash.Sha1.digest message).bytes, rfl⟩

end BitcoinSpend
