import BitcoinSpend.Hash.Block

namespace BitcoinSpend.Hash.Ripemd160

structure State where
  a : UInt32
  b : UInt32
  c : UInt32
  d : UInt32
  e : UInt32

def State.bytes (x : State) : Bytes :=
  wordBytesLE x.a ++ wordBytesLE x.b ++ wordBytesLE x.c ++ wordBytesLE x.d ++ wordBytesLE x.e

def initial : State :=
  ⟨0x67452301, 0xefcdab89, 0x98badcfe, 0x10325476, 0xc3d2e1f0⟩

-- A pass of sixteen rounds: which word each round reads, and how far it rotates.
structure Pass where
  mix : UInt32 → UInt32 → UInt32 → UInt32
  constant : UInt32
  order : List Nat
  rotations : List UInt32

def mix1 (x y z : UInt32) : UInt32 :=
  x ^^^ y ^^^ z

def mix2 (x y z : UInt32) : UInt32 :=
  (x &&& y) ||| (~~~x &&& z)

def mix3 (x y z : UInt32) : UInt32 :=
  (x ||| ~~~y) ^^^ z

def mix4 (x y z : UInt32) : UInt32 :=
  (x &&& z) ||| (y &&& ~~~z)

def mix5 (x y z : UInt32) : UInt32 :=
  x ^^^ (y ||| ~~~z)

-- The passes of the left line.
def left : List Pass :=
  [⟨mix1, 0x00000000, [0, 1, 2, 3, 4, 5, 6, 7, 8, 9, 10, 11, 12, 13, 14, 15],
      [11, 14, 15, 12, 5, 8, 7, 9, 11, 13, 14, 15, 6, 7, 9, 8]⟩,
   ⟨mix2, 0x5a827999, [7, 4, 13, 1, 10, 6, 15, 3, 12, 0, 9, 5, 2, 14, 11, 8],
      [7, 6, 8, 13, 11, 9, 7, 15, 7, 12, 15, 9, 11, 7, 13, 12]⟩,
   ⟨mix3, 0x6ed9eba1, [3, 10, 14, 4, 9, 15, 8, 1, 2, 7, 0, 6, 13, 11, 5, 12],
      [11, 13, 6, 7, 14, 9, 13, 15, 14, 8, 13, 6, 5, 12, 7, 5]⟩,
   ⟨mix4, 0x8f1bbcdc, [1, 9, 11, 10, 0, 8, 12, 4, 13, 3, 7, 15, 14, 5, 6, 2],
      [11, 12, 14, 15, 14, 15, 9, 8, 9, 14, 5, 6, 8, 6, 5, 12]⟩,
   ⟨mix5, 0xa953fd4e, [4, 0, 5, 9, 7, 12, 2, 10, 14, 1, 3, 8, 11, 6, 15, 13],
      [9, 15, 5, 11, 6, 8, 13, 12, 5, 12, 13, 14, 11, 8, 5, 6]⟩]

-- The passes of the right line, which mixes in the opposite order.
def right : List Pass :=
  [⟨mix5, 0x50a28be6, [5, 14, 7, 0, 9, 2, 11, 4, 13, 6, 15, 8, 1, 10, 3, 12],
      [8, 9, 9, 11, 13, 15, 15, 5, 7, 7, 8, 11, 14, 14, 12, 6]⟩,
   ⟨mix4, 0x5c4dd124, [6, 11, 3, 7, 0, 13, 5, 10, 14, 15, 8, 12, 4, 9, 1, 2],
      [9, 13, 15, 7, 12, 8, 9, 11, 7, 7, 12, 7, 6, 15, 13, 11]⟩,
   ⟨mix3, 0x6d703ef3, [15, 5, 1, 3, 7, 14, 6, 9, 11, 8, 12, 2, 10, 0, 4, 13],
      [9, 7, 15, 11, 8, 6, 6, 14, 12, 13, 5, 14, 13, 13, 7, 5]⟩,
   ⟨mix2, 0x7a6d76e9, [8, 6, 4, 1, 3, 11, 15, 0, 5, 12, 2, 13, 9, 7, 10, 14],
      [15, 5, 8, 11, 14, 14, 6, 14, 6, 9, 12, 9, 12, 5, 15, 8]⟩,
   ⟨mix1, 0x00000000, [12, 15, 10, 4, 1, 5, 8, 7, 6, 2, 13, 14, 0, 3, 9, 11],
      [8, 5, 12, 9, 12, 5, 14, 6, 8, 13, 6, 5, 15, 13, 11, 11]⟩]

def round (mix : UInt32 → UInt32 → UInt32 → UInt32) (constant : UInt32)
    (x : State) (word rotation : UInt32) : State :=
  ⟨x.e, rotateLeft rotation (x.a + mix x.b x.c x.d + word + constant) + x.e, x.b,
    rotateLeft 10 x.c, x.d⟩

def runPass (block : List UInt32) (state : State) (pass : Pass) : State :=
  (pass.order.zip pass.rotations).foldl
    (fun x pair => round pass.mix pass.constant x (block.getD pair.1 0) pair.2) state

def compress (state : State) (block : List UInt32) : State :=
  let x := left.foldl (runPass block) state
  let y := right.foldl (runPass block) state
  ⟨state.b + x.c + y.d, state.c + x.d + y.e, state.d + x.e + y.a, state.e + x.a + y.b,
    state.a + x.b + y.c⟩

def digest (message : Bytes) : State :=
  (blocksOf (wordsLE (pad (Bytes.ofNatLE 8) message))).foldl compress initial

end BitcoinSpend.Hash.Ripemd160

namespace BitcoinSpend

def ripemd160 (message : Bytes) : FixedBytes 20 :=
  ⟨(Hash.Ripemd160.digest message).bytes, rfl⟩

end BitcoinSpend
