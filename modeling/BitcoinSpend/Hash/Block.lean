import BitcoinSpend.Bytes

namespace BitcoinSpend.Hash

-- What the three digests share: a message is padded to whole blocks of sixteen
-- 32-bit words, and the blocks are worked into a state one after the other.

def rotateLeft (count word : UInt32) : UInt32 :=
  (word <<< count) ||| (word >>> (32 - count))

def rotateRight (count word : UInt32) : UInt32 :=
  (word >>> count) ||| (word <<< (32 - count))

def wordBE (a b c d : UInt8) : UInt32 :=
  (a.toUInt32 <<< 24) ||| (b.toUInt32 <<< 16) ||| (c.toUInt32 <<< 8) ||| d.toUInt32

def wordsBE : Bytes → List UInt32
  | a :: b :: c :: d :: rest => wordBE a b c d :: wordsBE rest
  | _ => []

def wordsLE : Bytes → List UInt32
  | a :: b :: c :: d :: rest => wordBE d c b a :: wordsLE rest
  | _ => []

def wordBytesBE (word : UInt32) : Bytes :=
  [(word >>> 24).toUInt8, (word >>> 16).toUInt8, (word >>> 8).toUInt8, word.toUInt8]

def wordBytesLE (word : UInt32) : Bytes :=
  [word.toUInt8, (word >>> 8).toUInt8, (word >>> 16).toUInt8, (word >>> 24).toUInt8]

-- A one bit, zeros and the message length in bits fill the last block.
def pad (lengthBytes : Nat → Bytes) (message : Bytes) : Bytes :=
  message ++ 0x80 :: List.replicate ((119 - message.length % 64) % 64) 0 ++
    lengthBytes (8 * message.length)

-- The first `count` groups of sixteen words.
def blocks : (count : Nat) → List UInt32 → List (List UInt32)
  | 0, _ => []
  | count + 1, words => words.take 16 :: blocks count (words.drop 16)

def blocksOf (words : List UInt32) : List (List UInt32) :=
  blocks (words.length / 16) words

-- The first `count` words of the sequence that starts with `window` and whose
-- every later word is `next` of the sixteen words before it.
def schedule (next : List UInt32 → UInt32) : (count : Nat) → List UInt32 → List UInt32
  | _, [] => []
  | 0, _ => []
  | count + 1, word :: window =>
      word :: schedule next count (window ++ [next (word :: window)])

end BitcoinSpend.Hash
