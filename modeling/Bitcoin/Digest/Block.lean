import Bitcoin.Bytes

/-!
# Iterated hashing

The digests work on a message in blocks. `pad` completes a message to whole blocks: a bit
one, zeros, and the length in bits. `absorb` feeds the blocks of a message to a
compression function, and `slide` feeds the sixteen words of one block, and the words
that follow from them, to a round function.
-/

namespace Bitcoin.Digest

/-- The message followed by a bit one, the fewest zeros, and `trailer`, so that the whole
is a multiple of `blockSize` bytes long. -/
def pad (blockSize : Nat) (trailer message : Bytes) : Bytes :=
  let used := message.length + 1 + trailer.length
  let zeros := (blockSize - used % blockSize) % blockSize
  message ++ (0x80 : UInt8) :: (List.replicate zeros (0 : UInt8) ++ trailer)

/-- The state after `count` blocks of the message. -/
def absorb {State : Type} (blockSize : Nat) (compress : State → Bytes → State) :
    (count : Nat) → State → Bytes → State
  | 0, state, _ => state
  | count + 1, state, message =>
    absorb blockSize compress count (compress state (message.take blockSize))
      (message.drop blockSize)

/-- The state after every block of a message of whole blocks. -/
def absorbAll {State : Type} (blockSize : Nat) (compress : State → Bytes → State)
    (initial : State) (message : Bytes) : State :=
  absorb blockSize compress (message.length / blockSize) initial message

/-- The state after one round for each constant. A round takes the first word of the
window, from which `next` then makes the word that enters the window at its end. -/
def slide {State Key Word : Type} (next : List Word → Word)
    (round : State → Key → Word → State) : List Key → List Word → State → State
  | [], _, state => state
  | _, [], state => state
  | key :: keys, word :: words, state =>
    slide next round keys (words ++ [next (word :: words)]) (round state key word)

/-- The 32-bit words of a block, the most significant byte first. -/
def wordsBE32 : Bytes → List UInt32
  | a :: b :: c :: d :: rest =>
    ((a.toUInt32 <<< 24) ||| (b.toUInt32 <<< 16) ||| (c.toUInt32 <<< 8) ||| d.toUInt32)
      :: wordsBE32 rest
  | _ => []

/-- The 32-bit words of a block, the least significant byte first. -/
def wordsLE32 : Bytes → List UInt32
  | a :: b :: c :: d :: rest =>
    ((d.toUInt32 <<< 24) ||| (c.toUInt32 <<< 16) ||| (b.toUInt32 <<< 8) ||| a.toUInt32)
      :: wordsLE32 rest
  | _ => []

/-- The 64-bit words of a block, the most significant byte first. -/
def wordsBE64 : Bytes → List UInt64
  | a :: b :: c :: d :: e :: f :: g :: h :: rest =>
    ((a.toUInt64 <<< 56) ||| (b.toUInt64 <<< 48) ||| (c.toUInt64 <<< 40)
      ||| (d.toUInt64 <<< 32) ||| (e.toUInt64 <<< 24) ||| (f.toUInt64 <<< 16)
      ||| (g.toUInt64 <<< 8) ||| h.toUInt64) :: wordsBE64 rest
  | _ => []

/-- The bits of a 32-bit word moved to the left by `n` places, with those that fall out
entering on the right; `n` lies between 1 and 31. -/
def rotateLeft32 (x n : UInt32) : UInt32 :=
  (x <<< n) ||| (x >>> (32 - n))

/-- The bits of a 32-bit word moved to the right by `n` places, with those that fall out
entering on the left; `n` lies between 1 and 31. -/
def rotateRight32 (x n : UInt32) : UInt32 :=
  (x >>> n) ||| (x <<< (32 - n))

/-- The bits of a 64-bit word moved to the right by `n` places, with those that fall out
entering on the left; `n` lies between 1 and 63. -/
def rotateRight64 (x n : UInt64) : UInt64 :=
  (x >>> n) ||| (x <<< (64 - n))

/-- The four bytes of a word, the most significant first. -/
def bytesBE32 (x : UInt32) : Bytes :=
  Bytes.ofNatBE 4 x.toNat

/-- The four bytes of a word, the least significant first. -/
def bytesLE32 (x : UInt32) : Bytes :=
  Bytes.ofNatLE 4 x.toNat

/-- The eight bytes of a word, the most significant first. -/
def bytesBE64 (x : UInt64) : Bytes :=
  Bytes.ofNatBE 8 x.toNat

end Bitcoin.Digest
