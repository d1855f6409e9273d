import Bitcoin.Digest.Block

/-!
# RIPEMD-160

`Ripemd160.digest` hashes a byte string to 20 bytes. Two lines of 80 steps run over each
block and are joined at its end.
-/

namespace Bitcoin.Ripemd160

open Digest

/-- The five working words. -/
structure State where
  (a b c d e : UInt32)
deriving DecidableEq

/-- The words before any message. -/
def initial : State :=
  ⟨0x67452301, 0xefcdab89, 0x98badcfe, 0x10325476, 0xc3d2e1f0⟩

/-- The five functions that mix three words, one for each group of sixteen steps. -/
def mix (group : Nat) (x y z : UInt32) : UInt32 :=
  match group with
  | 0 => x ^^^ y ^^^ z
  | 1 => (x &&& y) ||| (~~~x &&& z)
  | 2 => (x ||| ~~~y) ^^^ z
  | 3 => (x &&& z) ||| (y &&& ~~~z)
  | _ => x ^^^ (y ||| ~~~z)

/-- What one step does: the mixing function, the constant, the message word it adds and
the distance it rotates by. -/
structure Step where
  group : Nat
  constant : UInt32
  word : Nat
  rotation : UInt32
deriving DecidableEq

/-- The steps of a line, from the mixing functions and the constants of its groups, and
from the words and rotations of its steps. -/
def line (groups : List (Nat × UInt32)) (words : List Nat) (rotations : List UInt32) :
    List Step :=
  let keys := groups.flatMap fun key => List.replicate 16 key
  List.zipWith (fun key use => ⟨key.1, key.2, use.1, use.2⟩) keys (words.zip rotations)

/-- The steps of the left line. -/
def leftLine : List Step :=
  line [(0, 0), (1, 0x5a827999), (2, 0x6ed9eba1), (3, 0x8f1bbcdc), (4, 0xa953fd4e)]
    [0, 1, 2, 3, 4, 5, 6, 7, 8, 9, 10, 11, 12, 13, 14, 15,
     7, 4, 13, 1, 10, 6, 15, 3, 12, 0, 9, 5, 2, 14, 11, 8,
     3, 10, 14, 4, 9, 15, 8, 1, 2, 7, 0, 6, 13, 11, 5, 12,
     1, 9, 11, 10, 0, 8, 12, 4, 13, 3, 7, 15, 14, 5, 6, 2,
     4, 0, 5, 9, 7, 12, 2, 10, 14, 1, 3, 8, 11, 6, 15, 13]
    [11, 14, 15, 12, 5, 8, 7, 9, 11, 13, 14, 15, 6, 7, 9, 8,
     7, 6, 8, 13, 11, 9, 7, 15, 7, 12, 15, 9, 11, 7, 13, 12,
     11, 13, 6, 7, 14, 9, 13, 15, 14, 8, 13, 6, 5, 12, 7, 5,
     11, 12, 14, 15, 14, 15, 9, 8, 9, 14, 5, 6, 8, 6, 5, 12,
     9, 15, 5, 11, 6, 8, 13, 12, 5, 12, 13, 14, 11, 8, 5, 6]

/-- The steps of the right line. -/
def rightLine : List Step :=
  line [(4, 0x50a28be6), (3, 0x5c4dd124), (2, 0x6d703ef3), (1, 0x7a6d76e9), (0, 0)]
    [5, 14, 7, 0, 9, 2, 11, 4, 13, 6, 15, 8, 1, 10, 3, 12,
     6, 11, 3, 7, 0, 13, 5, 10, 14, 15, 8, 12, 4, 9, 1, 2,
     15, 5, 1, 3, 7, 14, 6, 9, 11, 8, 12, 2, 10, 0, 4, 13,
     8, 6, 4, 1, 3, 11, 15, 0, 5, 12, 2, 13, 9, 7, 10, 14,
     12, 15, 10, 4, 1, 5, 8, 7, 6, 2, 13, 14, 0, 3, 9, 11]
    [8, 9, 9, 11, 13, 15, 15, 5, 7, 7, 8, 11, 14, 14, 12, 6,
     9, 13, 15, 7, 12, 8, 9, 11, 7, 7, 12, 7, 6, 15, 13, 11,
     9, 7, 15, 11, 8, 6, 6, 14, 12, 13, 5, 14, 13, 13, 7, 5,
     15, 5, 8, 11, 14, 14, 6, 14, 6, 9, 12, 9, 12, 5, 15, 8,
     8, 5, 12, 9, 12, 5, 14, 6, 8, 13, 6, 5, 15, 13, 11, 11]

/-- One step on a block of sixteen words. -/
def step (block : List UInt32) (s : State) (p : Step) : State :=
  let sum := s.a + mix p.group s.b s.c s.d + block.getD p.word 0 + p.constant
  ⟨s.e, rotateLeft32 sum p.rotation + s.e, s.b, rotateLeft32 s.c 10, s.d⟩

/-- The state after one more block of 64 bytes. -/
def compress (s : State) (block : Bytes) : State :=
  let words := wordsLE32 block
  let l := leftLine.foldl (step words) s
  let r := rightLine.foldl (step words) s
  ⟨s.b + l.c + r.d, s.c + l.d + r.e, s.d + l.e + r.a, s.e + l.a + r.b, s.a + l.b + r.c⟩

/-- The bytes of the working words. -/
def State.toBytes (s : State) : FixedBytes 20 :=
  ⟨[s.a, s.b, s.c, s.d, s.e].flatMap bytesLE32, by simp [bytesLE32]⟩

/-- The RIPEMD-160 digest of a byte string. -/
def digest (message : Bytes) : FixedBytes 20 :=
  let trailer := Bytes.ofNatLE 8 (8 * message.length)
  (absorbAll 64 compress initial (pad 64 trailer message)).toBytes

end Bitcoin.Ripemd160
