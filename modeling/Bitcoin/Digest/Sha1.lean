import Bitcoin.Digest.Block

/-!
# SHA-1

`Sha1.digest` hashes a byte string to 20 bytes.
-/

namespace Bitcoin.Sha1

open Digest

/-- The five working words. -/
structure State where
  (a b c d e : UInt32)
deriving DecidableEq

/-- The words before any message. -/
def initial : State :=
  ⟨0x67452301, 0xefcdab89, 0x98badcfe, 0x10325476, 0xc3d2e1f0⟩

/-- What distinguishes the rounds: the function that mixes three of the words. -/
inductive Mixing where
  /-- The first word chooses between the other two. -/
  | choice
  /-- The bits are added without carry. -/
  | parity
  /-- The bits that at least two words have. -/
  | majority
deriving DecidableEq

/-- The mixed word. -/
def Mixing.apply (x y z : UInt32) : Mixing → UInt32
  | .choice => (x &&& y) ||| (~~~x &&& z)
  | .parity => x ^^^ y ^^^ z
  | .majority => (x &&& y) ||| (x &&& z) ||| (y &&& z)

/-- The mixing and the constant of each of the 80 rounds. -/
def roundKeys : List (Mixing × UInt32) :=
  List.replicate 20 (.choice, 0x5a827999) ++ List.replicate 20 (.parity, 0x6ed9eba1)
    ++ List.replicate 20 (.majority, 0x8f1bbcdc) ++ List.replicate 20 (.parity, 0xca62c1d6)

/-- The word that follows sixteen words of the message schedule. -/
def nextWord : List UInt32 → UInt32
  | [w0, _, w2, _, _, _, _, _, w8, _, _, _, _, w13, _, _] =>
    rotateLeft32 (w13 ^^^ w8 ^^^ w2 ^^^ w0) 1
  | _ => 0

/-- One round. -/
def round (s : State) (key : Mixing × UInt32) (w : UInt32) : State :=
  let t := rotateLeft32 s.a 5 + key.1.apply s.b s.c s.d + s.e + key.2 + w
  ⟨t, s.a, rotateLeft32 s.b 30, s.c, s.d⟩

/-- The state after one more block of 64 bytes. -/
def compress (s : State) (block : Bytes) : State :=
  let t := slide nextWord round roundKeys (wordsBE32 block) s
  ⟨s.a + t.a, s.b + t.b, s.c + t.c, s.d + t.d, s.e + t.e⟩

/-- The bytes of the working words. -/
def State.toBytes (s : State) : FixedBytes 20 :=
  ⟨[s.a, s.b, s.c, s.d, s.e].flatMap bytesBE32, by simp [bytesBE32]⟩

/-- The SHA-1 digest of a byte string. -/
def digest (message : Bytes) : FixedBytes 20 :=
  let trailer := Bytes.ofNatBE 8 (8 * message.length)
  (absorbAll 64 compress initial (pad 64 trailer message)).toBytes

end Bitcoin.Sha1
