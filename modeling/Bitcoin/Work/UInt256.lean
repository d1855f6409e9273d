import Bitcoin.Error

/-!
# Words of 256 bits

A `UInt256` is four words of 64 bits, the least significant first. Shifts move bits across
the borders of the words, and bits that leave the whole are lost.
-/

namespace Bitcoin

/-- A word of 256 bits. -/
structure UInt256 where
  (w₀ w₁ w₂ w₃ : UInt64)
deriving DecidableEq, Inhabited

namespace UInt256

/-- The word without any bit. -/
def zero : UInt256 :=
  ⟨0, 0, 0, 0⟩

/-- The word with the bits of a shorter one. -/
def ofUInt64 (n : UInt64) : UInt256 :=
  ⟨n, 0, 0, 0⟩

/-- The word with the bits of a shorter one. -/
def ofUInt32 (n : UInt32) : UInt256 :=
  ofUInt64 n.toUInt64

/-- The number that a word denotes. -/
def toNat (x : UInt256) : Nat :=
  x.w₀.toNat
    + UInt64.size * (x.w₁.toNat + UInt64.size * (x.w₂.toNat + UInt64.size * x.w₃.toNat))

/-- Whether no bit is set. -/
def isZero (x : UInt256) : Bool :=
  x.w₀ == 0 && x.w₁ == 0 && x.w₂ == 0 && x.w₃ == 0

/-- The number of bits up to the highest one of a word of 64 bits. -/
def bits64 (w : UInt64) : Nat :=
  if w = 0 then 0 else w.toNat.log2 + 1

/-- The number of bits up to the highest one. -/
def bits (x : UInt256) : Nat :=
  if x.w₃ ≠ 0 then 192 + bits64 x.w₃
  else if x.w₂ ≠ 0 then 128 + bits64 x.w₂
  else if x.w₁ ≠ 0 then 64 + bits64 x.w₁
  else bits64 x.w₀

/-- The bits that a word of 64 bits hands on to the next one in a shift to the left by
fewer than 64 places. -/
def carryLeft (w k : UInt64) : UInt64 :=
  if k = 0 then 0 else w >>> (64 - k)

/-- The bits that a word of 64 bits hands on to the one before it in a shift to the right
by fewer than 64 places. -/
def carryRight (w k : UInt64) : UInt64 :=
  if k = 0 then 0 else w <<< (64 - k)

/-- Moves the bits to the left by fewer than 64 places. -/
def shiftLeftBits (x : UInt256) (k : UInt64) : UInt256 :=
  ⟨x.w₀ <<< k, x.w₁ <<< k ||| carryLeft x.w₀ k, x.w₂ <<< k ||| carryLeft x.w₁ k,
   x.w₃ <<< k ||| carryLeft x.w₂ k⟩

/-- Moves the bits to the right by fewer than 64 places. -/
def shiftRightBits (x : UInt256) (k : UInt64) : UInt256 :=
  ⟨x.w₀ >>> k ||| carryRight x.w₁ k, x.w₁ >>> k ||| carryRight x.w₂ k,
   x.w₂ >>> k ||| carryRight x.w₃ k, x.w₃ >>> k⟩

/-- Moves whole words to the left. -/
def shiftLeftWords (x : UInt256) : Nat → UInt256
  | 0 => x
  | 1 => ⟨0, x.w₀, x.w₁, x.w₂⟩
  | 2 => ⟨0, 0, x.w₀, x.w₁⟩
  | 3 => ⟨0, 0, 0, x.w₀⟩
  | _ => zero

/-- Moves whole words to the right. -/
def shiftRightWords (x : UInt256) : Nat → UInt256
  | 0 => x
  | 1 => ⟨x.w₁, x.w₂, x.w₃, 0⟩
  | 2 => ⟨x.w₂, x.w₃, 0, 0⟩
  | 3 => ⟨x.w₃, 0, 0, 0⟩
  | _ => zero

/-- Moves the bits to the left. -/
def shiftLeft (x : UInt256) (k : Nat) : UInt256 :=
  (x.shiftLeftWords (k / 64)).shiftLeftBits (UInt64.ofNat (k % 64))

/-- Moves the bits to the right. -/
def shiftRight (x : UInt256) (k : Nat) : UInt256 :=
  (x.shiftRightWords (k / 64)).shiftRightBits (UInt64.ofNat (k % 64))

/-- The order of the numbers, decided by the highest words that differ. -/
def order (x y : UInt256) : Ordering :=
  (compare x.w₃ y.w₃).then ((compare x.w₂ y.w₂).then
    ((compare x.w₁ y.w₁).then (compare x.w₀ y.w₀)))

/-- The 32 bytes of a word, the most significant first. -/
def toBytes (x : UInt256) : FixedBytes 32 :=
  ⟨[x.w₃, x.w₂, x.w₁, x.w₀].flatMap fun w => Bytes.ofNatBE 8 w.toNat, by simp⟩

/-- The word of 64 bits that starts at an offset in a byte string. -/
def wordAt (bytes : Bytes) (offset : Nat) : UInt64 :=
  UInt64.ofNat (Bytes.toNatBE ((bytes.drop offset).take 8))

/-- The word that 32 bytes denote, the most significant first. -/
def ofBytes (bytes : FixedBytes 32) : UInt256 :=
  ⟨wordAt bytes.toList 24, wordAt bytes.toList 16, wordAt bytes.toList 8,
   wordAt bytes.toList 0⟩

/-- The digits behind `0x`, or all characters if that does not come first. -/
def digitsOf : List Char → List Char
  | '0' :: 'x' :: digits => digits
  | digits => digits

/-- The word in a list of hexadecimal digits, with or without `0x`. Up to 64 bytes of
digits are filled up with zeros to 64 characters. -/
def ofHexChars (text : List Char) : Except Error UInt256 := do
  let digits := digitsOf text
  if digits.isEmpty ∨ (Text.utf8 digits).length > 64 then
    .error (.decoding (.not256Bit (String.ofList text)))
  else
    let padded := List.replicate (64 - digits.length) '0' ++ digits
    let size := (Text.utf8 padded).length
    if size % 2 = 0 ∧ size ≠ 64 then .error (.decoding (.hex .wrongLength))
    else
      let bytes ← (Hex.decodeChars padded).mapError fun e => .decoding (.hex e)
      match FixedBytes.ofList? bytes with
      | some bytes => .ok (ofBytes bytes)
      | none => .error (.decoding (.hex .wrongLength))

/-- The word in a hexadecimal text, with or without `0x`. -/
def ofHex (text : String) : Except Error UInt256 :=
  ofHexChars text.toList

/-- The hexadecimal digits of a word behind `0x`, without leading zeros. -/
def display (x : UInt256) : String :=
  let digits := (Hex.encodeChars x.toBytes.toList).dropWhile (· = '0')
  "0x" ++ String.ofList (if digits.isEmpty then ['0'] else digits)

end UInt256

end Bitcoin
