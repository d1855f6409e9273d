import Bitcoin.Error

/-!
# Numbers in scripts

A script writes an integer as its magnitude, the least significant byte first, with the
sign in the top bit of the last byte; zero is the empty byte string. `ScriptNumber.encode`
uses as few bytes as possible, and `ScriptNumber.decode` accepts any number of leading
zeros within a limit.
-/

namespace Bitcoin.ScriptNumber

/-- The shortest form of an integer. -/
def encode (n : Int) : Bytes :=
  match (Numeral.digits 256 n.natAbs).map UInt8.ofNat with
  | [] => []
  | top :: rest =>
    let signed :=
      if top ≥ 0x80 then (if n < 0 then 0x80 else 0x00) :: top :: rest
      else (if n < 0 then top ||| 0x80 else top) :: rest
    signed.reverse

/-- The integer a byte string denotes, whatever its length. -/
def value (bytes : Bytes) : Int :=
  match bytes.reverse with
  | [] => 0
  | top :: rest =>
    if top ≥ 0x80 then -(Bytes.toNatBE ((top &&& 0x7f) :: rest) : Int)
    else (Bytes.toNatBE (top :: rest) : Int)

/-- The integer that a byte string of at most `limit` bytes denotes; eight bytes are always
the most. -/
def decode (bytes : Bytes) (limit : Nat) : Except Error Int :=
  if bytes.length > limit then .error (.execution (.numberTooLong bytes.length limit))
  else if bytes.length > 8 then .error (.execution .numberTooLarge)
  else .ok (value bytes)

/-- Whether a byte string counts as true: some byte is not zero, apart from the sign. -/
def isTrue (bytes : Bytes) : Bool :=
  match bytes.reverse with
  | [] => false
  | top :: rest => rest.any (· != 0) || top &&& 0x7f != 0

end Bitcoin.ScriptNumber
