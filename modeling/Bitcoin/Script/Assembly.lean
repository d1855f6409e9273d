import Bitcoin.Script.Token

/-!
# Scripts in text

In text a script is a sequence of words: a mnemonic, `0x` and data, or the mnemonic of an
explicit push followed by `0x` and the length and by `0x` and the data. `Token.ofText`
reads such a text and `Token.textAll` writes one.
-/

namespace Bitcoin.Token

/-- The characters behind `0x`. -/
def afterHexMark? : List Char → Option (List Char)
  | '0' :: 'x' :: digits => some digits
  | _ => none

/-- The data in a word. -/
def ofHexWord (word : List Char) : Except Error Bytes :=
  match afterHexMark? word with
  | none => .error (.parsing (.notHexWord (String.ofList word)))
  | some digits =>
    (Hex.decodeChars digits).mapError fun cause =>
      .parsing (.badHexWord (String.ofList word) cause)

/-- The length in the word behind the opcode of a push. -/
def ofLengthWord (o : Opcode) (word : List Char) : Except Error Nat :=
  match afterHexMark? word with
  | none => .error (.parsing (.lengthNotHex o (String.ofList word)))
  | some digits =>
    match Numeral.parse? 16 UInt64.size digits with
    | some length => .ok length
    | none => .error (.parsing (.badLength o (String.ofList word)))

/-- The push whose opcode, length and data are given. -/
def ofPushWords (o : Opcode) (kind : PushKind) (length : Nat) (word : List Char) :
    Except Error Token := do
  let data ← ofHexWord word
  if data.length ≠ length then .error (.parsing (.lengthMismatch o length data.length))
  else
    let p ← Push.ofKind kind data
    .ok (.push p)

/-- The opcode whose mnemonic a word is. -/
def ofMnemonic (word : String) : Except Error Opcode :=
  match Opcode.ofName? word with
  | some o => .ok o
  | none => .error (.parsing (.unknownMnemonic word))

/-- The tokens that a sequence of words stands for. -/
def ofWords : List (List Char) → Except Error (List Token)
  | [] => .ok []
  | word :: rest =>
    if (afterHexMark? word).isSome then do
      let data ← ofHexWord word
      let token ← Token.ofData data
      let tokens ← ofWords rest
      .ok (token :: tokens)
    else do
      let o ← ofMnemonic (String.ofList word)
      match PushKind.ofOpcode? o with
      | none =>
        let tokens ← ofWords rest
        .ok (.op o :: tokens)
      | some kind =>
        match rest with
        | [] => .error (.parsing (.lengthMissing o))
        | lengthWord :: rest => do
          let length ← ofLengthWord o lengthWord
          match rest with
          | [] => .error (.parsing (.dataMissing o))
          | dataWord :: rest => do
            let token ← ofPushWords o kind length dataWord
            let tokens ← ofWords rest
            .ok (token :: tokens)

/-- The tokens of a text. -/
def ofText (text : String) : Except Error (List Token) :=
  ofWords (Text.words text.toList)

/-- The text of a sequence of tokens. -/
def textAll (tokens : List Token) : String :=
  " ".intercalate (tokens.map text)

end Bitcoin.Token
