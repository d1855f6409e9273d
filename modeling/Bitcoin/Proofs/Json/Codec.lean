import Bitcoin.Json.Codec
import Bitcoin.Proofs.Address
import Bitcoin.Proofs.Hex
import Bitcoin.Proofs.Json.Syntax
import Bitcoin.Proofs.Transaction.Decoding

/-!
# Data types are read back

The fields of a record whose names are different are found by their names (`Json.fields?_struct`).
So transactions, unspent outputs and limits are read back from their text, up to the structure of
scripts, and what is read back has the same text (`Json.ofText?_render`).
-/

namespace Bitcoin

/-! ### Fields -/

namespace Json

/-- A member is found by its name, if no name occurs twice. -/
theorem member?_of_mem {members : List (String × Json)} (h : (members.map Prod.fst).Nodup)
    {member : String × Json} (hmember : member ∈ members) :
  member? members member.1 = some member.2
  := by
  obtain ⟨front, back, rfl⟩ := List.append_of_mem hmember
  rw [List.map_append, List.map_cons, List.nodup_middle, ← List.map_append] at h
  have hother : ∀ other ∈ front ++ back, ¬ (other.1 == member.1) = true := by
    intro other hmem heq
    apply (List.nodup_cons.mp h).1
    rw [← eq_of_beq heq]
    apply List.mem_map_of_mem hmem
  obtain ⟨hfront, hback⟩ := List.forall_mem_append.mp hother
  have hfilter : (front ++ member :: back).filter (·.1 == member.1) = [member] :=
    List.filter_eq_cons_iff.mpr
      ⟨front, back, rfl, hfront, beq_self_eq_true _, List.filter_eq_nil_iff.mpr hback⟩
  rw [member?, hfilter]

/-- The fields of a record are found by their names, if these are different. -/
theorem fields?_struct {members : List (String × Json)} {names : List String}
    (hnames : members.map Prod.fst = names) (h : names.Nodup) :
  (Json.struct members).fields? names = some (members.map Prod.snd)
  := by
  subst hnames
  have hmembers : (members.map fun m => (some m.1, m.2)).mapM
      (fun m => m.1.map fun name => (name, m.2)) = some members := by
    rw [List.mapM_map]
    apply (mapM_eq_some_of_forall (g := id) fun _ _ => rfl).trans
    rw [List.map_id]
  have hvalues : (members.map Prod.fst).mapM (member? members) = some (members.map Prod.snd) := by
    rw [List.mapM_map]
    exact mapM_eq_some_of_forall fun _ => member?_of_mem h
  exact (bind_of_eq_some hmembers _).trans hvalues

/-- A number is read as one of some width if it is small enough for it. -/
theorem natBelow?_nat {bound n : Nat} (h : n < bound) :
  (Json.nat n).natBelow? bound = some n
  := by
  rw [Json.nat, natBelow?, if_pos ⟨Int.natCast_nonneg n, Int.ofNat_lt.mpr h⟩]
  rfl

theorem uint32?_nat (n : UInt32) :
  (Json.nat n.toNat).uint32? = some n
  := by
  rw [uint32?, natBelow?_nat n.toNat_lt, Option.map_some, UInt32.ofNat_toNat]

theorem uint64?_nat (n : UInt64) :
  (Json.nat n.toNat).uint64? = some n
  := by
  rw [uint64?, natBelow?_nat n.toNat_lt, Option.map_some, UInt64.ofNat_toNat]

/-- A list is read item by item. -/
theorem list?_array {α β : Type} {item? : Json → Option β} {toJson : α → Json} {f : α → β}
    (h : ∀ x, item? (toJson x) = some (f x)) (xs : List α) :
  (Json.array (xs.map toJson)).list? item? = some (xs.map f)
  := by
  rw [list?, List.mapM_map]
  exact mapM_eq_some_of_forall fun x _ => h x

end Json

/-! ### Records -/

theorem decodeHex_encode (bytes : Bytes) :
  decodeHex (Hex.encode bytes) = .ok bytes
  := by
  rw [decodeHex, Hex.decode, Hex.encode, String.toList_ofList, Hex.decodeChars_encodeChars]
  rfl

/-- A hash is read back from its text, which has its bytes in the opposite order. -/
theorem Hash256.ofJson?_toJson (hash : Hash256) :
  ofJson? hash.toJson = some hash
  := by
  have htext : hash.toJson.text? = some hash.toHex := rfl
  rw [ofJson?, bind_of_eq_some htext, ofHex, toHex, bind_of_eq_ok (decodeHex_encode _), ofBytes,
    FixedBytes.reverse, List.reverse_reverse, FixedBytes.ofList?_toList]
  rfl

/-- A script is read back from the digits of its bytes. -/
theorem Script.ofJson?_toJson (script : Script) :
  ofJson? script.toJson = some script.asRead
  := by
  have htext : script.toJson.text? = some script.toHex := rfl
  rw [ofJson?, bind_of_eq_some htext, ofHex, toHex, decodeHex_encode]
  rfl

/-- An input is read back, with its script as bytes. -/
theorem Input.ofJson?_toJson (input : Input) :
  ofJson? input.toJson = some input.asRead
  := by
  have hfields : input.toJson.fields? ["outpoint", "outpoint_index", "script", "sequence_num"]
      = some [input.outpoint.transaction.toJson, .nat input.outpoint.index.toNat,
        input.script.toJson, .nat input.sequence.toNat] :=
    Json.fields?_struct rfl (by decide)
  rw [ofJson?, bind_of_eq_some hfields]
  dsimp only
  rw [bind_of_eq_some (Hash256.ofJson?_toJson _), bind_of_eq_some (Json.uint32?_nat _),
    bind_of_eq_some (Script.ofJson?_toJson _), bind_of_eq_some (Json.uint32?_nat _)]
  rfl

/-- An output is read back, with its script as bytes. -/
theorem Output.ofJson?_toJson (output : Output) :
  ofJson? output.toJson = some output.asRead
  := by
  have hfields : output.toJson.fields? ["value", "script"]
      = some [.nat output.value.toNat, output.script.toJson] :=
    Json.fields?_struct rfl (by decide)
  rw [ofJson?, bind_of_eq_some hfields]
  dsimp only
  rw [bind_of_eq_some (Json.uint64?_nat _), bind_of_eq_some (Script.ofJson?_toJson _)]
  rfl

/-- A transaction is read back, with its scripts as bytes. -/
theorem Transaction.ofJson?_toJson (tx : Transaction) :
  ofJson? tx.toJson = some tx.asRead
  := by
  have hfields : tx.toJson.fields? ["version", "inputs", "outputs", "lock_time"]
      = some [.nat tx.version.toNat, .array (tx.inputs.map Input.toJson),
        .array (tx.outputs.map Output.toJson), .nat tx.lockTime.toNat] :=
    Json.fields?_struct rfl (by decide)
  rw [ofJson?, bind_of_eq_some hfields]
  dsimp only
  rw [bind_of_eq_some (Json.uint32?_nat _),
    bind_of_eq_some (Json.list?_array Input.ofJson?_toJson _),
    bind_of_eq_some (Json.list?_array Output.ofJson?_toJson _),
    bind_of_eq_some (Json.uint32?_nat _)]
  rfl

/-- An unspent output as it is read back, with its script as bytes. -/
def Unspent.asRead (unspent : Unspent) : Unspent :=
  { unspent with script := unspent.script.asRead }

/-- Whether unspent outputs are equal; their scripts are if they have the same bytes. -/
structure Unspent.Same (unspent unspent' : Unspent) : Prop where
  outpoint : unspent.outpoint = unspent'.outpoint
  value : unspent.value = unspent'.value
  script : unspent.script.same unspent'.script = true
  confirmations : unspent.confirmations = unspent'.confirmations

theorem Unspent.same_asRead (unspent : Unspent) :
  unspent.asRead.Same unspent
  := ⟨rfl, rfl, unspent.script.same_asRead, rfl⟩

/-- An unspent output is read back, with its script as bytes. -/
theorem Unspent.ofJson?_toJson (unspent : Unspent) :
  ofJson? unspent.toJson = some unspent.asRead
  := by
  have hfields : unspent.toJson.fields?
      ["transaction_hash", "outpoint_index", "value", "script", "num_confirmations"]
      = some [unspent.outpoint.transaction.toJson, .nat unspent.outpoint.index.toNat,
        .nat unspent.value.toNat, unspent.script.toJson, .nat unspent.confirmations.toNat] :=
    Json.fields?_struct rfl (by decide)
  rw [ofJson?, bind_of_eq_some hfields]
  dsimp only
  rw [bind_of_eq_some (Hash256.ofJson?_toJson _), bind_of_eq_some (Json.uint32?_nat _),
    bind_of_eq_some (Json.uint64?_nat _), bind_of_eq_some (Script.ofJson?_toJson _),
    bind_of_eq_some (Json.uint32?_nat _)]
  rfl

/-- Whether limits are words of 64 bits. -/
structure Limits.Fits (limits : Limits) : Prop where
  stackSize : limits.stackSize < UInt64.size
  branchDepth : limits.branchDepth < UInt64.size
  numberLength : limits.numberLength < UInt64.size

/-- Limits are read back if they are numbers that a machine word has room for. -/
theorem Limits.ofJson?_toJson {limits : Limits} (h : limits.Fits) :
  ofJson? limits.toJson = some limits
  := by
  have hfields : limits.toJson.fields? ["max_stack_size", "max_branch_depth", "max_num_len"]
      = some [.nat limits.stackSize, .nat limits.branchDepth, .nat limits.numberLength] :=
    Json.fields?_struct rfl (by decide)
  rw [ofJson?, bind_of_eq_some hfields]
  dsimp only
  rw [bind_of_eq_some (Json.natBelow?_nat h.stackSize),
    bind_of_eq_some (Json.natBelow?_nat h.branchDepth),
    bind_of_eq_some (Json.natBelow?_nat h.numberLength)]

/-! ### What is read back is written as before -/

/-- Nothing that is written of a transaction tells how its scripts are kept. -/
theorem Transaction.toJson_asRead (tx : Transaction) :
  tx.asRead.toJson = tx.toJson
  := by
  rw [toJson, toJson, asRead, List.map_map, List.map_map]
  rfl

theorem Unspent.toJson_asRead (unspent : Unspent) :
  unspent.asRead.toJson = unspent.toJson
  := rfl

/-! ### Texts -/

open Json

theorem Input.isReadBack_toJson (input : Input) :
  input.toJson.IsReadBack
  := by
  apply IsReadBack.struct
  simp only [List.forall_mem_cons]
  exact ⟨.text _, .integer _, .text _, .integer _, List.forall_mem_nil _⟩

theorem Output.isReadBack_toJson (output : Output) :
  output.toJson.IsReadBack
  := by
  apply IsReadBack.struct
  simp only [List.forall_mem_cons]
  exact ⟨.integer _, .text _, List.forall_mem_nil _⟩

/-- The text of a transaction is read back to its value. -/
theorem Transaction.isReadBack_toJson (tx : Transaction) :
  tx.toJson.IsReadBack
  := by
  apply IsReadBack.struct
  simp only [List.forall_mem_cons]
  refine ⟨.integer _, .array ?_, .array ?_, .integer _, List.forall_mem_nil _⟩
  · exact List.forall_mem_map.mpr fun input _ => input.isReadBack_toJson
  · exact List.forall_mem_map.mpr fun output _ => output.isReadBack_toJson

/-- The text of an unspent output is read back to its value. -/
theorem Unspent.isReadBack_toJson (unspent : Unspent) :
  unspent.toJson.IsReadBack
  := by
  apply IsReadBack.struct
  simp only [List.forall_mem_cons]
  exact ⟨.text _, .integer _, .integer _, .text _, .integer _, List.forall_mem_nil _⟩

/-- The text of limits is read back to their value. -/
theorem Limits.isReadBack_toJson (limits : Limits) :
  limits.toJson.IsReadBack
  := by
  apply IsReadBack.struct
  simp only [List.forall_mem_cons]
  exact ⟨.integer _, .integer _, .integer _, List.forall_mem_nil _⟩

namespace Json

/-- What a text of structured data denotes. -/
def ofText? {α : Type} (ofJson? : Json → Option α) (text : String) : Option α := do
  let value ← parse? text
  ofJson? value

/-- Reading a text that is read back to a value is reading the value. -/
theorem IsReadBack.ofText?_eq {α : Type} {value : Json} (h : value.IsReadBack)
    (ofJson? : Json → Option α) :
  ofText? ofJson? value.render = ofJson? value
  := bind_of_eq_some h.parse?_render ofJson?

/-- Transactions, unspent outputs and limits of 64 bits are read back from their texts: what is read
is equal to what was written, and is written as the same text. -/
theorem ofText?_render :
  (∀ tx : Transaction, ∃ tx', ofText? Transaction.ofJson? tx.toJson.render = some tx'
      ∧ tx'.Same tx ∧ tx'.toJson.render = tx.toJson.render)
    ∧ (∀ unspent : Unspent, ∃ unspent',
      ofText? Unspent.ofJson? unspent.toJson.render = some unspent'
      ∧ unspent'.Same unspent ∧ unspent'.toJson.render = unspent.toJson.render)
    ∧ ∀ limits : Limits, limits.Fits → ∃ limits',
      ofText? Limits.ofJson? limits.toJson.render = some limits'
      ∧ limits' = limits ∧ limits'.toJson.render = limits.toJson.render
  := by
  refine ⟨?_, ?_, ?_⟩
  · intro tx
    refine ⟨tx.asRead, ?_, tx.same_asRead, by rw [tx.toJson_asRead]⟩
    rw [tx.isReadBack_toJson.ofText?_eq, tx.ofJson?_toJson]
  · intro unspent
    refine ⟨unspent.asRead, ?_, unspent.same_asRead, by rw [unspent.toJson_asRead]⟩
    rw [unspent.isReadBack_toJson.ofText?_eq, unspent.ofJson?_toJson]
  · intro limits h
    refine ⟨limits, ?_, rfl, rfl⟩
    rw [limits.isReadBack_toJson.ofText?_eq, Limits.ofJson?_toJson h]

/-- The greatest limits, and a transaction with the greatest amount and an assembled script. -/
theorem ofText?_render_greatest :
  let limits : Limits := ⟨0xffffffffffffffff, 0xffffffffffffffff, 0xffffffffffffffff⟩
  let tx : Transaction := ⟨1, [], [⟨0xffffffffffffffff, .assembled (.op .one .done)⟩], 0⟩
  limits.Fits ∧ ofText? Limits.ofJson? limits.toJson.render = some limits
    ∧ ∃ tx', ofText? Transaction.ofJson? tx.toJson.render = some tx' ∧ tx'.Same tx
      ∧ tx'.toJson.render = tx.toJson.render
  := by
  intro limits tx
  have hfits : limits.Fits := ⟨by decide, by decide, by decide⟩
  obtain ⟨htransactions, _, hlimits⟩ := ofText?_render
  obtain ⟨limits', hread, rfl, _⟩ := hlimits limits hfits
  exact ⟨hfits, hread, htransactions tx⟩

end Json

end Bitcoin
