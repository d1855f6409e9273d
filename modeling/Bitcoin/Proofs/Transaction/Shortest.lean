import Bitcoin.Proofs.Transaction.Wire
import Bitcoin.Proofs.Wire.Shortest

/-!
# The shortest form of a transaction

Counts and lengths are read in every form of a compact size, and so a transaction may be
decoded from bytes that it is not written as. Among all the bytes it is decoded from, those it is
written as are the shortest, and the only ones of their length (`Transaction.decode_shortest`).
So a transaction is written as it was read if and only if no count or length in it could have
been written shorter; otherwise its name is not that of the bytes that were read
(`Transaction.decode_long_count`).
-/

namespace Bitcoin

open Reader Bytes

theorem Input.takesOnly_read :
  TakesOnly read fun bytes input =>
    OrLonger input.encode bytes ∧ input.script.bytes.length < UInt64.size ∧ input.asRead = input
  := by
  apply (takesOnly_takeFixed 32).bind
  rintro _ transaction rfl
  apply takesOnly_u32.bind
  rintro _ index rfl
  apply CompactSize.takesOnly_readBytes.bind
  rintro script data ⟨hdata, hscript⟩
  apply takesOnly_u32.map
  rintro _ sequence rfl
  refine ⟨?_, hdata, rfl⟩
  rw [encode, List.append_assoc, List.append_assoc]
  apply (OrLonger.refl _).append
  apply (OrLonger.refl _).append
  apply hscript.append (.refl _)

theorem Output.takesOnly_read :
  TakesOnly read fun bytes output =>
    OrLonger output.encode bytes ∧ output.script.bytes.length < UInt64.size
      ∧ output.asRead = output
  := by
  apply takesOnly_u64.bind
  rintro _ value rfl
  apply CompactSize.takesOnly_readBytes.map
  rintro script data ⟨hdata, hscript⟩
  exact ⟨(OrLonger.refl _).append hscript, hdata, rfl⟩

namespace Transaction

/-- A transaction is taken from its form on the wire or from a longer one. -/
theorem takesOnly_read :
  TakesOnly read fun bytes tx => OrLonger tx.encode bytes ∧ tx.Fits ∧ tx.asRead = tx
  := by
  apply takesOnly_u32.bind
  rintro _ version rfl
  apply CompactSize.takesOnly_read.bind
  rintro inputCount _ ⟨hinputCount, hinputSize⟩
  apply (takesOnly_many_of_orLonger Input.takesOnly_read _).bind
  rintro inputBytes inputs ⟨rfl, hinputBytes, hinputs⟩
  apply CompactSize.takesOnly_read.bind
  rintro outputCount _ ⟨houtputCount, houtputSize⟩
  apply (takesOnly_many_of_orLonger Output.takesOnly_read _).bind
  rintro outputBytes outputs ⟨rfl, houtputBytes, houtputs⟩
  apply takesOnly_u32.map
  rintro _ lockTime rfl
  refine ⟨?_, ?_, ?_⟩
  · simp only [encode, List.append_assoc]
    apply (OrLonger.refl _).append
    apply hinputSize.append
    apply hinputBytes.append
    apply houtputSize.append
    apply houtputBytes.append (.refl _)
  · constructor
    · exact hinputCount
    · exact houtputCount
    · exact fun input hinput => (hinputs input hinput).1
    · exact fun output houtput => (houtputs output houtput).1
  · rw [asRead, List.map_congr_left fun input hinput => (hinputs input hinput).2,
      List.map_congr_left fun output houtput => (houtputs output houtput).2, List.map_id',
      List.map_id']

/-- The bytes that a transaction is written as are the shortest of those that it is decoded from
with the same bytes behind it, and the only ones of their length. So a transaction is written as
it was read if and only if it could not have been read from fewer bytes. -/
theorem decode_shortest {bytes rest : Bytes} {tx : Transaction}
    (h : decode bytes = .ok (tx, rest)) :
  decode (tx.encode ++ rest) = .ok (tx, rest)
    ∧ (∃ front, bytes = front ++ rest ∧ OrLonger tx.encode front)
    ∧ (tx.encode ++ rest = bytes
      ↔ ∀ bytes', decode bytes' = .ok (tx, rest) → bytes.length ≤ bytes'.length)
  := by
  have hform : ∀ {bytes}, decode bytes = .ok (tx, rest) →
      ∃ front, bytes = front ++ rest ∧ OrLonger tx.encode front ∧ tx.Fits ∧ tx.asRead = tx :=
    fun h => takesOnly_read.runOn h
  obtain ⟨front, rfl, hfront, hfits, hread⟩ := hform h
  have hshortest : decode (tx.encode ++ rest) = .ok (tx, rest) := by
    have hrun := (takes_read hfits).runOn rest
    rwa [hread] at hrun
  refine ⟨hshortest, ⟨front, rfl, hfront⟩, ?_, ?_⟩
  · intro e bytes' h'
    obtain ⟨front', rfl, hfront', _⟩ := hform h'
    have hle := hfront'.length_le
    rw [← e, List.length_append, List.length_append]
    omega
  · intro hle
    have hlength := hle _ hshortest
    rw [List.length_append, List.length_append] at hlength
    rw [hfront.eq_of_length_le (by omega)]

/-- A transaction without inputs and outputs behind which a byte stands, and whose first count
stands in three bytes: it could have been read from the two bytes fewer that it is written as. -/
theorem decode_shortest_before_byte :
  let bytes : Bytes := [1, 0, 0, 0, 0xfd, 0, 0, 0, 0, 0, 0, 0, 0xff]
  decode bytes = .ok (empty, [0xff]) ∧ empty.encode ++ [0xff] ≠ bytes
    ∧ decode (empty.encode ++ [0xff]) = .ok (empty, [0xff])
  := by
  intro bytes
  have h : decode bytes = .ok (empty, [0xff]) := by decide +kernel
  obtain ⟨hshortest, -, hiff⟩ := decode_shortest h
  refine ⟨h, ?_, hshortest⟩
  intro e
  have hle := hiff.mp e _ hshortest
  revert hle
  decide

/-- A transaction is not always written as it was read, it can be read from different bytes, and
its name need not be that of the bytes it was read from. -/
theorem decode_long_count :
  let bytes : Bytes := [1, 0, 0, 0, 0xfd, 0, 0, 0, 0, 0, 0, 0]
  decode bytes = .ok (empty, []) ∧ empty.encode ++ [] ≠ bytes
    ∧ decode empty.encode = .ok (empty, [])
    ∧ empty.hash ≠ Hash256.ofData bytes
  := by
  decide +kernel

end Transaction

end Bitcoin
