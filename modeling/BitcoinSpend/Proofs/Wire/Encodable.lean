import BitcoinSpend.Script.Template
import BitcoinSpend.Transaction.Codec
import Mathlib.Tactic.SplitIfs

namespace BitcoinSpend

theorem Transaction.exists_error_of_writeAll {α : Type} {write : α → Except Error Bytes}
    {items : List α} {cause : Error} (h : writeAll write items = .error cause) :
    ∃ item ∈ items, write item = .error cause := by
  induction items with
  | nil => cases h
  | cons item items ih =>
      rcases bind_eq_error_iff.mp h with hfirst | ⟨_, -, hrest⟩
      · exact ⟨item, List.mem_cons_self, hfirst⟩
      · obtain ⟨failed, hmem, hfailed⟩ := ih (bind_pure_eq_error_iff.mp hrest)
        exact ⟨failed, List.mem_cons_of_mem item hmem, hfailed⟩

theorem Transaction.exists_write_of_writeAll {α : Type} {write : α → Except Error Bytes}
    {items : List α} {written : Bytes} (h : writeAll write items = .ok written) :
    ∀ item ∈ items, ∃ written, write item = .ok written := by
  induction items generalizing written with
  | nil => exact List.forall_mem_nil _
  | cons item items ih =>
      obtain ⟨first, hfirst, h⟩ := bind_eq_ok_iff.mp h
      obtain ⟨rest, hrest, -⟩ := bind_eq_ok_iff.mp h
      exact List.forall_mem_cons.mpr ⟨⟨first, hfirst⟩, ih hrest⟩

theorem Transaction.writeAll_map {α : Type} {write : α → Except Error Bytes} {normal : α → α}
    (h : ∀ item, write (normal item) = write item) (items : List α) :
    writeAll write (items.map normal) = writeAll write items := by
  induction items with
  | nil => rfl
  | cons item items ih => rw [List.map_cons, writeAll, writeAll, h, ih]

namespace Script

theorem bytes_eq_writeAll (script : Script) :
    script.bytes = Transaction.writeAll Instruction.write script := by
  induction script with
  | nil => rfl
  | cons item script ih => rw [bytes, Transaction.writeAll, ih]

-- No push is too long to be written.
def Encodable (script : Script) : Prop :=
  ∀ data, .push data ∈ script → data.length ≤ maxElementLength

theorem bytes_error {script : Script} {cause : Error} (h : script.bytes = .error cause) :
    ∃ data, .push data ∈ script ∧ maxElementLength < data.length ∧
      cause = .unencodableData data.length := by
  rw [bytes_eq_writeAll] at h
  obtain ⟨item, hmem, hitem⟩ := Transaction.exists_error_of_writeAll h
  cases item with
  | op code => cases hitem
  | push data =>
      rw [Instruction.write] at hitem
      split_ifs at hitem with _ _ hlong
      cases hitem
      exact ⟨data, hmem, Nat.lt_of_not_le hlong, rfl⟩

theorem Encodable.exists_bytes {script : Script} (h : script.Encodable) :
    ∃ raw, script.bytes = .ok raw := by
  cases hbytes : script.bytes with
  | ok raw => exact ⟨raw, rfl⟩
  | error cause =>
      obtain ⟨data, hdata, hlong, -⟩ := bytes_error hbytes
      exact absurd (h data hdata) (Nat.not_le_of_lt hlong)

theorem encodable_of_bytes {script : Script} {raw : Bytes} (h : script.bytes = .ok raw) :
    script.Encodable := by
  rw [bytes_eq_writeAll] at h
  intro data hdata
  obtain ⟨first, hfirst⟩ := Transaction.exists_write_of_writeAll h _ hdata
  refine Nat.le_of_not_lt fun hlong => ?_
  have hmax : maxElementLength = 520 := rfl
  rw [Instruction.write, if_neg (by omega), if_neg (by omega), if_neg (by omega)] at hfirst
  cases hfirst

theorem write_of_bytes {script : Script} {raw : Bytes} (h : script.bytes = .ok raw) :
    script.write = .ok (writeVarInt raw.length ++ raw) := by
  rw [write, h]
  rfl

theorem encodable_of_write {script : Script} {written : Bytes} (h : script.write = .ok written) :
    script.Encodable := by
  obtain ⟨raw, hraw, -⟩ := bind_eq_ok_iff.mp h
  exact encodable_of_bytes hraw

theorem write_error {script : Script} {cause : Error} (h : script.write = .error cause) :
    ∃ data, .push data ∈ script ∧ maxElementLength < data.length ∧
      cause = .unencodableData data.length :=
  bytes_error (bind_pure_eq_error_iff.mp h)

theorem Encodable.write_ne_error {script : Script} (h : script.Encodable) (cause : Error) :
    script.write ≠ .error cause := by
  intro herror
  obtain ⟨data, hdata, hlong, -⟩ := write_error herror
  exact Nat.not_le_of_lt hlong (h data hdata)

theorem encodable_nil : Encodable [] := by
  intro data hdata
  cases hdata

theorem encodable_of_push_eq {script : Script} (hash : FixedBytes 20)
    (h : ∀ data, .push data ∈ script → data = hash.bytes) : script.Encodable := by
  intro data hdata
  rw [h data hdata, hash.length_eq]
  decide

theorem encodable_payToKeyHash (hash : FixedBytes 20) : (payToKeyHash hash).Encodable :=
  encodable_of_push_eq hash (by simp [payToKeyHash])

theorem Encodable.mono {script other : Script} (h : script.Encodable) (hsubset : other ⊆ script) :
    other.Encodable :=
  fun data hdata => h data (hsubset hdata)

end Script

namespace Transaction

-- A transaction cannot be written only where one of its scripts cannot.
theorem bytes_error {tx : Transaction} {cause : Error} (h : tx.bytes = .error cause) :
    (∃ input ∈ tx.inputs, input.unlocking.write = .error cause) ∨
      ∃ output ∈ tx.outputs, output.locking.write = .error cause := by
  rcases bind_eq_error_iff.mp h with hinputs | ⟨_, -, h⟩
  · obtain ⟨input, hmem, hinput⟩ := exists_error_of_writeAll hinputs
    exact .inl ⟨input, hmem, bind_pure_eq_error_iff.mp hinput⟩
  · obtain ⟨output, hmem, houtput⟩ := exists_error_of_writeAll (bind_pure_eq_error_iff.mp h)
    exact .inr ⟨output, hmem, bind_pure_eq_error_iff.mp houtput⟩

theorem exists_bytes {tx : Transaction}
    (hinputs : ∀ input ∈ tx.inputs, input.unlocking.Encodable)
    (houtputs : ∀ output ∈ tx.outputs, output.locking.Encodable) :
    ∃ written, tx.bytes = .ok written := by
  cases hbytes : tx.bytes with
  | ok written => exact ⟨written, rfl⟩
  | error cause =>
      rcases bytes_error hbytes with ⟨input, hinput, herror⟩ | ⟨output, houtput, herror⟩
      · exact absurd herror ((hinputs input hinput).write_ne_error cause)
      · exact absurd herror ((houtputs output houtput).write_ne_error cause)

theorem encodable_of_bytes {tx : Transaction} {written : Bytes} (h : tx.bytes = .ok written) :
    (∀ input ∈ tx.inputs, input.unlocking.Encodable) ∧
      ∀ output ∈ tx.outputs, output.locking.Encodable := by
  obtain ⟨_, hinputs, h⟩ := bind_eq_ok_iff.mp h
  obtain ⟨_, houtputs, -⟩ := bind_eq_ok_iff.mp h
  constructor
  · intro input hinput
    obtain ⟨_, hwrite⟩ := exists_write_of_writeAll hinputs input hinput
    obtain ⟨_, hunlocking, -⟩ := bind_eq_ok_iff.mp hwrite
    exact Script.encodable_of_write hunlocking
  · intro output houtput
    obtain ⟨_, hwrite⟩ := exists_write_of_writeAll houtputs output houtput
    obtain ⟨_, hlocking, -⟩ := bind_eq_ok_iff.mp hwrite
    exact Script.encodable_of_write hlocking

end Transaction

end BitcoinSpend
