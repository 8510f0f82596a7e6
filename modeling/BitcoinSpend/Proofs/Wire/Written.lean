import BitcoinSpend.Proofs.Wire.Encodable
import BitcoinSpend.Proofs.Wire.Spelling

namespace BitcoinSpend

namespace Bytes

-- Lengths are numbers of 64 bits, in memory as on the wire.
def Addressable (bytes : Bytes) : Prop :=
  bytes.length < 0x10000000000000000

theorem Addressable.of_append_left {first second : Bytes} (h : (first ++ second).Addressable) :
    first.Addressable := by
  rw [Addressable, List.length_append] at h
  exact Nat.lt_of_le_of_lt (Nat.le_add_right _ _) h

theorem Addressable.of_append_right {first second : Bytes} (h : (first ++ second).Addressable) :
    second.Addressable := by
  rw [Addressable, List.length_append] at h
  exact Nat.lt_of_le_of_lt (Nat.le_add_left _ _) h

end Bytes

namespace Form

variable {α : Type} {form : Form α} {items : List α} {bytes : Bytes}

theorem Sequence.length_le (h : form.Sequence items bytes)
    (hform : ∀ item bytes, form item bytes → bytes ≠ []) : items.length ≤ bytes.length := by
  induction h with
  | nil => exact Nat.le_refl 0
  | cons hfirst _ ih =>
      have hpos := List.length_pos_iff.mpr (hform _ _ hfirst)
      rw [List.length_cons, List.length_append]
      omega

theorem writeAll_eq_ok_iff {write : α → Except Error Bytes} :
    Transaction.writeAll write items = .ok bytes ↔
      Sequence (fun item bytes => write item = .ok bytes) items bytes := by
  constructor
  · intro h
    induction items generalizing bytes with
    | nil =>
        cases h
        exact .nil
    | cons item items ih =>
        obtain ⟨first, hfirst, h⟩ := bind_eq_ok_iff.mp h
        obtain ⟨rest, hrest, h⟩ := bind_eq_ok_iff.mp h
        cases h
        exact .cons hfirst (ih hrest)
  · intro h
    induction h with
    | nil => rfl
    | cons hfirst _ ih =>
        rw [Transaction.writeAll, hfirst, ih]
        rfl

theorem sequence_of_writeAll {write : α → Except Error Bytes}
    (hform : ∀ item bytes, bytes.Addressable → write item = .ok bytes → form item bytes)
    (hlength : bytes.Addressable) (h : Transaction.writeAll write items = .ok bytes) :
    form.Sequence items bytes := by
  rw [writeAll_eq_ok_iff] at h
  induction h with
  | nil => exact .nil
  | cons hfirst _ ih =>
      exact .cons (hform _ _ hlength.of_append_left hfirst) (ih hlength.of_append_right)

end Form

namespace Spelling

-- How counts and instructions are written. There is no way to write a count of
-- more than 64 bits.
def written : Spelling where
  count := fun count bytes => count < 0x10000000000000000 ∧ bytes = writeVarInt count
  item := fun item bytes => item.write = .ok bytes

theorem written_script_of_write {script : Script} {bytes : Bytes} (hlength : bytes.Addressable)
    (h : script.write = .ok bytes) : written.script script bytes := by
  obtain ⟨body, hbody, h⟩ := bind_eq_ok_iff.mp h
  cases h
  have hbodyLength := hlength.of_append_right
  rw [Script.bytes_eq_writeAll] at hbody
  exact ⟨_, body, ⟨hbodyLength, rfl⟩, Form.writeAll_eq_ok_iff.mp hbody, rfl⟩

theorem written_input_of_write {input : Input} {bytes : Bytes} (hlength : bytes.Addressable)
    (h : input.write = .ok bytes) : written.input input bytes := by
  obtain ⟨unlocking, hunlocking, h⟩ := bind_eq_ok_iff.mp h
  cases h
  exact ⟨unlocking, written_script_of_write hlength.of_append_left.of_append_right hunlocking, rfl⟩

theorem written_output_of_write {output : Output} {bytes : Bytes} (hlength : bytes.Addressable)
    (h : output.write = .ok bytes) : written.output output bytes := by
  obtain ⟨locking, hlocking, h⟩ := bind_eq_ok_iff.mp h
  cases h
  exact ⟨locking, written_script_of_write hlength.of_append_right hlocking, rfl⟩

theorem input_ne_nil {spelling : Spelling} {input : Input} {bytes : Bytes}
    (h : spelling.input input bytes) : bytes ≠ [] := by
  obtain ⟨unlocking, -, rfl⟩ := h
  simp [writeInteger, Bytes.ofNatLE]

theorem output_ne_nil {spelling : Spelling} {output : Output} {bytes : Bytes}
    (h : spelling.output output bytes) : bytes ≠ [] := by
  obtain ⟨locking, -, rfl⟩ := h
  simp [writeInteger, Bytes.ofNatLE]

-- Every input and every output takes a byte at least, so that there are not too
-- many of them for a count either.
theorem written_transaction_of_bytes {tx : Transaction} {bytes : Bytes}
    (hlength : bytes.Addressable) (h : tx.bytes = .ok bytes) : written.transaction tx bytes := by
  obtain ⟨inputs, hinputs, h⟩ := bind_eq_ok_iff.mp h
  obtain ⟨outputs, houtputs, h⟩ := bind_eq_ok_iff.mp h
  cases h
  have hinputLength := hlength.of_append_left.of_append_left.of_append_left.of_append_right
  have houtputLength := hlength.of_append_left.of_append_right
  have hinputs := Form.sequence_of_writeAll (fun _ _ => written_input_of_write) hinputLength hinputs
  have houtputs :=
    Form.sequence_of_writeAll (fun _ _ => written_output_of_write) houtputLength houtputs
  have hinputCount := hinputs.length_le fun _ _ => input_ne_nil
  have houtputCount := houtputs.length_le fun _ _ => output_ne_nil
  exact ⟨_, inputs, _, outputs, ⟨hinputCount.trans_lt hinputLength, rfl⟩, hinputs,
    ⟨houtputCount.trans_lt houtputLength, rfl⟩, houtputs, rfl⟩

end Spelling

end BitcoinSpend
