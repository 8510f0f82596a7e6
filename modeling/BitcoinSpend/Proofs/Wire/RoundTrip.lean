import BitcoinSpend.Proofs.Wire.Shortest
import BitcoinSpend.Proofs.Wire.Written

namespace BitcoinSpend

namespace Form

variable {α : Type} {form form' : Form α} {items : List α} {bytes : Bytes}

theorem Sequence.forall_mem {property : α → Prop} (h : form.Sequence items bytes)
    (hform : ∀ item bytes, form item bytes → property item) : ∀ item ∈ items, property item := by
  induction h with
  | nil => exact List.forall_mem_nil property
  | cons hfirst _ ih => exact List.forall_mem_cons.mpr ⟨hform _ _ hfirst, ih⟩

theorem Sequence.exists_isEqv {same : α → α → Bool} (h : form.Sequence items bytes)
    (hform : ∀ item ∈ items, ∀ bytes, form item bytes →
      ∃ again, same again item ∧ form' again bytes) :
    ∃ again : List α, again.isEqv items same ∧ again.length = items.length ∧
      form'.Sequence again bytes := by
  induction h with
  | nil => exact ⟨[], rfl, rfl, .nil⟩
  | cons hfirst _ ih =>
      obtain ⟨hitem, hitems⟩ := List.forall_mem_cons.mp hform
      obtain ⟨first, hsame, hagain⟩ := hitem _ hfirst
      obtain ⟨rest, hsames, hlength, hagains⟩ := ih hitems
      refine ⟨first :: rest, ?_, congrArg Nat.succ hlength, .cons hagain hagains⟩
      rw [List.isEqv, hsame, hsames]
      rfl

end Form

namespace Script

def Readable (script : Script) : Prop :=
  ∀ item ∈ script, item.Readable

theorem Readable.encodable {script : Script} (h : script.Readable) : script.Encodable :=
  fun data hdata => h (.push data) hdata

theorem readable_of_accepted {script : Script} {bytes : Bytes}
    (h : Spelling.accepted.script script bytes) : script.Readable := by
  obtain ⟨_, body, -, hbody, -⟩ := h
  exact hbody.forall_mem fun _ _ => ItemForm.readable

theorem readable_of_ofBytes {raw : Bytes} {script : Script} (h : ofBytes raw = .ok script) :
    script.Readable :=
  (ofBytes_eq_ok_iff.mp h).forall_mem fun _ _ => ItemForm.readable

theorem encodable_of_ofBytes {raw : Bytes} {script : Script} (h : ofBytes raw = .ok script) :
    script.Encodable :=
  (readable_of_ofBytes h).encodable

-- What is written for a script is a spelling of the same script.
theorem Readable.exists_accepted {script : Script} {bytes : Bytes} (h : script.Readable)
    (hwritten : Spelling.written.script script bytes) :
    ∃ again : Script, again.same script ∧ Spelling.accepted.script again bytes := by
  obtain ⟨_, body, ⟨hcount, rfl⟩, hbody, rfl⟩ := hwritten
  obtain ⟨again, hsame, -, hagain⟩ :=
    hbody.exists_isEqv fun item hitem _ => (h item hitem).exists_same_write
  exact ⟨again, hsame, _, body, .of_writeVarInt hcount, hagain, rfl⟩

end Script

theorem Input.exists_accepted {input : Input} {bytes : Bytes} (h : input.unlocking.Readable)
    (hwritten : Spelling.written.input input bytes) :
    ∃ again : Input, again.same input ∧ Spelling.accepted.input again bytes := by
  obtain ⟨unlocking, hunlocking, rfl⟩ := hwritten
  obtain ⟨again, hsame, hagain⟩ := h.exists_accepted hunlocking
  exact ⟨{ input with unlocking := again }, by simp [same, hsame], unlocking, hagain, rfl⟩

theorem Output.exists_accepted {output : Output} {bytes : Bytes} (h : output.locking.Readable)
    (hwritten : Spelling.written.output output bytes) :
    ∃ again : Output, again.same output ∧ Spelling.accepted.output again bytes := by
  obtain ⟨locking, hlocking, rfl⟩ := hwritten
  obtain ⟨again, hsame, hagain⟩ := h.exists_accepted hlocking
  exact ⟨{ output with locking := again }, by simp [same, hsame], locking, hagain, rfl⟩

namespace Transaction

def Readable (tx : Transaction) : Prop :=
  (∀ input ∈ tx.inputs, input.unlocking.Readable) ∧ ∀ output ∈ tx.outputs, output.locking.Readable

-- The bytes are read as the transaction, whatever follows them.
def ReadFrom (tx : Transaction) (bytes : Bytes) : Prop :=
  ∃ again : Transaction, again.same tx ∧
    (∀ suffix, (read tx.network).run (bytes ++ suffix) = .ok (again, suffix)) ∧
    ofBytes tx.network bytes = .ok again

theorem readable_of_accepted {tx : Transaction} {bytes : Bytes}
    (h : Spelling.accepted.transaction tx bytes) : tx.Readable := by
  obtain ⟨_, inputs, _, outputs, -, hinputs, -, houtputs, -⟩ := h
  constructor
  · exact hinputs.forall_mem fun _ _ ⟨_, hunlocking, _⟩ => Script.readable_of_accepted hunlocking
  · exact houtputs.forall_mem fun _ _ ⟨_, hlocking, _⟩ => Script.readable_of_accepted hlocking

theorem Readable.exists_bytes {tx : Transaction} (h : tx.Readable) :
    ∃ written, tx.bytes = .ok written :=
  Transaction.exists_bytes (fun input hinput => (h.1 input hinput).encodable)
    fun output houtput => (h.2 output houtput).encodable

theorem Readable.exists_accepted {tx : Transaction} {bytes : Bytes} (h : tx.Readable)
    (hwritten : Spelling.written.transaction tx bytes) :
    ∃ again : Transaction, again.same tx ∧ again.inputs.length = tx.inputs.length ∧
      again.network = tx.network ∧ Spelling.accepted.transaction again bytes := by
  obtain ⟨_, inputs, _, outputs, ⟨hinputCount, rfl⟩, hinputs, ⟨houtputCount, rfl⟩, houtputs, rfl⟩ :=
    hwritten
  obtain ⟨againInputs, hsameInputs, hinputLength, hagainInputs⟩ :=
    hinputs.exists_isEqv fun input hinput _ => Input.exists_accepted (h.1 input hinput)
  obtain ⟨againOutputs, hsameOutputs, houtputLength, hagainOutputs⟩ :=
    houtputs.exists_isEqv fun output houtput _ => Output.exists_accepted (h.2 output houtput)
  refine ⟨{ tx with inputs := againInputs, outputs := againOutputs },
    by simp [same, hsameInputs, hsameOutputs], hinputLength, rfl,
    _, inputs, _, outputs, ?_, hagainInputs, ?_, hagainOutputs, rfl⟩
  · rw [hinputLength]
    exact .of_writeVarInt hinputCount
  · rw [houtputLength]
    exact .of_writeVarInt houtputCount

theorem Readable.readFrom {tx : Transaction} {written : Bytes} (h : tx.Readable)
    (hinputs : tx.inputs ≠ []) (hbytes : tx.bytes = .ok written) (hlength : written.Addressable) :
    tx.ReadFrom written := by
  have hwritten := Spelling.written_transaction_of_bytes hlength hbytes
  obtain ⟨again, hsame, hcount, hnetwork, hagain⟩ := h.exists_accepted hwritten
  have hagainInputs : again.inputs ≠ [] := by
    rw [← List.length_pos_iff] at hinputs ⊢
    rw [hcount]
    exact hinputs
  refine ⟨again, hsame, fun suffix => ?_, ofBytes_eq_ok_iff.mpr ⟨hagainInputs, hnetwork, hagain⟩⟩
  exact (accepts_read _ _ _ _).mpr ⟨written, ⟨hagainInputs, hnetwork, hagain⟩, rfl⟩

-- Reading is a left inverse of writing, up to the form of the empty push, and
-- every transaction that is read can be written and read again.
theorem readFrom_bytes (tx : Transaction) :
    (tx.inputs ≠ [] → tx.Readable →
      ∃ written, tx.bytes = .ok written ∧ (written.Addressable → tx.ReadFrom written)) ∧
    (∀ network raw, ofBytes network raw = .ok tx →
      tx.inputs ≠ [] ∧ tx.Readable ∧ tx.network = network ∧
        (raw.Addressable → ∃ written, tx.bytes = .ok written ∧ tx.ReadFrom written)) := by
  constructor
  · intro hinputs hreadable
    obtain ⟨written, hbytes⟩ := hreadable.exists_bytes
    exact ⟨written, hbytes, hreadable.readFrom hinputs hbytes⟩
  · intro network raw h
    obtain ⟨hinputs, hnetwork, haccepted⟩ := ofBytes_eq_ok_iff.mp h
    have hreadable := readable_of_accepted haccepted
    refine ⟨hinputs, hreadable, hnetwork, fun hlength => ?_⟩
    obtain ⟨written, hbytes, hle, -⟩ := Spelling.reducedBy_transactionBytes.shortens haccepted
    exact ⟨written, hbytes, hreadable.readFrom hinputs hbytes (hle.trans_lt hlength)⟩

def emptyPushSpend : Transaction :=
  { pushSpend with inputs := [⟨⟨noOutpoint.txid, 0⟩, [.push []], 0xffffffff⟩] }

-- The empty push is read from two bytes, written as one, and read again as the
-- opcode zero.
theorem readFrom_bytes_empty_push :
    ofBytes .main (spendBytes [2, 76, 0]) = .ok emptyPushSpend ∧
      emptyPushSpend.inputs ≠ [] ∧ emptyPushSpend.Readable ∧
      (spendBytes [2, 76, 0]).Addressable ∧
      emptyPushSpend.bytes = .ok (spendBytes [1, 0]) ∧ (spendBytes [1, 0]).Addressable ∧
      emptyPushSpend.ReadFrom (spendBytes [1, 0]) := by
  have hread : ofBytes .main (spendBytes [2, 76, 0]) = .ok emptyPushSpend :=
    ofBytes_eq_ok_iff.mpr ⟨List.cons_ne_nil _ _, rfl,
      accepted_spendBytes (.one (show ([] : Bytes).length ≤ 255 by decide)) (by decide)⟩
  obtain ⟨hinputs, hreadable, -, hagain⟩ := (readFrom_bytes emptyPushSpend).2 _ _ hread
  have hraw : (spendBytes [2, 76, 0]).Addressable := by
    rw [Bytes.Addressable]
    decide
  have hlength : (spendBytes [1, 0]).Addressable := by
    rw [Bytes.Addressable]
    decide
  obtain ⟨written, hbytes, hfrom⟩ := (readFrom_bytes emptyPushSpend).1 hinputs hreadable
  cases hbytes
  exact ⟨hread, hinputs, hreadable, hraw, rfl, hlength, hfrom hlength⟩

end Transaction

end BitcoinSpend
