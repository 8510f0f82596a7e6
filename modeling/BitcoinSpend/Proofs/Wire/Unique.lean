import BitcoinSpend.Proofs.Wire.Shortest
import BitcoinSpend.Proofs.Wire.Written
import Mathlib.Data.List.Forall2

namespace BitcoinSpend

namespace Form

variable {α : Type} {form : Form α} {alike : α → α → Prop}

-- Items that are spelled at the front of one input are alike, and the input goes
-- on with the same after both.
def Determines (form : Form α) (alike : α → α → Prop) : Prop :=
  ∀ ⦃item item' bytes bytes' rest rest'⦄, form item bytes → form item' bytes' →
    bytes ++ rest = bytes' ++ rest' → alike item item' ∧ rest = rest'

theorem Determines.sequence (h : form.Determines alike) {items items' : List α}
    {bytes bytes' rest rest' : Bytes} (hitems : form.Sequence items bytes)
    (hitems' : form.Sequence items' bytes') (hlength : items.length = items'.length)
    (heq : bytes ++ rest = bytes' ++ rest') : List.Forall₂ alike items items' ∧ rest = rest' := by
  induction hitems generalizing items' bytes' with
  | nil =>
      cases hitems' with
      | nil => exact ⟨.nil, heq⟩
      | cons => cases hlength
  | cons hfirst _ ih =>
      cases hitems' with
      | nil => cases hlength
      | cons hfirst' hitems' =>
          rw [List.append_assoc, List.append_assoc] at heq
          obtain ⟨halike, heq⟩ := h hfirst hfirst' heq
          obtain ⟨halikes, hrest⟩ := ih hitems' (Nat.succ.inj hlength) heq
          exact ⟨.cons halike halikes, hrest⟩

-- What is read off a spelling is the one item that it spells.
theorem determines_of_accepts {read : Reader α} (h : read.Accepts form) :
    form.Determines Eq := by
  intro item item' bytes bytes' rest rest' hitem hitem' heq
  have hread : read (bytes ++ rest) = .ok (item, rest) := (h _ _ _).mpr ⟨bytes, hitem, rfl⟩
  have hread' : read (bytes' ++ rest') = .ok (item', rest') := (h _ _ _).mpr ⟨bytes', hitem', rfl⟩
  rw [heq, hread'] at hread
  cases hread
  exact ⟨rfl, rfl⟩

end Form

theorem CountForm.determines : Form.Determines CountForm Eq :=
  Form.determines_of_accepts (TransactionPart.accepts_count .inputCount)

theorem determines_word :
    Form.Determines (fun (word : UInt32) bytes => bytes = writeInteger 4 word.toNat) Eq :=
  Form.determines_of_accepts (Reader.accepts_word .version)

theorem determines_txid :
    Form.Determines (fun (txid : FixedBytes 32) bytes => bytes = txid.bytes) Eq :=
  Form.determines_of_accepts (TransactionPart.accepts_txid .previousTxid)

theorem determines_amount :
    Form.Determines (fun amount bytes => amount < 256 ^ min 8 8 ∧ bytes = writeInteger 8 amount)
      Eq :=
  Form.determines_of_accepts (Reader.accepts_integer .amount 8)

-- Scripts that are written alike.
def Script.Alike (s t : Script) : Prop :=
  ∃ body, s.bytes = .ok body ∧ t.bytes = .ok body

structure Input.Alike (a b : Input) : Prop where
  previous : a.previous = b.previous
  unlocking : a.unlocking.Alike b.unlocking
  sequence : a.sequence = b.sequence

structure Output.Alike (a b : Output) : Prop where
  amount : a.amount = b.amount
  locking : a.locking.Alike b.locking

-- The network is nowhere on the wire.
structure Transaction.Alike (a b : Transaction) : Prop where
  version : a.version = b.version
  inputs : List.Forall₂ Input.Alike a.inputs b.inputs
  outputs : List.Forall₂ Output.Alike a.outputs b.outputs
  locktime : a.locktime = b.locktime

namespace Spelling

theorem determines_script : written.script.Determines Script.Alike := by
  rintro script script' _ _ rest rest' ⟨_, body, ⟨hcount, rfl⟩, hbody, rfl⟩
    ⟨_, body', ⟨hcount', rfl⟩, hbody', rfl⟩ heq
  rw [List.append_assoc, List.append_assoc] at heq
  obtain ⟨hlength, heq⟩ :=
    CountForm.determines (.of_writeVarInt hcount) (.of_writeVarInt hcount') heq
  obtain ⟨rfl, hrest⟩ := List.append_inj heq hlength
  refine ⟨⟨body, ?_, ?_⟩, hrest⟩
  · rw [Script.bytes_eq_writeAll]
    exact Form.writeAll_eq_ok_iff.mpr hbody
  · rw [Script.bytes_eq_writeAll]
    exact Form.writeAll_eq_ok_iff.mpr hbody'

theorem determines_input : written.input.Determines Input.Alike := by
  rintro ⟨⟨txid, index⟩, script, sequence⟩ ⟨⟨txid', index'⟩, script', sequence'⟩ _ _ rest rest'
    ⟨unlocking, hunlocking, rfl⟩ ⟨unlocking', hunlocking', rfl⟩ heq
  simp only [List.append_assoc] at heq
  obtain ⟨htxid, heq⟩ := determines_txid rfl rfl heq
  obtain ⟨hindex, heq⟩ := determines_word rfl rfl heq
  obtain ⟨hscript, heq⟩ := determines_script hunlocking hunlocking' heq
  obtain ⟨hsequence, hrest⟩ := determines_word rfl rfl heq
  have hprevious : txid = txid' := by
    rw [← txid.reverse_reverse, htxid, txid'.reverse_reverse]
  exact ⟨⟨by rw [hprevious, hindex], hscript, hsequence⟩, hrest⟩

theorem determines_output : written.output.Determines Output.Alike := by
  rintro output output' _ _ rest rest' ⟨locking, hlocking, rfl⟩ ⟨locking', hlocking', rfl⟩ heq
  simp only [List.append_assoc] at heq
  obtain ⟨hamount, heq⟩ := determines_amount ⟨output.amount.toNat_lt, rfl⟩
    ⟨output'.amount.toNat_lt, rfl⟩ heq
  obtain ⟨hscript, hrest⟩ := determines_script hlocking hlocking' heq
  exact ⟨⟨UInt64.toNat.inj hamount, hscript⟩, hrest⟩

theorem determines_transaction : written.transaction.Determines Transaction.Alike := by
  rintro tx tx' _ _ rest rest'
    ⟨_, inputs, _, outputs, ⟨hinputCount, rfl⟩, hinputs, ⟨houtputCount, rfl⟩, houtputs, rfl⟩
    ⟨_, inputs', _, outputs', ⟨hinputCount', rfl⟩, hinputs', ⟨houtputCount', rfl⟩, houtputs', rfl⟩
    heq
  simp only [List.append_assoc] at heq
  obtain ⟨hversion, heq⟩ := determines_word rfl rfl heq
  obtain ⟨hinputLength, heq⟩ :=
    CountForm.determines (.of_writeVarInt hinputCount) (.of_writeVarInt hinputCount') heq
  obtain ⟨hinputs, heq⟩ := determines_input.sequence hinputs hinputs' hinputLength heq
  obtain ⟨houtputLength, heq⟩ :=
    CountForm.determines (.of_writeVarInt houtputCount) (.of_writeVarInt houtputCount') heq
  obtain ⟨houtputs, heq⟩ := determines_output.sequence houtputs houtputs' houtputLength heq
  obtain ⟨hlocktime, hrest⟩ := determines_word rfl rfl heq
  exact ⟨⟨hversion, hinputs, houtputs, hlocktime⟩, hrest⟩

end Spelling

theorem Transaction.alike_of_bytes {tx tx' : Transaction} {bytes : Bytes}
    (hlength : bytes.Addressable) (h : tx.bytes = .ok bytes) (h' : tx'.bytes = .ok bytes) :
    tx.Alike tx' :=
  (Spelling.determines_transaction (Spelling.written_transaction_of_bytes hlength h)
    (Spelling.written_transaction_of_bytes hlength h') (rfl : bytes ++ [] = bytes ++ [])).1

end BitcoinSpend
