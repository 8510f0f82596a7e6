import BitcoinSpend.Proofs.Script.Same
import BitcoinSpend.Proofs.Spend.Sighash

namespace BitcoinSpend

def Input.normal (input : Input) : Input :=
  { input with unlocking := input.unlocking.normal }

theorem Input.same_iff (a b : Input) : a.same b ↔ a.normal = b.normal := by
  simp [same, normal, Script.same_iff]

theorem Input.write_normal (input : Input) : input.normal.write = input.write := by
  rw [write, write, normal, Script.write_normal]

def Output.normal (output : Output) : Output :=
  { output with locking := output.locking.normal }

theorem Output.same_iff (a b : Output) : a.same b ↔ a.normal = b.normal := by
  simp [same, normal, Script.same_iff]

theorem Output.write_normal (output : Output) : output.normal.write = output.write := by
  rw [write, write, normal, Script.write_normal]

namespace Transaction

variable (tx : Transaction) (index : Nat) (resolver : Resolver)

def normal : Transaction :=
  { tx with inputs := tx.inputs.map Input.normal, outputs := tx.outputs.map Output.normal }

theorem same_iff (a b : Transaction) : a.same b ↔ a.normal = b.normal := by
  simp [same, normal, isEqv_iff_map_eq Input.same_iff, isEqv_iff_map_eq Output.same_iff]

theorem bytes_normal : tx.normal.bytes = tx.bytes := by
  simp only [bytes, normal, writeAll_map Input.write_normal, writeAll_map Output.write_normal,
    List.length_map]

theorem txid_normal : tx.normal.txid = tx.txid := by
  rw [txid, txid, bytes_normal]

-- The signed script is given, and takes the place of what the forms differ in.
theorem inputs_signingForm_normal (signed : Script) :
    (tx.normal.signingForm index signed).inputs = (tx.signingForm index signed).inputs := by
  have hunsigned : tx.normal.unsigned.inputs = tx.unsigned.inputs := List.map_map
  rw [← signingForm_unsigned, ← signingForm_unsigned tx, signingForm, signingForm, hunsigned]

theorem bytes_signingForm_normal (signed : Script) :
    (tx.normal.signingForm index signed).bytes = (tx.signingForm index signed).bytes := by
  have houtputs : (tx.normal.signingForm index signed).outputs = tx.outputs.map Output.normal := rfl
  rw [bytes, bytes, inputs_signingForm_normal, houtputs, writeAll_map Output.write_normal,
    List.length_map]
  rfl

theorem getElem?_inputs_normal : tx.normal.inputs[index]? = tx.inputs[index]?.map Input.normal :=
  List.getElem?_map

theorem sighash_normal (type : UInt32) (redeem : Option Script) :
    tx.normal.sighash index type redeem resolver = tx.sighash index type redeem resolver := by
  simp only [sighash, sighashPreimage, getElem?_inputs_normal, bytes_signingForm_normal]
  cases tx.inputs[index]? <;> rfl

theorem committed?_normal (unlocking : Script) :
    committed? unlocking.normal = committed? unlocking := by
  rw [committed?, committed?, Script.normal, List.getLast?_map, Option.bind_map]
  congr 1
  funext item
  exact item.pushed?_normal

theorem runInput_normal (input : Input) (locking : Script) (redeem : Option Script) :
    tx.normal.runInput index input.normal locking redeem resolver =
      tx.runInput index input locking redeem resolver := by
  have hscript : (input.normal.unlocking ++ locking).normal =
      (input.unlocking ++ locking).normal := by
    simp [Input.normal]
  simp only [runInput, sighash_normal, Script.evaluate_eq_of_normal_eq hscript]
  rfl

theorem verifyInput_normal :
    tx.normal.verifyInput index resolver = tx.verifyInput index resolver := by
  rw [verifyInput, verifyInput, verifyInputWith, verifyInputWith, getElem?_inputs_normal]
  cases tx.inputs[index]? with
  | none => rfl
  | some input =>
      simp only [Option.map_some, runInput_normal]
      simp only [Input.normal, committed?_normal]

theorem coinbaseInput?_normal :
    tx.normal.coinbaseInput? = tx.coinbaseInput?.map Input.normal := by
  rcases tx with ⟨version, _ | ⟨input, _ | ⟨second, others⟩⟩, outputs, locktime, network⟩
  · rfl
  · change (if input.previous = noOutpoint then some input.normal else none) =
      (if input.previous = noOutpoint then some input else none).map Input.normal
    split_ifs <;> rfl
  · rfl

theorem coinbaseHeight_normal : tx.normal.coinbaseHeight = tx.coinbaseHeight := by
  rw [coinbaseHeight, coinbaseHeight, coinbaseInput?_normal]
  cases tx.coinbaseInput? with
  | none => rfl
  | some input =>
      rcases input with ⟨previous, _ | ⟨first, rest⟩, sequence⟩
      · rfl
      · change (first.normal.pushed?.bind _) = first.pushed?.bind _
        rw [first.pushed?_normal]

-- All that is said about a transaction says the same about the other.
structure Indistinguishable (a b : Transaction) : Prop where
  bytes : a.bytes = b.bytes
  txid : a.txid = b.txid
  sighash : ∀ index type redeem resolver,
    a.sighash index type redeem resolver = b.sighash index type redeem resolver
  verifyInput : ∀ index resolver, a.verifyInput index resolver = b.verifyInput index resolver
  coinbaseHeight : a.coinbaseHeight = b.coinbaseHeight

theorem Indistinguishable.of_same {a b : Transaction} (h : a.same b) : a.Indistinguishable b := by
  rw [same_iff] at h
  constructor
  · rw [← bytes_normal, h, bytes_normal]
  · rw [← txid_normal, h, txid_normal]
  · intro index type redeem resolver
    rw [← sighash_normal, h, sighash_normal]
  · intro index resolver
    rw [← verifyInput_normal, h, verifyInput_normal]
  · rw [← coinbaseHeight_normal, h, coinbaseHeight_normal]

end Transaction

-- The two forms of the empty push are one instruction, and no part of the library
-- says of a script or a transaction which of them it holds.
theorem indistinguishable_of_same :
    Instruction.same (.push []) (.op 0) ∧
      (Equivalence fun a b : Instruction => a.same b = true) ∧
      (∀ s t : Script, s.same t → s.Indistinguishable t) ∧
      ∀ a b : Transaction, a.same b → a.Indistinguishable b := by
  have hempty : Instruction.same (.push []) (.op 0) := rfl
  exact ⟨hempty, Instruction.same_equivalence, fun _ _ => Script.Indistinguishable.of_same,
    fun _ _ => Transaction.Indistinguishable.of_same⟩

-- An empty push as a condition, and in the branch that is not taken.
def Script.emptyTwice (empty : Instruction) : Script :=
  [empty, .op Opcode.ifTrue, empty, .op Opcode.otherwise, .op 81, .op Opcode.endIf]

-- A coinbase that pushes an empty block height.
def Transaction.emptyHeight (empty : Instruction) : Transaction :=
  ⟨1, [⟨noOutpoint, [empty], 0xffffffff⟩], [⟨0, Script.emptyTwice empty⟩], 0, .main⟩

theorem indistinguishable_of_same_empty_pushes :
    Script.emptyTwice (.op 0) ≠ Script.emptyTwice (.push []) ∧
      (Script.emptyTwice (.op 0)).same (Script.emptyTwice (.push [])) ∧
      (Script.emptyTwice (.op 0)).Indistinguishable (Script.emptyTwice (.push [])) ∧
      (Transaction.emptyHeight (.op 0)).same (Transaction.emptyHeight (.push [])) ∧
      (Transaction.emptyHeight (.op 0)).Indistinguishable (Transaction.emptyHeight (.push [])) := by
  have hscript : (Script.emptyTwice (.op 0)).same (Script.emptyTwice (.push [])) := by decide
  have htx : (Transaction.emptyHeight (.op 0)).same (Transaction.emptyHeight (.push [])) := by
    decide
  obtain ⟨-, -, hscripts, htransactions⟩ := indistinguishable_of_same
  exact ⟨by decide, hscript, hscripts _ _ hscript, htx, htransactions _ _ htx⟩

end BitcoinSpend
