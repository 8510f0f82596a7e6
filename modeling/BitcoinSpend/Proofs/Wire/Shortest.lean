import BitcoinSpend.Proofs.Wire.Encodable
import BitcoinSpend.Proofs.Wire.Spelling

namespace BitcoinSpend

namespace Form

variable {α : Type} {form least : Form α} {same : α → α → Prop} {write : α → Except Error Bytes}

-- The forms that no form of the same value undercuts.
def shortest (form : Form α) (same : α → α → Prop) : Form α := fun value bytes =>
  form value bytes ∧
    ∀ other spelled, same other value → form other spelled → bytes.length ≤ spelled.length

-- What is written for a value stands as it was if it had the least form, and is
-- shorter than it was if it had another.
structure ReducedBy (form least : Form α) (write : α → Except Error Bytes) : Prop where
  keeps : ∀ {value bytes}, least value bytes → write value = .ok bytes
  shortens : ∀ {value bytes}, form value bytes → ∃ written, write value = .ok written ∧
    written.length ≤ bytes.length ∧ (written.length = bytes.length → least value bytes)

-- A writer that falls behind no form, and itself writes one, writes the shortest.
theorem reducedBy_shortest
    (hwrite : ∀ value bytes, form value bytes → ∃ written, write value = .ok written ∧
      written.length ≤ bytes.length ∧ (written.length = bytes.length → written = bytes))
    (hform : ∀ value bytes written, form value bytes → write value = .ok written →
      ∃ other, same other value ∧ form other written)
    (hsame : ∀ other value, same other value → write other = write value) :
    form.ReducedBy (form.shortest same) write where
  keeps := by
    rintro value bytes ⟨hbytes, hleast⟩
    obtain ⟨written, hw, hle, heq⟩ := hwrite value bytes hbytes
    obtain ⟨other, hother, hspelled⟩ := hform value bytes written hbytes hw
    have hback := hleast other written hother hspelled
    rw [hw, heq (Nat.le_antisymm hle hback)]
  shortens := by
    intro value bytes hbytes
    obtain ⟨written, hw, hle, heq⟩ := hwrite value bytes hbytes
    refine ⟨written, hw, hle, fun hlength => ⟨hbytes, fun other spelled hother hspelled => ?_⟩⟩
    obtain ⟨written', hw', hle', -⟩ := hwrite other spelled hspelled
    rw [hsame other value hother, hw] at hw'
    cases hw'
    omega

theorem ReducedBy.sequence (h : form.ReducedBy least write) :
    form.Sequence.ReducedBy least.Sequence (Transaction.writeAll write) where
  keeps hitems := by
    induction hitems with
    | nil => rfl
    | cons hfirst _ ih => rw [Transaction.writeAll, h.keeps hfirst, ih]; rfl
  shortens hitems := by
    induction hitems with
    | nil => exact ⟨[], rfl, Nat.le_refl _, fun _ => .nil⟩
    | cons hfirst _ ih =>
        obtain ⟨first, hwrite, hle, hleast⟩ := h.shortens hfirst
        obtain ⟨rest, hwrites, hles, hleasts⟩ := ih
        refine ⟨first ++ rest, by rw [Transaction.writeAll, hwrite, hwrites]; rfl, ?_⟩
        rw [List.length_append, List.length_append]
        exact ⟨by omega, fun _ => .cons (hleast (by omega)) (hleasts (by omega))⟩

end Form

theorem length_writeVarInt (count : Nat) :
    (writeVarInt count).length =
      if count < 0xfd then 1 else if count < 0x10000 then 3
      else if count < 0x100000000 then 5 else 9 := by
  unfold writeVarInt writeInteger
  split_ifs <;> simp

theorem length_writeVarInt_le_of_le {count count' : Nat} (h : count ≤ count') :
    (writeVarInt count).length ≤ (writeVarInt count').length := by
  rw [length_writeVarInt, length_writeVarInt]
  split_ifs <;> omega

namespace CountForm

variable {count : Nat} {bytes : Bytes}

theorem length_writeVarInt_le (h : CountForm count bytes) :
    (writeVarInt count).length ≤ bytes.length := by
  have hlength : ∀ size, (writeInteger size count).length = min size 8 := fun size =>
    Bytes.length_ofNatLE _ _
  rw [length_writeVarInt]
  cases h <;> simp only [List.length_cons, hlength] <;> split_ifs <;> omega

theorem writeVarInt_eq_of_length_eq (h : CountForm count bytes)
    (hlength : (writeVarInt count).length = bytes.length) : writeVarInt count = bytes := by
  cases h <;> unfold writeVarInt at hlength ⊢ <;> split_ifs at hlength ⊢ <;>
    simp [writeInteger] at hlength ⊢

theorem lt (h : CountForm count bytes) : count < 0x10000000000000000 := by
  cases h <;> omega

theorem of_writeVarInt (hlt : count < 0x10000000000000000) :
    CountForm count (writeVarInt count) := by
  unfold writeVarInt
  split_ifs with h1 h2 h4
  · exact .byte h1
  · exact .two h2
  · exact .four h4
  · exact .eight hlt

theorem reducedBy_writeVarInt :
    Form.ReducedBy CountForm (Form.shortest CountForm Eq) fun count => .ok (writeVarInt count) := by
  apply Form.reducedBy_shortest
  · intro count bytes h
    exact ⟨_, rfl, h.length_writeVarInt_le, h.writeVarInt_eq_of_length_eq⟩
  · rintro count bytes _ h ⟨⟩
    exact ⟨count, rfl, of_writeVarInt h.lt⟩
  · rintro _ _ rfl
    rfl

end CountForm

namespace Instruction

theorem write_eq_of_same {x y : Instruction} (h : y.same x) : y.write = x.write := by
  cases y <;> cases x <;> simp_all [same, pushed?, write]

-- An empty push is written as the opcode zero, which reads back as that.
theorem Readable.exists_same_write {item : Instruction} {written : Bytes} (h : item.Readable)
    (hwritten : item.write = .ok written) : ∃ other, other.same item ∧ ItemForm other written := by
  cases item with
  | op code =>
      cases hwritten
      have hcode : code = 0 ∨ 78 ≤ code := by
        rw [Readable] at h
        grind
      exact ⟨.op code, decide_eq_true rfl, .op hcode⟩
  | push data =>
      rw [write] at hwritten
      have hsame : same (.push data) (.push data) := decide_eq_true rfl
      split_ifs at hwritten with hdirect hone htwo
      · cases hwritten
        by_cases hdata : data = []
        · subst hdata
          exact ⟨.op 0, by decide, .op (.inl rfl)⟩
        · exact ⟨_, hsame, .direct (List.length_pos_iff.mpr hdata) hdirect⟩
      · cases hwritten
        exact ⟨_, hsame, .one hone⟩
      · cases hwritten
        exact ⟨_, hsame, .two htwo⟩

end Instruction

namespace ItemForm

variable {item : Instruction} {bytes : Bytes}

theorem exists_write (h : ItemForm item bytes) :
    ∃ written, item.write = .ok written ∧ written.length ≤ bytes.length ∧
      (written.length = bytes.length → written = bytes) := by
  cases h with
  | op => exact ⟨_, rfl, Nat.le_refl _, fun _ => rfl⟩
  | direct hpos hle => exact ⟨_, if_pos hle, Nat.le_refl _, fun _ => rfl⟩
  | one hle =>
      rw [Instruction.write]
      split_ifs with hdirect
      · exact ⟨_, rfl, by simp, by simp⟩
      · exact ⟨_, rfl, Nat.le_refl _, fun _ => rfl⟩
  | two hle =>
      rw [Instruction.write]
      split_ifs with hdirect hone
      · exact ⟨_, rfl, by simp, by simp⟩
      · exact ⟨_, rfl, by simp, by simp⟩
      · exact ⟨_, rfl, Nat.le_refl _, fun _ => rfl⟩

theorem reducedBy_write :
    Form.ReducedBy ItemForm (Form.shortest ItemForm fun x y => x.same y) Instruction.write :=
  Form.reducedBy_shortest (fun _ _ h => h.exists_write)
    (fun _ _ _ h hwritten => h.readable.exists_same_write hwritten)
    fun _ _ h => Instruction.write_eq_of_same h

end ItemForm

namespace Spelling

-- Every count and every instruction in the shortest form that the reader would
-- take for it. An empty push is as short as the opcode zero.
def shortest (spelling : Spelling) : Spelling where
  count := spelling.count.shortest Eq
  item := spelling.item.shortest fun x y => x.same y

theorem reducedBy_scriptWrite :
    accepted.script.ReducedBy accepted.shortest.script Script.write where
  keeps := by
    rintro script _ ⟨length, body, hlength, hbody, rfl⟩
    cases CountForm.reducedBy_writeVarInt.keeps hlength
    rw [Script.write, Script.bytes_eq_writeAll, ItemForm.reducedBy_write.sequence.keeps hbody]
    rfl
  shortens := by
    rintro script _ ⟨length, body, hlength, hbody, rfl⟩
    obtain ⟨written, hw, hle, hleast⟩ := ItemForm.reducedBy_write.sequence.shortens hbody
    obtain ⟨count, ⟨⟩, hcount, hcountLeast⟩ := CountForm.reducedBy_writeVarInt.shortens hlength
    have hshort := length_writeVarInt_le_of_le hle
    refine ⟨writeVarInt written.length ++ written, ?_, ?_⟩
    · rw [Script.write, Script.bytes_eq_writeAll, hw]
      rfl
    · rw [List.length_append, List.length_append]
      refine ⟨by omega, fun heq => ?_⟩
      have hbodies : written.length = body.length := by omega
      rw [hbodies] at heq
      exact ⟨length, body, hcountLeast (by omega), hleast hbodies, rfl⟩

theorem reducedBy_inputWrite :
    accepted.input.ReducedBy accepted.shortest.input Input.write where
  keeps := by
    rintro input _ ⟨unlocking, hunlocking, rfl⟩
    rw [Input.write, reducedBy_scriptWrite.keeps hunlocking]
    rfl
  shortens := by
    rintro input _ ⟨unlocking, hunlocking, rfl⟩
    obtain ⟨written, hw, hle, hleast⟩ := reducedBy_scriptWrite.shortens hunlocking
    refine ⟨_, by rw [Input.write, hw]; rfl, ?_⟩
    simp only [List.length_append]
    exact ⟨by omega, fun heq => ⟨unlocking, hleast (by omega), rfl⟩⟩

theorem reducedBy_outputWrite :
    accepted.output.ReducedBy accepted.shortest.output Output.write where
  keeps := by
    rintro output _ ⟨locking, hlocking, rfl⟩
    rw [Output.write, reducedBy_scriptWrite.keeps hlocking]
    rfl
  shortens := by
    rintro output _ ⟨locking, hlocking, rfl⟩
    obtain ⟨written, hw, hle, hleast⟩ := reducedBy_scriptWrite.shortens hlocking
    refine ⟨_, by rw [Output.write, hw]; rfl, ?_⟩
    simp only [List.length_append]
    exact ⟨by omega, fun heq => ⟨locking, hleast (by omega), rfl⟩⟩

theorem reducedBy_transactionBytes :
    accepted.transaction.ReducedBy accepted.shortest.transaction Transaction.bytes where
  keeps := by
    rintro tx _ ⟨inputCount, inputs, outputCount, outputs, hinputCount, hinputs, houtputCount,
      houtputs, rfl⟩
    cases CountForm.reducedBy_writeVarInt.keeps hinputCount
    cases CountForm.reducedBy_writeVarInt.keeps houtputCount
    rw [Transaction.bytes, reducedBy_inputWrite.sequence.keeps hinputs,
      reducedBy_outputWrite.sequence.keeps houtputs]
    rfl
  shortens := by
    rintro tx _ ⟨inputCount, inputs, outputCount, outputs, hinputCount, hinputs, houtputCount,
      houtputs, rfl⟩
    obtain ⟨_, ⟨⟩, hic, hicLeast⟩ := CountForm.reducedBy_writeVarInt.shortens hinputCount
    obtain ⟨_, ⟨⟩, hoc, hocLeast⟩ := CountForm.reducedBy_writeVarInt.shortens houtputCount
    obtain ⟨writtenInputs, hwi, hi, hiLeast⟩ := reducedBy_inputWrite.sequence.shortens hinputs
    obtain ⟨writtenOutputs, hwo, ho, hoLeast⟩ := reducedBy_outputWrite.sequence.shortens houtputs
    refine ⟨_, by rw [Transaction.bytes, hwi, hwo]; rfl, ?_⟩
    simp only [List.length_append]
    exact ⟨by omega, fun heq => ⟨inputCount, inputs, outputCount, outputs, hicLeast (by omega),
      hiLeast (by omega), hocLeast (by omega), hoLeast (by omega), rfl⟩⟩

end Spelling

namespace Transaction

-- Reading forgets how counts and pushes were spelled, so that a transaction is
-- written as it was read, and keeps its id, when they were at their shortest, and
-- shorter than it was read in every other case.
theorem bytes_of_ofBytes {network : Network} {raw : Bytes} {tx : Transaction}
    (h : ofBytes network raw = .ok tx) :
    (Spelling.accepted.shortest.transaction tx raw →
      tx.bytes = .ok raw ∧ tx.txid = .ok (hash256 raw).reverse) ∧
    (¬ Spelling.accepted.shortest.transaction tx raw →
      ∃ written, tx.bytes = .ok written ∧ written.length < raw.length) := by
  obtain ⟨-, -, hraw⟩ := ofBytes_eq_ok_iff.mp h
  constructor
  · intro hshortest
    have hbytes := Spelling.reducedBy_transactionBytes.keeps hshortest
    rw [txid, hbytes]
    exact ⟨rfl, rfl⟩
  · intro hlonger
    obtain ⟨written, hbytes, hle, hleast⟩ := Spelling.reducedBy_transactionBytes.shortens hraw
    exact ⟨written, hbytes, Nat.lt_of_le_of_ne hle (mt hleast hlonger)⟩

-- The bytes of a transaction that spends the first output of the transaction
-- with the id zero, and has no outputs.
def spendBytes (unlocking : Bytes) : Bytes :=
  [1, 0, 0, 0, 1] ++ List.replicate 36 0 ++ unlocking ++ [0xff, 0xff, 0xff, 0xff, 0, 0, 0, 0, 0]

def pushSpend : Transaction :=
  ⟨1, [⟨⟨noOutpoint.txid, 0⟩, [.push [0xaa]], 0xffffffff⟩], [], 0, .main⟩

theorem accepted_spendBytes {item : Instruction} {spelled : Bytes} (hform : ItemForm item spelled)
    (hlength : spelled.length < 0xfd) :
    Spelling.accepted.transaction
      { pushSpend with inputs := [⟨⟨noOutpoint.txid, 0⟩, [item], 0xffffffff⟩] }
      (spendBytes (writeInteger 1 spelled.length ++ spelled)) := by
  have hscript : Spelling.accepted.script [item] (writeInteger 1 spelled.length ++ spelled) :=
    ⟨_, spelled, .byte hlength, List.append_nil spelled ▸ .cons hform .nil, rfl⟩
  refine ⟨[1], _, [0], [], .byte (show 1 < 0xfd by decide), .cons ⟨_, hscript, rfl⟩ .nil,
    .byte (show 0 < 0xfd by decide), .nil, ?_⟩
  simp only [spendBytes, List.append_assoc, List.append_nil]
  rfl

theorem bytes_of_ofBytes_direct_push :
    ofBytes .main (spendBytes [2, 1, 0xaa]) = .ok pushSpend ∧
      Spelling.accepted.shortest.transaction pushSpend (spendBytes [2, 1, 0xaa]) ∧
      pushSpend.bytes = .ok (spendBytes [2, 1, 0xaa]) ∧
      pushSpend.txid = .ok (hash256 (spendBytes [2, 1, 0xaa])).reverse := by
  have haccepted : Spelling.accepted.transaction pushSpend (spendBytes [2, 1, 0xaa]) :=
    accepted_spendBytes (.direct (by decide) (by decide)) (by decide)
  have hread : ofBytes .main (spendBytes [2, 1, 0xaa]) = .ok pushSpend :=
    ofBytes_eq_ok_iff.mpr ⟨List.cons_ne_nil _ _, rfl, haccepted⟩
  obtain ⟨written, hbytes, -, hleast⟩ := Spelling.reducedBy_transactionBytes.shortens haccepted
  cases hbytes
  have hshortest := hleast rfl
  exact ⟨hread, hshortest, (bytes_of_ofBytes hread).1 hshortest⟩

-- One byte of data behind its length in a byte of its own is written with one
-- byte less.
theorem not_forall_bytes_eq_raw :
    ¬ ∀ (network : Network) (raw : Bytes) (tx : Transaction), ofBytes network raw = .ok tx →
      tx.bytes = .ok raw ∧ tx.txid = .ok (hash256 raw).reverse := by
  intro h
  have hread : ofBytes .main (spendBytes [3, 76, 1, 0xaa]) = .ok pushSpend :=
    ofBytes_eq_ok_iff.mpr ⟨List.cons_ne_nil _ _, rfl,
      accepted_spendBytes (.one (by decide)) (by decide)⟩
  have hbytes := (h _ _ _ hread).1
  cases hbytes

end Transaction

end BitcoinSpend
