import BitcoinSpend.Proofs.Wire.Form

namespace BitcoinSpend

-- How counts and instructions are spelled. Whatever else is on the wire has one
-- form only.
structure Spelling where
  count : Form Nat
  item : Form Instruction

namespace Spelling

def script (spelling : Spelling) : Form Script := fun script bytes =>
  ∃ length body, spelling.count body.length length ∧ spelling.item.Sequence script body ∧
    bytes = length ++ body

def input (spelling : Spelling) : Form Input := fun input bytes =>
  ∃ unlocking, spelling.script input.unlocking unlocking ∧
    bytes = input.previous.txid.reverse.bytes ++ writeInteger 4 input.previous.index.toNat ++
      unlocking ++ writeInteger 4 input.sequence.toNat

def output (spelling : Spelling) : Form Output := fun output bytes =>
  ∃ locking, spelling.script output.locking locking ∧
    bytes = writeInteger 8 output.amount.toNat ++ locking

def transaction (spelling : Spelling) : Form Transaction := fun tx bytes =>
  ∃ inputCount inputs outputCount outputs,
    spelling.count tx.inputs.length inputCount ∧ spelling.input.Sequence tx.inputs inputs ∧
      spelling.count tx.outputs.length outputCount ∧ spelling.output.Sequence tx.outputs outputs ∧
      bytes = writeInteger 4 tx.version.toNat ++ inputCount ++ inputs ++ outputCount ++ outputs ++
        writeInteger 4 tx.locktime.toNat

-- All that a reader takes.
def accepted : Spelling :=
  ⟨CountForm, ItemForm⟩

end Spelling

theorem FixedBytes.read?_eq_some_iff {size : Nat} {x : FixedBytes size} {input rest : Bytes} :
    FixedBytes.read? size input = some (x, rest) ↔ input = x.bytes ++ rest := by
  unfold FixedBytes.read?
  split
  next h =>
    constructor
    · intro hx
      cases hx
    · rintro rfl
      rw [Bytes.take?_eq_some_iff.mpr ⟨rfl, x.length_eq⟩] at h
      cases h
  next taken rest' h =>
    obtain ⟨rfl, hlength⟩ := Bytes.take?_eq_some_iff.mp h
    constructor
    · intro hx
      cases hx
      rfl
    · intro hx
      obtain ⟨rfl, rfl⟩ := List.append_inj hx (hlength.trans x.length_eq.symm)
      rfl

namespace Reader

variable {α : Type}

theorem accepts_integer (part : TransactionPart) (size : Nat) :
    Accepts (part.orTruncated (readInteger size)) fun value bytes =>
      value < 256 ^ min size 8 ∧ bytes = writeInteger size value :=
  accepts_orElse fun input value rest => by
    rw [readInteger_eq_some_iff]
    constructor
    · rintro ⟨hlt, rfl⟩
      exact ⟨_, ⟨hlt, rfl⟩, rfl⟩
    · rintro ⟨_, ⟨hlt, rfl⟩, rfl⟩
      exact ⟨hlt, rfl⟩

theorem accepts_word (part : TransactionPart) :
    Accepts part.readWord fun word bytes => bytes = writeInteger 4 word.toNat := by
  refine ((accepts_integer part 4).bind fun value => accepts_pure (UInt32.ofNat value)).congr
    fun word bytes => ?_
  constructor
  · rintro ⟨value, _, _, ⟨hlt, rfl⟩, ⟨rfl, rfl⟩, rfl⟩
    rw [UInt32.toNat_ofNat_of_lt' hlt, List.append_nil]
  · rintro rfl
    exact ⟨word.toNat, _, [], ⟨word.toNat_lt, rfl⟩, ⟨UInt32.ofNat_toNat.symm, rfl⟩,
      (List.append_nil _).symm⟩

-- A reader that gives up on a condition.
theorem Accepts.unless {read : Reader α} {form : Form α} {condition : Prop} [Decidable condition]
    {error : Error} {next : Unit → Reader α} (h : read.Accepts form) :
    Accepts (if condition then throw error >>= next else read) fun value bytes =>
      ¬ condition ∧ form value bytes := by
  split_ifs with hcondition
  · intro input value rest
    change (.error error : Except Error (α × Bytes)) = .ok (value, rest) ↔ _
    simp [hcondition]
  · exact h.congr fun value bytes => (and_iff_right hcondition).symm

end Reader

namespace Script

theorem accepts_read : Reader.Accepts Script.read Spelling.accepted.script := by
  have hlength : Reader.Accepts (Reader.orElse readVarInt (.script .missingLength)) CountForm :=
    Reader.accepts_orElse fun _ _ _ => readVarInt_eq_some_iff
  have hitems : ∀ length, Reader.Accepts (readItems length 0) fun script body =>
      body.length = length ∧ ItemForm.Sequence script body := by
    intro length input script rest
    rw [readItems_eq_ok_iff]
    constructor
    · rintro ⟨body, hbody, hl, rfl⟩
      exact ⟨body, ⟨by omega, hbody⟩, rfl⟩
    · rintro ⟨body, ⟨hl, hbody⟩, rfl⟩
      exact ⟨body, hbody, by omega, rfl⟩
  refine (hlength.bind hitems).congr fun script bytes => ?_
  constructor
  · rintro ⟨_, length, body, hcount, ⟨rfl, hbody⟩, rfl⟩
    exact ⟨length, body, hcount, hbody, rfl⟩
  · rintro ⟨length, body, hcount, hbody, rfl⟩
    exact ⟨_, length, body, hcount, ⟨rfl, hbody⟩, rfl⟩

end Script

theorem TransactionPart.accepts_txid (part : TransactionPart) :
    Reader.Accepts (part.orTruncated (FixedBytes.read? 32)) fun txid bytes => bytes = txid.bytes :=
  Reader.accepts_orElse fun input txid rest => by
    rw [FixedBytes.read?_eq_some_iff, exists_eq_left]

theorem TransactionPart.accepts_count (part : TransactionPart) :
    Reader.Accepts (part.orTruncated readVarInt) CountForm :=
  Reader.accepts_orElse fun _ _ _ => readVarInt_eq_some_iff

theorem FixedBytes.reverse_reverse {size : Nat} (x : FixedBytes size) : x.reverse.reverse = x := by
  rw [← FixedBytes.bytes_inj]
  exact List.reverse_reverse x.bytes

namespace Input

theorem accepts_read : Reader.Accepts Input.read Spelling.accepted.input := by
  refine ((TransactionPart.accepts_txid _).bind fun txid =>
    (Reader.accepts_word _).bind fun index => Script.accepts_read.bind fun unlocking =>
      (Reader.accepts_word _).bind fun sequence =>
        Reader.accepts_pure (Input.mk ⟨txid.reverse, index⟩ unlocking sequence)).congr
    fun input bytes => ?_
  constructor
  · rintro ⟨txid, _, _, rfl, ⟨index, _, _, rfl, ⟨script, unlocking, _, hunlocking,
      ⟨sequence, _, _, rfl, ⟨rfl, rfl⟩, rfl⟩, rfl⟩, rfl⟩, rfl⟩
    refine ⟨unlocking, hunlocking, ?_⟩
    simp [FixedBytes.reverse_reverse]
  · rcases input with ⟨⟨txid, index⟩, script, sequence⟩
    rintro ⟨unlocking, hunlocking, rfl⟩
    refine ⟨txid.reverse, _, _, rfl, ⟨index, _, _, rfl, ⟨script, unlocking, _, hunlocking,
      ⟨sequence, _, [], rfl, ⟨?_, rfl⟩, rfl⟩, rfl⟩, rfl⟩, ?_⟩
    · rw [FixedBytes.reverse_reverse]
    · simp

end Input

namespace Output

theorem accepts_read : Reader.Accepts Output.read Spelling.accepted.output := by
  refine ((Reader.accepts_integer .amount 8).bind fun amount =>
    Script.accepts_read.bind fun locking =>
      Reader.accepts_pure (Output.mk (UInt64.ofNat amount) locking)).congr fun output bytes => ?_
  constructor
  · rintro ⟨amount, _, _, ⟨hlt, rfl⟩, ⟨locking, lockingBytes, _, hlocking, ⟨rfl, rfl⟩, rfl⟩, rfl⟩
    refine ⟨lockingBytes, hlocking, ?_⟩
    rw [UInt64.toNat_ofNat_of_lt' hlt, List.append_nil]
  · rintro ⟨locking, hlocking, rfl⟩
    refine ⟨output.amount.toNat, _, _, ⟨output.amount.toNat_lt, rfl⟩,
      ⟨_, locking, [], hlocking, ⟨?_, rfl⟩, rfl⟩, ?_⟩
    · rw [UInt64.ofNat_toNat]
    · rw [List.append_nil]

end Output

namespace Transaction

theorem accepts_read (network : Network) : Reader.Accepts (Transaction.read network) fun tx bytes =>
    tx.inputs ≠ [] ∧ tx.network = network ∧ Spelling.accepted.transaction tx bytes := by
  refine ((Reader.accepts_word .version).bind fun version =>
    (TransactionPart.accepts_count .inputCount).bind fun inputCount =>
      Reader.Accepts.unless ((Input.accepts_read.many inputCount).bind fun inputs =>
        (TransactionPart.accepts_count .outputCount).bind fun outputCount =>
          (Output.accepts_read.many outputCount).bind fun outputs =>
            (Reader.accepts_word .locktime).bind fun locktime =>
              Reader.accepts_pure (Transaction.mk version inputs outputs locktime network))).congr
      fun tx bytes => ?_
  constructor
  · rintro ⟨version, _, _, rfl, ⟨_, inputCount, _, hinputCount, ⟨hzero, inputs, inputBytes, _,
      ⟨rfl, hinputs⟩, ⟨_, outputCount, _, houtputCount, ⟨outputs, outputBytes, _,
        ⟨rfl, houtputs⟩, ⟨locktime, _, _, rfl, ⟨rfl, rfl⟩, rfl⟩, rfl⟩, rfl⟩, rfl⟩, rfl⟩, rfl⟩
    refine ⟨mt List.length_eq_zero_iff.mpr hzero, rfl, inputCount, inputBytes, outputCount,
      outputBytes, hinputCount, hinputs, houtputCount, houtputs, ?_⟩
    simp
  · rcases tx with ⟨version, inputs, outputs, locktime, _⟩
    rintro ⟨hne, rfl, inputCount, inputBytes, outputCount, outputBytes, hinputCount, hinputs,
      houtputCount, houtputs, rfl⟩
    refine ⟨version, _, _, rfl, ⟨_, inputCount, _, hinputCount,
      ⟨mt List.length_eq_zero_iff.mp hne, inputs, inputBytes, _, ⟨rfl, hinputs⟩,
        ⟨_, outputCount, _, houtputCount, ⟨outputs, outputBytes, _, ⟨rfl, houtputs⟩,
          ⟨locktime, _, [], rfl, ⟨rfl, rfl⟩, rfl⟩, rfl⟩, rfl⟩, rfl⟩, rfl⟩, ?_⟩
    simp

theorem ofBytes_of_read {network : Network} {raw rest : Bytes} {tx : Transaction}
    (h : read network raw = .ok (tx, rest)) :
    ofBytes network raw =
      if rest = [] then .ok tx else .error (.transaction (.trailingBytes rest.length)) := by
  rw [ofBytes, StateT.run, h]
  by_cases hrest : rest = []
  · simp [bind, Except.bind, pure, Except.pure, hrest]
  · simp [bind, Except.bind, throw, throwThe, MonadExceptOf.throw, hrest]

theorem ofBytes_of_read_error {network : Network} {raw : Bytes} {cause : Error}
    (h : read network raw = .error cause) : ofBytes network raw = .error cause := by
  rw [ofBytes, StateT.run, h]
  rfl

theorem ofBytes_eq_ok_iff_read {network : Network} {raw : Bytes} {tx : Transaction} :
    ofBytes network raw = .ok tx ↔ read network raw = .ok (tx, []) := by
  cases hread : read network raw with
  | error cause => simp [ofBytes_of_read_error hread]
  | ok pair =>
      rw [ofBytes_of_read hread]
      by_cases hrest : pair.2 = [] <;> simp [hrest, Prod.ext_iff]

theorem ofBytes_eq_ok_iff {network : Network} {raw : Bytes} {tx : Transaction} :
    ofBytes network raw = .ok tx ↔
      tx.inputs ≠ [] ∧ tx.network = network ∧ Spelling.accepted.transaction tx raw := by
  rw [ofBytes_eq_ok_iff_read, accepts_read]
  constructor
  · rintro ⟨bytes, h, rfl⟩
    rw [List.append_nil]
    exact h
  · intro h
    exact ⟨raw, h, (List.append_nil _).symm⟩

end Transaction

end BitcoinSpend
