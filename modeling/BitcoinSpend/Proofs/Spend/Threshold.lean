import BitcoinSpend.Proofs.Script.Multisig
import BitcoinSpend.Proofs.Script.Number
import BitcoinSpend.Proofs.Spend.ScriptHash
import BitcoinSpend.Proofs.Spend.Signing
import BitcoinSpend.Proofs.Wire.Form
import Mathlib.Tactic.IntervalCases

namespace BitcoinSpend

namespace Opcode

-- The opcode that pushes a number from one to sixteen.
def ofNumber (value : Nat) : UInt8 :=
  UInt8.ofNat (80 + value)

theorem operation?_ofNumber {value : Nat} (hpos : 1 ≤ value) (hle : value ≤ 16) :
    operation? (ofNumber value) = some (.stack (.number value)) := by
  interval_cases value <;> rfl

theorem toNat_ofNumber {value : Nat} (hle : value ≤ 16) :
    (ofNumber value).toNat = 80 + value :=
  UInt8.toNat_ofNat_of_lt' (Nat.lt_of_le_of_lt (Nat.add_le_add_left hle 80) (by decide))

end Opcode

namespace Script

-- Asks for `m` signatures that are verified by as many of the keys.
def multisig (m : Nat) (keys : List Bytes) : Script :=
  [.op (Opcode.ofNumber m)] ++ keys.map .push ++
    [.op (Opcode.ofNumber keys.length), .op Opcode.checkMultisig]

theorem scriptHash?_concat_eq_none {last : Instruction} (hlast : last ≠ .op Opcode.equal)
    (items : Script) : scriptHash? (items ++ [last]) = none := by
  by_contra hne
  obtain ⟨hash, hs⟩ := Option.ne_none_iff_exists'.mp hne
  have he := congrArg List.getLast? (scriptHash?_eq_some_iff.mp hs)
  rw [List.getLast?_concat] at he
  exact hlast (Option.some.inj he)

theorem exists_bytes_multisig {m : Nat} {keys : List Bytes} (hm : m ≤ 16)
    (hlength : keys.length ≤ 16) (hkeys : ∀ key ∈ keys, key ≠ [] ∧ key.length ≤ 75) :
    ∃ raw, (multisig m keys).bytes = .ok raw ∧ ofBytes raw = .ok (multisig m keys) := by
  have hnumber : ∀ value, value ≤ 16 → 78 ≤ Opcode.ofNumber value := by
    intro value hvalue
    rw [UInt8.le_iff_toNat_le, Opcode.toNat_ofNumber hvalue]
    exact Nat.le_trans (by decide) (Nat.le_add_right 80 value)
  have hop : ∀ code : UInt8, 78 ≤ code →
      ∃ written, (Instruction.op code).write = .ok written ∧ ItemForm (.op code) written :=
    fun code hcode => ⟨[code], rfl, .op (.inr hcode)⟩
  apply exists_bytes_ofBytes
  simp only [multisig, List.mem_append, List.mem_map, List.mem_cons, List.not_mem_nil, or_false]
  rintro item ((rfl | ⟨key, hkey, rfl⟩) | rfl | rfl)
  · exact hop _ (hnumber m hm)
  · obtain ⟨hne, hle⟩ := hkeys key hkey
    exact ⟨_, if_pos hle, .direct (List.length_pos_iff.mpr hne) hle⟩
  · exact hop _ (hnumber keys.length hlength)
  · exact hop _ (by decide)

theorem encodable_multisig (m : Nat) {keys : List Bytes} (hkeys : ∀ key ∈ keys, key.length ≤ 75) :
    (multisig m keys).Encodable := by
  intro data hdata
  simp only [multisig, List.mem_append, List.mem_cons, List.mem_map, Instruction.push.injEq,
    reduceCtorEq, List.not_mem_nil, or_false, false_or, exists_eq_right] at hdata
  exact (hkeys data hdata).trans (by decide)

end Script

namespace Machine

theorem run_number (setting : Setting) {value : Nat} (hpos : 1 ≤ value) (hle : value ≤ 16)
    (rest : Script) (stack alt : Stack) :
    run setting ⟨.op (Opcode.ofNumber value) :: rest, stack, alt⟩ =
      run setting ⟨rest, ScriptNumber.encode value :: stack, alt⟩ := by
  have hcode : Opcode.ofNumber value ≠ 0 := by
    rw [ne_eq, ← UInt8.toNat_inj, Opcode.toNat_ofNumber hle]
    exact Nat.ne_of_gt (Nat.add_pos_left (by decide) value)
  rw [run_cons, step_op setting hcode (Opcode.operation?_ofNumber hpos hle)]
  rfl

-- With an end that no check of a script hash has, none of the data is committed.
theorem run_pushes (setting : Setting) {last : Instruction} (hlast : last ≠ .op Opcode.equal)
    (elements : List Bytes) (rest : Script) (stack alt : Stack) :
    run setting ⟨elements.map .push ++ (rest ++ [last]), stack, alt⟩ =
      run setting ⟨rest ++ [last], elements.reverse ++ stack, alt⟩ := by
  induction elements generalizing stack with
  | nil => rfl
  | cons element elements ih =>
      have hnone : Script.scriptHash? (elements.map .push ++ (rest ++ [last])) = none := by
        rw [← List.append_assoc]
        exact Script.scriptHash?_concat_eq_none hlast _
      rw [List.map_cons, List.cons_append, run_push setting element hnone, ih, List.reverse_cons,
        List.append_assoc, List.singleton_append]

theorem run_checkMultisig (setting : Setting) (stack alt : Stack) :
    run setting ⟨[.op Opcode.checkMultisig], stack, alt⟩ =
      match SignatureOp.applyMultiple setting.hash stack with
      | none => .error .failed
      | some stack => .ok (stack, alt) := by
  rw [run_cons, step_op setting (by decide) Opcode.operation?_checkMultisig]
  simp only [operate, withStack, SignatureOp.apply]
  cases SignatureOp.applyMultiple setting.hash stack with
  | none => rfl
  | some after => exact run_nil setting after alt

theorem run_multisig (setting : Setting) {m : Nat} {keys : List Bytes} (hm : 1 ≤ m ∧ m ≤ 16)
    (hlength : 1 ≤ keys.length ∧ keys.length ≤ 16) (stack alt : Stack) :
    run setting ⟨Script.multisig m keys, stack, alt⟩ =
      run setting ⟨[.op Opcode.checkMultisig], ScriptNumber.encode keys.length ::
        (keys.reverse ++ ScriptNumber.encode m :: stack), alt⟩ := by
  have hlast : Instruction.op Opcode.checkMultisig ≠ .op Opcode.equal := by decide
  have hprogram : Script.multisig m keys = .op (Opcode.ofNumber m) ::
      (keys.map .push ++ ([.op (Opcode.ofNumber keys.length)] ++ [.op Opcode.checkMultisig])) := by
    simp [Script.multisig]
  rw [hprogram, run_number setting hm.1 hm.2, run_pushes setting hlast, List.singleton_append,
    run_number setting hlength.1 hlength.2]

-- The two counts in the script cut the stack into the keys, which the script
-- pushed itself, and the signatures, which it found there.
theorem verdict_multisig_iff (setting : Setting) {m : Nat} {keys : List Bytes}
    (hm : 1 ≤ m ∧ m ≤ 16) (hlength : 1 ≤ keys.length ∧ keys.length ≤ 16) (stack alt : Stack) :
    Script.verdict (run setting ⟨Script.multisig m keys, stack, alt⟩) = .ok true ↔
      ∃ signatures dummy below, stack = signatures.reverse ++ dummy :: below ∧
        signatures.length = m ∧ SignatureOp.ThresholdMet setting.hash keys signatures := by
  have hdecode : ∀ value : Nat, value ≤ 16 →
      ScriptNumber.decode (ScriptNumber.encode value) = some (value : Int) := fun value hvalue =>
    ScriptNumber.decode_encode (by omega)
  have hkeys : ScriptNumber.decode (ScriptNumber.encode keys.length) =
      some (keys.reverse.length : Int) := by
    rw [List.length_reverse, hdecode _ hlength.2]
  have hvalid : ∀ signatures, ScriptNumber.ofBool
        (SignatureOp.multipleValid setting.hash keys.reverse signatures) ≠ [] ↔
      SignatureOp.ThresholdMet setting.hash keys signatures.reverse := by
    intro signatures
    rw [ne_eq, ScriptNumber.ofBool_eq_nil_iff, Bool.not_eq_false, SignatureOp.multipleValid_iff,
      ← SignatureOp.thresholdMet_reverse_iff, List.reverse_reverse]
  rw [Script.verdict_eq_true_iff, run_multisig setting hm hlength, run_checkMultisig]
  constructor
  · rintro ⟨top, below, alt', hrun, htop⟩
    split at hrun
    · cases hrun
    next after hafter =>
      cases hrun
      obtain ⟨signatures, dummy, base, rfl, hcount, he⟩ :=
        (SignatureOp.applyMultiple_counted_iff hkeys (hdecode m hm.2)).mp hafter
      injection he with he _
      refine ⟨signatures.reverse, dummy, base, ?_, ?_, (hvalid signatures).mp (he ▸ htop)⟩
      · rw [List.reverse_reverse]
      · rw [List.length_reverse, hcount]
  · rintro ⟨signatures, dummy, below, rfl, hcount, hmet⟩
    have hreverse : signatures.reverse.length = m := List.length_reverse.trans hcount
    rw [(SignatureOp.applyMultiple_counted_iff hkeys (hdecode m hm.2)).mpr
      ⟨signatures.reverse, dummy, below, rfl, hreverse, rfl⟩]
    refine ⟨_, below, alt, rfl, (hvalid signatures.reverse).mpr ?_⟩
    rw [List.reverse_reverse]
    exact hmet

end Machine

namespace Transaction

-- The script hash commits to the keys, so that no unlocking script spends the
-- output but one that leaves as many signatures as the script asks for.
theorem verifyInput_multisig_iff {m : Nat} {keys : List Bytes} (hm : 1 ≤ m ∧ m ≤ 16)
    (hlength : 1 ≤ keys.length ∧ keys.length ≤ 16)
    (hkeys : ∀ key ∈ keys, key ≠ [] ∧ key.length ≤ 75) :
    ∃ raw, (Script.multisig m keys).bytes = .ok raw ∧
      ∀ (tx : Transaction) (index : Nat) (input : Input) (spent : Output) (resolver : Resolver)
        (init : Script) (z : Nat),
        tx.inputs[index]? = some input → resolver input.previous = .ok spent →
        spent.locking = Script.payToScriptHash (hash160 raw) →
        input.unlocking = init ++ [.push raw] →
        tx.sighash index sighashAll (some (Script.multisig m keys)) resolver = .ok z →
        (tx.verifyInput index resolver = .ok true ↔
          ∃ signatures dummy below alt,
            init.start.run ⟨z, some (tx.lockFields input), false⟩ =
              .ok (signatures.reverse ++ dummy :: below, alt) ∧
            signatures.length = m ∧ SignatureOp.ThresholdMet z keys signatures) := by
  obtain ⟨raw, hbytes, hread⟩ := Script.exists_bytes_multisig hm.2 hlength.2 hkeys
  refine ⟨raw, hbytes, ?_⟩
  intro tx index input spent resolver init z hinput hspent hlocking hunlocking hz
  have hpushed : (Instruction.push raw).pushed? = some raw := rfl
  have hcommitted : committed? input.unlocking = some raw := by
    simp [committed?, hunlocking, hpushed]
  rw [verifyInput_of_committed? hinput hspent hlocking hcommitted hread hz, hunlocking,
    List.append_assoc, List.singleton_append,
    Script.evaluate_append_sealed (Script.sealed_cons_payToScriptHash hpushed _)]
  cases hrun : init.start.run ⟨z, some (tx.lockFields input), false⟩ with
  | error stop => simp
  | ok ended =>
      rcases ended with ⟨stack, alt⟩
      simp only [Machine.run_committed _ _ hpushed hread, if_true,
        Machine.verdict_multisig_iff _ hm hlength]
      constructor
      · rintro ⟨signatures, dummy, below, rfl, hcount, hmet⟩
        exact ⟨signatures, dummy, below, alt, rfl, hcount, hmet⟩
      · rintro ⟨signatures, dummy, below, alt', he, hcount, hmet⟩
        cases he
        exact ⟨signatures, dummy, below, rfl, hcount, hmet⟩

-- One of two keys is enough, and it need not be the first.
theorem verifyInput_multisig_second_key :
    ∃ (keys : List Bytes) (raw : Bytes) (tx : Transaction) (input : Input) (spent : Output)
      (resolver : Resolver) (init : Script) (z : Nat),
      keys.length = 2 ∧ (∀ key ∈ keys, key ≠ [] ∧ key.length ≤ 75) ∧
      (Script.multisig 1 keys).bytes = .ok raw ∧
      tx.inputs[0]? = some input ∧ resolver input.previous = .ok spent ∧
      spent.locking = Script.payToScriptHash (hash160 raw) ∧
      input.unlocking = init ++ [.push raw] ∧
      tx.sighash 0 sighashAll (some (Script.multisig 1 keys)) resolver = .ok z ∧
      tx.verifyInput 0 resolver = .ok true := by
  let first : PrivateKey := ⟨2⟩
  let second : PrivateKey := ⟨1⟩
  have hfirst : first.secret % Secp256k1.order ≠ 0 := by decide
  have hsecond : second.secret % Secp256k1.order ≠ 0 := by decide
  let keys := [Secp256k1.sec true first.point, Secp256k1.sec true second.point]
  have hkeys : ∀ key ∈ keys, key ≠ [] ∧ key.length ≤ 75 := by
    have hsec : ∀ P, Secp256k1.sec true P ≠ [] ∧ (Secp256k1.sec true P).length ≤ 75 := fun P =>
      ⟨(Secp256k1.length_sec_true_le P).1, (Secp256k1.length_sec_true_le P).2.trans (by decide)⟩
    exact List.forall_mem_cons.mpr ⟨hsec _, List.forall_mem_cons.mpr ⟨hsec _, by simp⟩⟩
  obtain ⟨raw, hbytes, hspend⟩ := verifyInput_multisig_iff (m := 1) (by decide) (by decide)
    hkeys
  let spent : Output := ⟨0, Script.payToScriptHash (hash160 raw)⟩
  let unsigned : Transaction := ⟨1, [⟨noOutpoint, [], 0⟩], [], 0, .main⟩
  have hencodable := Script.encodable_multisig 1 fun key hkey => (hkeys key hkey).2
  obtain ⟨z, hz⟩ : ∃ z, unsigned.sighash 0 sighashAll (some (Script.multisig 1 keys))
      (fun _ => .ok spent) = .ok z :=
    exists_sighash (by rfl) (.inl rfl) hencodable (by simp [unsigned])
  obtain ⟨draws, signature, hsign⟩ := Signature.exists_sign hsecond z
  let init : Script := [[], signature.der ++ [1]].map .push
  let input : Input := ⟨noOutpoint, init ++ [.push raw], 0⟩
  have hz' : (unsigned.setUnlocking 0 (init ++ [.push raw])).sighash 0 sighashAll
      (some (Script.multisig 1 keys)) (fun _ => .ok spent) = .ok z := by
    rw [sighash_setUnlocking, hz]
  refine ⟨keys, raw, _, input, spent, _, init, z, rfl, hkeys, hbytes, rfl, rfl, rfl, rfl, hz', ?_⟩
  rw [hspend _ 0 input spent _ init z rfl rfl rfl rfl hz']
  refine ⟨[signature.der ++ [1]], [], [], [], ?_, rfl, ?_⟩
  · exact Machine.run_pushes_plain ⟨z, _, true⟩ _ [] []
  · refine SignatureOp.thresholdMet_iff.mpr ⟨?_, ?_, ?_⟩
    · exact List.forall_mem_cons.mpr ⟨⟨_, PrivateKey.ofSec_sec_point hfirst true⟩,
        List.forall_mem_singleton.mpr ⟨_, PrivateKey.ofSec_sec_point hsecond true⟩⟩
    · refine List.forall_mem_singleton.mpr ⟨signature, elementSignature_eq_ok_iff.mpr ?_⟩
      rw [List.dropLast_concat]
      exact Signature.ofDer_der signature
    · exact .cons_right (.cons (SignatureOp.singleValid_der hsecond hsign 1) .nil)

end Transaction

end BitcoinSpend
