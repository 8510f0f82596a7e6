import BitcoinSpend.Proofs.Ecdsa.Der
import BitcoinSpend.Proofs.Ecdsa.Nonce
import BitcoinSpend.Proofs.Script.Isolation
import BitcoinSpend.Proofs.Secp256k1.Sec
import BitcoinSpend.Proofs.Spend.Sighash

namespace BitcoinSpend

namespace PrivateKey

theorem onCurve_point (key : PrivateKey) : key.point.OnCurve := by
  rw [point, Secp256k1.mul_generator]
  exact Point.onCurve_ofAffine Secp256k1.prime_ne_two _

theorem point_ne_infinity {key : PrivateKey} (h : key.secret % Secp256k1.order ≠ 0) :
    key.point ≠ .infinity := by
  rw [point, Secp256k1.mul_generator, ne_eq, ofAffine_zsmul_base_eq_infinity_iff]
  exact Signature.secret_ne_zero h

theorem ofSec_sec_point {key : PrivateKey} (h : key.secret % Secp256k1.order ≠ 0)
    (compressed : Bool) : Secp256k1.ofSec (Secp256k1.sec compressed key.point) = .ok key.point :=
  Secp256k1.ofSec_sec compressed key.onCurve_point (point_ne_infinity h)

end PrivateKey

namespace SignatureOp

-- The type at the end of the element is cut off again.
theorem singleValid_der {key : PrivateKey} (h : key.secret % Secp256k1.order ≠ 0) {z : Int}
    {draws : List Bytes} {signature : Signature} (hsign : key.sign z draws = some signature)
    (type : UInt8) :
    singleValid z (Secp256k1.sec true key.point) (signature.der ++ [type]) = true := by
  rw [singleValid_iff, List.dropLast_concat]
  exact ⟨key.point, signature, PrivateKey.ofSec_sec_point h true, Signature.ofDer_der signature,
    Signature.verifies_of_sign h hsign⟩

end SignatureOp

namespace Script

theorem sealed_payToKeyHash (hash : FixedBytes 20) : (payToKeyHash hash).Sealed where
  three_le_length := by simp [payToKeyHash]
  ne_payToScriptHash := by simp [payToKeyHash, payToScriptHash]
  closesAtMost := by
    apply closesAtMost_of_notMem
    simp only [payToKeyHash, List.mem_cons, List.not_mem_nil, or_false, Instruction.op.injEq,
      reduceCtorEq]
    decide

end Script

namespace Machine

theorem run_payToKeyHash_nil (setting : Setting) (hash : FixedBytes 20) (alt : Stack) :
    run setting ⟨Script.payToKeyHash hash, [], alt⟩ = .error .failed := by
  rw [Script.payToKeyHash, run_cons, step_op setting (by decide) Opcode.operation?_dup]
  rfl

theorem run_payToKeyHash_cons (setting : Setting) (hash : FixedBytes 20) (key : Bytes)
    (below alt : Stack) :
    run setting ⟨Script.payToKeyHash hash, key :: below, alt⟩ =
      if hash160 key = hash then run setting ⟨[.op Opcode.checkSig], key :: below, alt⟩
      else .error .failed := by
  have hequal : hash.bytes = (hash160 key).bytes ↔ hash160 key = hash :=
    FixedBytes.bytes_inj.trans eq_comm
  rw [Script.payToKeyHash, run_cons, step_op setting (by decide) Opcode.operation?_dup]
  simp only [operate, withStack, StackOp.apply, Option.map_some, Except.bind]
  rw [run_cons, step_op setting (by decide) Opcode.operation?_hash160]
  simp only [operate, withStack, StackOp.apply, DigestOp.result, Option.map_some, Except.bind]
  rw [run_push setting hash.bytes rfl, run_cons,
    step_op setting (by decide) Opcode.operation?_equalVerify]
  by_cases hh : hash160 key = hash
  · simp [operate, withStack, StackOp.apply, hh, Except.bind]
  · simp [operate, withStack, StackOp.apply, hequal, hh, Except.bind]

theorem run_checkSig_singleton (setting : Setting) (key : Bytes) (alt : Stack) :
    run setting ⟨[.op Opcode.checkSig], [key], alt⟩ = .error .failed := by
  rw [run_cons, step_op setting (by decide) Opcode.operation?_checkSig]
  rfl

theorem run_checkSig_cons (setting : Setting) (key signature : Bytes) (below alt : Stack) :
    run setting ⟨[.op Opcode.checkSig], key :: signature :: below, alt⟩ =
      .ok (ScriptNumber.ofBool (SignatureOp.singleValid setting.hash key signature) :: below,
        alt) := by
  rw [run_cons, step_op setting (by decide) Opcode.operation?_checkSig]
  exact run_nil setting _ alt

theorem verdict_payToKeyHash_iff (setting : Setting) (hash : FixedBytes 20) (stack alt : Stack) :
    Script.verdict (run setting ⟨Script.payToKeyHash hash, stack, alt⟩) = .ok true ↔
      ∃ key signature below, stack = key :: signature :: below ∧ hash160 key = hash ∧
        SignatureOp.singleValid setting.hash key signature = true := by
  rw [Script.verdict_eq_true_iff]
  constructor
  · rintro ⟨top, rest, alt', hrun, htop⟩
    match stack with
    | [] =>
        rw [run_payToKeyHash_nil] at hrun
        cases hrun
    | [key] =>
        rw [run_payToKeyHash_cons, run_checkSig_singleton] at hrun
        split at hrun <;> cases hrun
    | key :: signature :: below =>
        rw [run_payToKeyHash_cons, run_checkSig_cons] at hrun
        split at hrun
        next hh =>
          cases hrun
          refine ⟨key, signature, _, rfl, hh, ?_⟩
          rw [ne_eq, ScriptNumber.ofBool_eq_nil_iff, Bool.not_eq_false] at htop
          exact htop
        next => cases hrun
  · rintro ⟨key, signature, below, rfl, hh, hv⟩
    rw [run_payToKeyHash_cons, if_pos hh, run_checkSig_cons, hv]
    exact ⟨_, below, alt, rfl, by simp [ScriptNumber.ofBool_eq_nil_iff]⟩

end Machine

namespace Transaction

theorem verifyInput_of_keyHash {tx : Transaction} {index : Nat} {input : Input} {spent : Output}
    {resolver : Resolver} {hash : FixedBytes 20} {z : Nat}
    (hinput : tx.inputs[index]? = some input) (hspent : resolver input.previous = .ok spent)
    (hlocking : spent.locking = Script.payToKeyHash hash)
    (hz : tx.sighash index sighashAll none resolver = .ok z) :
    tx.verifyInput index resolver =
      (input.unlocking ++ Script.payToKeyHash hash).evaluate z (some (tx.lockFields input)) := by
  have hnone : (Script.payToKeyHash hash).scriptHash? = none := rfl
  simp only [verifyInput, verifyInputWith, hinput, hspent, hlocking, hnone, runInput, hz, bind,
    Except.bind]

-- Whatever else it does, the unlocking script has to leave a signature and its key.
theorem verifyInput_payToKeyHash_iff {tx : Transaction} {index : Nat} {input : Input}
    {spent : Output} {resolver : Resolver} {hash : FixedBytes 20} {z : Nat}
    (hinput : tx.inputs[index]? = some input) (hspent : resolver input.previous = .ok spent)
    (hlocking : spent.locking = Script.payToKeyHash hash)
    (hz : tx.sighash index sighashAll none resolver = .ok z) :
    tx.verifyInput index resolver = .ok true ↔
      ∃ key signature below alt point sigma,
        input.unlocking.start.run ⟨z, some (tx.lockFields input), false⟩ =
          .ok (key :: signature :: below, alt) ∧
        hash160 key = hash ∧ Secp256k1.ofSec key = .ok point ∧
        Signature.ofDer signature.dropLast = .ok sigma ∧ sigma.verifies point z = true := by
  rw [verifyInput_of_keyHash hinput hspent hlocking hz,
    Script.evaluate_append_sealed (Script.sealed_payToKeyHash hash)]
  cases hrun : input.unlocking.start.run ⟨z, some (tx.lockFields input), false⟩ with
  | error stop => simp
  | ok ended =>
      rcases ended with ⟨stack, alt⟩
      simp only [Machine.verdict_payToKeyHash_iff, SignatureOp.singleValid_iff]
      constructor
      · rintro ⟨key, signature, below, rfl, hh, point, sigma, hp, hs, hv⟩
        exact ⟨key, signature, below, alt, point, sigma, rfl, hh, hp, hs, hv⟩
      · rintro ⟨key, signature, below, alt', point, sigma, he, hh, hp, hs, hv⟩
        cases he
        exact ⟨key, signature, below, rfl, hh, point, sigma, hp, hs, hv⟩

-- The signature and the key are enough, and with a conditional left open there are no two
-- elements to check.
theorem verifyInput_payToKeyHash_secret_one :
    ∃ (tx : Transaction) (input : Input) (spent : Output) (resolver : Resolver)
      (key : PrivateKey) (z : Nat) (draws : List Bytes) (signature : Signature),
      tx.inputs[0]? = some input ∧ resolver input.previous = .ok spent ∧
      spent.locking = Script.payToKeyHash (Secp256k1.keyHash true key.point) ∧
      tx.sighash 0 sighashAll none resolver = .ok z ∧ key.sign z draws = some signature ∧
      (tx.setUnlocking 0 ([signature.der ++ [1], Secp256k1.sec true key.point].map
        .push)).verifyInput 0 resolver = .ok true ∧
      (tx.setUnlocking 0 [.push [1], .op Opcode.ifTrue]).verifyInput 0 resolver ≠ .ok true := by
  let key : PrivateKey := ⟨1⟩
  let spent : Output := ⟨0, Script.payToKeyHash (Secp256k1.keyHash true key.point)⟩
  let input : Input := ⟨noOutpoint, [], 0⟩
  let tx : Transaction := ⟨1, [input], [], 0, .main⟩
  have hinput : tx.inputs[0]? = some input := rfl
  have hsecret : key.secret % Secp256k1.order ≠ 0 := by decide
  obtain ⟨z, hz⟩ : ∃ z, tx.sighash 0 sighashAll none (fun _ => .ok spent) = .ok z :=
    exists_sighash hinput (.inr ⟨rfl, spent, rfl, rfl⟩) (Script.encodable_payToKeyHash _)
      (List.forall_mem_nil _)
  obtain ⟨draws, signature, hsign⟩ := Signature.exists_sign hsecret z
  have hz' : ∀ unlocking, (tx.setUnlocking 0 unlocking).sighash 0 sighashAll none
      (fun _ => .ok spent) = .ok z := by
    intro unlocking
    rw [sighash_setUnlocking, hz]
  refine ⟨tx, input, spent, fun _ => .ok spent, key, z, draws, signature, hinput, rfl, rfl, hz,
    hsign, ?_, ?_⟩
  · obtain ⟨point, sigma, hpoint, hsigma, hverifies⟩ :=
      SignatureOp.singleValid_iff.mp (SignatureOp.singleValid_der hsecret hsign 1)
    rw [verifyInput_payToKeyHash_iff (getElem?_setUnlocking hinput _) rfl rfl (hz' _)]
    exact ⟨_, _, [], [], point, sigma, Machine.run_pushes_plain ⟨z, _, true⟩ _ [] [], rfl, hpoint,
      hsigma, hverifies⟩
  · rw [ne_eq, verifyInput_payToKeyHash_iff (getElem?_setUnlocking hinput _) rfl rfl (hz' _)]
    rintro ⟨_, _, _, _, _, _, hrun, -⟩
    rw [Script.start, Machine.run_cons] at hrun
    cases (Machine.run_open_conditional _ _ _).symm.trans hrun

end Transaction

end BitcoinSpend
