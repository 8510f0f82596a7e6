import BitcoinSpend.Proofs.Spend.KeyHash

namespace BitcoinSpend

namespace Transaction

theorem verifyInput_of_signature {tx : Transaction} {index : Nat} {input : Input} {spent : Output}
    {resolver : Resolver} {key : PrivateKey} {z : Nat} {draws : List Bytes}
    {signature : Signature} {type : UInt8} (hsecret : key.secret % Secp256k1.order ≠ 0)
    (hinput : tx.inputs[index]? = some input) (hspent : resolver input.previous = .ok spent)
    (hlocking : spent.locking = Script.payToKeyHash (Secp256k1.keyHash true key.point))
    (hz : tx.sighash index sighashAll none resolver = .ok z)
    (hsign : key.sign z draws = some signature)
    (hunlocking : input.unlocking =
      [signature.der ++ [type], Secp256k1.sec true key.point].map .push) :
    tx.verifyInput index resolver = .ok true := by
  have hrun : input.unlocking.start.run ⟨z, some (tx.lockFields input), false⟩ =
      .ok ([Secp256k1.sec true key.point, signature.der ++ [type]], []) := by
    rw [hunlocking]
    exact Machine.run_pushes_plain ⟨z, some (tx.lockFields input), true⟩ _ [] []
  rw [verifyInput_of_keyHash hinput hspent hlocking hz,
    Script.evaluate_append_sealed (Script.sealed_payToKeyHash _), hrun]
  exact (Machine.verdict_payToKeyHash_iff _ _ _ _).mpr
    ⟨_, _, [], rfl, rfl, SignatureOp.singleValid_der hsecret hsign type⟩

section Calls

variable {tx signed : Transaction} {index : Nat} {key : PrivateKey} {type : UInt32}
  {draws : List Bytes} {answer : Except Error Bool}

-- A call that gets as far as a signature answers with the verdict on it.
theorem signInputWith_eq_some_iff {signing running hashing : Resolver} :
    tx.signInputWith index key type signing running hashing draws = some (signed, answer) ↔
      (signed = tx ∧
        ∃ cause, tx.sighash index type none signing = .error cause ∧ answer = .error cause) ∨
      ∃ z signature, tx.sighash index type none signing = .ok z ∧
        key.sign z draws = some signature ∧
        signed = tx.setUnlocking index
          [.push (signature.der ++ [type.toUInt8]), .push (Secp256k1.sec true key.point)] ∧
        answer = signed.verifyInputWith index running hashing := by
  constructor
  · intro h
    rw [signInputWith] at h
    cases hz : tx.sighash index type none signing with
    | error cause =>
        rw [hz] at h
        cases h
        exact .inl ⟨rfl, cause, rfl, rfl⟩
    | ok z =>
        rw [hz] at h
        obtain ⟨signature, hsign, h⟩ := Option.bind_eq_some_iff.mp h
        cases h
        exact .inr ⟨z, signature, rfl, hsign, rfl, rfl⟩
  · rintro (⟨rfl, cause, hz, rfl⟩ | ⟨z, signature, hz, hsign, rfl, rfl⟩)
    · rw [signInputWith, hz]
    · rw [signInputWith, hz]
      change (key.sign z draws).bind _ = _
      rw [hsign]
      rfl

theorem signInput_eq_some_iff {resolver : Resolver} :
    tx.signInput index key type resolver draws = some (signed, answer) ↔
      (signed = tx ∧
        ∃ cause, tx.sighash index type none resolver = .error cause ∧ answer = .error cause) ∨
      ∃ z signature, tx.sighash index type none resolver = .ok z ∧
        key.sign z draws = some signature ∧
        signed = tx.setUnlocking index
          [.push (signature.der ++ [type.toUInt8]), .push (Secp256k1.sec true key.point)] ∧
        answer = signed.verifyInput index resolver :=
  signInputWith_eq_some_iff

end Calls

-- The hash is taken without the unlocking scripts, so that a signature over it
-- still counts once it has a place in one of them.
theorem signInput_eq_some (tx : Transaction) (index : Nat) (input : Input) (spent : Output)
    (key : PrivateKey) (resolver : Resolver) (hinput : tx.inputs[index]? = some input)
    (houtputs : ∀ output ∈ tx.outputs, output.locking.Encodable)
    (hsecret : key.secret % Secp256k1.order ≠ 0) (hspent : resolver input.previous = .ok spent)
    (hlocking : spent.locking = Script.payToKeyHash (Secp256k1.keyHash true key.point)) :
    ∃ z, tx.sighash index sighashAll none resolver = .ok z ∧
      ∀ draws signature, key.sign z draws = some signature →
        ∃ (signed : Transaction) (unlocking : Script),
          tx.signInput index key sighashAll resolver draws = some (signed, .ok true) ∧
          signed.verifyInput index resolver = .ok true ∧
          signed = { tx with
            inputs := tx.inputs.set index { input with unlocking := unlocking } } := by
  have hencodable : spent.locking.Encodable := hlocking ▸ Script.encodable_payToKeyHash _
  obtain ⟨z, hz⟩ := exists_sighash hinput (.inr ⟨rfl, spent, hspent, rfl⟩) hencodable houtputs
  refine ⟨z, hz, ?_⟩
  intro draws signature hsign
  let unlocking : Script :=
    [signature.der ++ [sighashAll.toUInt8], Secp256k1.sec true key.point].map .push
  have hverify : (tx.setUnlocking index unlocking).verifyInput index resolver = .ok true := by
    have hz' : (tx.setUnlocking index unlocking).sighash index sighashAll none resolver =
        .ok z := by
      rw [sighash_setUnlocking, hz]
    exact verifyInput_of_signature hsecret (getElem?_setUnlocking hinput unlocking) hspent hlocking
      hz' hsign rfl
  refine ⟨tx.setUnlocking index unlocking, unlocking, ?_, hverify, ?_⟩
  · exact signInput_eq_some_iff.mpr (.inr ⟨z, signature, hz, hsign, rfl, hverify.symm⟩)
  · rw [setUnlocking, List.modify_eq_set_getElem?, hinput]
    rfl

-- Some draws hold a nonce that can be used, whatever the hash is.
theorem signInput_eq_some_secret_one :
    ∃ (tx : Transaction) (input : Input) (spent : Output) (key : PrivateKey) (resolver : Resolver),
      tx.inputs[0]? = some input ∧ (∀ output ∈ tx.outputs, output.locking.Encodable) ∧
      key.secret % Secp256k1.order ≠ 0 ∧ resolver input.previous = .ok spent ∧
      spent.locking = Script.payToKeyHash (Secp256k1.keyHash true key.point) ∧
      ∃ draws signed, tx.signInput 0 key sighashAll resolver draws = some (signed, .ok true) ∧
        signed.verifyInput 0 resolver = .ok true := by
  let key : PrivateKey := ⟨1⟩
  let spent : Output := ⟨2, Script.payToKeyHash (Secp256k1.keyHash true key.point)⟩
  let input : Input := ⟨noOutpoint, [], 0⟩
  let tx : Transaction := ⟨1, [input], [⟨1, spent.locking⟩], 0, .main⟩
  have houtputs : ∀ output ∈ tx.outputs, output.locking.Encodable := by
    intro output houtput
    rw [List.mem_singleton.mp houtput]
    exact Script.encodable_payToKeyHash _
  have hsecret : key.secret % Secp256k1.order ≠ 0 := by decide
  obtain ⟨z, -, hsigned⟩ :=
    signInput_eq_some tx 0 input spent key (fun _ => .ok spent) rfl houtputs hsecret rfl rfl
  obtain ⟨draws, signature, hsign⟩ := Signature.exists_sign hsecret z
  obtain ⟨signed, -, hresult, hverify, -⟩ := hsigned draws signature hsign
  exact ⟨tx, input, spent, key, fun _ => .ok spent, rfl, houtputs, hsecret, rfl, rfl, draws, signed,
    hresult, hverify⟩

end Transaction

end BitcoinSpend
