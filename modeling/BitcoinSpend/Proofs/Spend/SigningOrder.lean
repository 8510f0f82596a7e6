import BitcoinSpend.Proofs.Spend.Signing

namespace BitcoinSpend

-- A call to sign one input.
structure SigningCall where
  index : Nat
  key : PrivateKey
  type : UInt32
  draws : List Bytes

namespace Transaction

variable {tx tx' signed final : Transaction} {index : Nat} {resolver : Resolver}

-- Makes one call after the other. The result has an answer for each of them.
def signAll (resolver : Resolver) (tx : Transaction) :
    List SigningCall → Option (Transaction × List (Except Error Bool))
  | [] => some (tx, [])
  | call :: calls => do
      let (signed, answer) ← tx.signInput call.index call.key call.type resolver call.draws
      let (final, answers) ← signed.signAll resolver calls
      return (final, answer :: answers)

theorem sighash_eq_of_unsigned_eq (h : tx.unsigned = tx'.unsigned) (index : Nat) (type : UInt32)
    (redeem : Option Script) (resolver : Resolver) :
    tx.sighash index type redeem resolver = tx'.sighash index type redeem resolver := by
  rw [← sighash_unsigned, h, sighash_unsigned]

theorem runInput_eq_of_unsigned_eq (h : tx.unsigned = tx'.unsigned) (index : Nat) (input : Input)
    (locking : Script) (redeem : Option Script) (resolver : Resolver) :
    tx.runInput index input locking redeem resolver =
      tx'.runInput index input locking redeem resolver := by
  have hversion : tx.version = tx'.version := by
    change tx.unsigned.version = tx'.unsigned.version
    rw [h]
  have hlocktime : tx.locktime = tx'.locktime := by
    change tx.unsigned.locktime = tx'.unsigned.locktime
    rw [h]
  rw [runInput, runInput, lockFields, lockFields, sighash_eq_of_unsigned_eq h, hversion, hlocktime]

-- Of the unlocking scripts only the one of the input itself counts.
theorem verifyInput_eq_of_unsigned_eq (h : tx.unsigned = tx'.unsigned)
    (hinput : tx.inputs[index]? = tx'.inputs[index]?) (resolver : Resolver) :
    tx.verifyInput index resolver = tx'.verifyInput index resolver := by
  simp only [verifyInput, verifyInputWith, hinput, runInput_eq_of_unsigned_eq h]

theorem signInput_frame {key : PrivateKey} {type : UInt32} {draws : List Bytes}
    {answer : Except Error Bool}
    (h : tx.signInput index key type resolver draws = some (signed, answer)) :
    signed.unsigned = tx.unsigned ∧
      ∀ other, other ≠ index → signed.inputs[other]? = tx.inputs[other]? := by
  rcases signInput_eq_some_iff.mp h with ⟨rfl, -⟩ | ⟨_, _, -, -, rfl, -⟩
  · exact ⟨rfl, fun _ _ => rfl⟩
  · refine ⟨unsigned_setUnlocking tx index _, fun other hother => ?_⟩
    exact List.getElem?_modify_ne _ _ hother.symm

theorem signAll_cons_eq_some_iff {call : SigningCall} {calls : List SigningCall}
    {answers : List (Except Error Bool)} :
    tx.signAll resolver (call :: calls) = some (final, answers) ↔
      ∃ signed answer rest,
        tx.signInput call.index call.key call.type resolver call.draws = some (signed, answer) ∧
        signed.signAll resolver calls = some (final, rest) ∧ answers = answer :: rest := by
  constructor
  · intro h
    obtain ⟨⟨signed, answer⟩, hsign, h⟩ := Option.bind_eq_some_iff.mp h
    obtain ⟨⟨last, rest⟩, hcalls, h⟩ := Option.bind_eq_some_iff.mp h
    cases h
    exact ⟨signed, answer, rest, hsign, hcalls, rfl⟩
  · rintro ⟨signed, answer, rest, hsign, hcalls, rfl⟩
    rw [signAll, hsign]
    change (signed.signAll resolver calls).bind _ = _
    rw [hcalls]
    rfl

theorem signAll_frame {calls : List SigningCall} {answers : List (Except Error Bool)}
    (h : tx.signAll resolver calls = some (final, answers)) :
    final.unsigned = tx.unsigned ∧
      ∀ other, other ∉ calls.map SigningCall.index → final.inputs[other]? = tx.inputs[other]? := by
  induction calls generalizing tx answers with
  | nil =>
      cases h
      exact ⟨rfl, fun _ _ => rfl⟩
  | cons call calls ih =>
      obtain ⟨signed, answer, rest, hsign, hcalls, -⟩ := signAll_cons_eq_some_iff.mp h
      obtain ⟨hunsigned, hinputs⟩ := signInput_frame hsign
      obtain ⟨hunsigned', hinputs'⟩ := ih hcalls
      refine ⟨hunsigned'.trans hunsigned, fun other hother => ?_⟩
      rw [List.map_cons, List.mem_cons, not_or] at hother
      exact (hinputs' other hother.2).trans (hinputs other hother.1)

theorem verifyInput_of_signAll {calls : List SigningCall} {answers : List (Except Error Bool)}
    (h : tx.signAll resolver calls = some (final, answers))
    (hnodup : (calls.map SigningCall.index).Nodup) :
    List.Forall₂ (fun call answer => ∀ verdict, answer = .ok verdict →
      final.verifyInput call.index resolver = .ok verdict) calls answers := by
  induction calls generalizing tx answers with
  | nil =>
      cases h
      exact .nil
  | cons call calls ih =>
      obtain ⟨signed, answer, rest, hsign, hcalls, rfl⟩ := signAll_cons_eq_some_iff.mp h
      rw [List.map_cons, List.nodup_cons] at hnodup
      refine .cons (fun verdict hanswer => ?_) (ih hcalls hnodup.2)
      -- no later call is for this input
      obtain ⟨hunsigned, hinputs⟩ := signAll_frame hcalls
      rw [verifyInput_eq_of_unsigned_eq hunsigned (hinputs _ hnodup.1)]
      rcases signInput_eq_some_iff.mp hsign with
        ⟨-, cause, -, hcause⟩ | ⟨-, -, -, -, -, hverdict⟩
      · rw [hcause] at hanswer
        cases hanswer
      · rw [← hverdict, hanswer]

-- No signature covers an unlocking script, and no verdict on an input depends on
-- that of another one, so that inputs can be signed in any order.
theorem signingOrder_irrelevant (resolver : Resolver) :
    (∀ tx tx' : Transaction, tx.unsigned = tx'.unsigned → ∀ index type redeem,
      tx.sighash index type redeem resolver = tx'.sighash index type redeem resolver) ∧
    (∀ (tx tx' : Transaction) (index : Nat), tx.unsigned = tx'.unsigned →
      tx.inputs[index]? = tx'.inputs[index]? →
      tx.verifyInput index resolver = tx'.verifyInput index resolver) ∧
    ∀ (tx final : Transaction) (calls : List SigningCall) (answers : List (Except Error Bool)),
      tx.signAll resolver calls = some (final, answers) →
      (calls.map SigningCall.index).Nodup →
      List.Forall₂ (fun call answer => ∀ verdict, answer = .ok verdict →
        final.verifyInput call.index resolver = .ok verdict) calls answers := by
  refine ⟨fun _ _ h _ _ _ => sighash_eq_of_unsigned_eq h _ _ _ _, fun _ _ _ h hinput => ?_,
    fun _ _ _ _ => verifyInput_of_signAll⟩
  exact verifyInput_eq_of_unsigned_eq h hinput resolver

theorem exists_signInput {input : Input} {spent : Output} {key : PrivateKey}
    (hsecret : key.secret % Secp256k1.order ≠ 0) (hinput : tx.inputs[index]? = some input)
    (hspent : resolver input.previous = .ok spent)
    (hlocking : spent.locking = Script.payToKeyHash (Secp256k1.keyHash true key.point))
    (houtputs : ∀ output ∈ tx.outputs, output.locking.Encodable) :
    ∃ draws unlocking, tx.signInput index key sighashAll resolver draws =
      some (tx.setUnlocking index unlocking, .ok true) := by
  obtain ⟨z, hz⟩ : ∃ z, tx.sighash index sighashAll none resolver = .ok z :=
    exists_sighash hinput (.inr ⟨rfl, spent, hspent, hlocking⟩)
      (Script.encodable_payToKeyHash _) houtputs
  obtain ⟨draws, signature, hsign⟩ := Signature.exists_sign hsecret z
  let unlocking : Script :=
    [signature.der ++ [sighashAll.toUInt8], Secp256k1.sec true key.point].map .push
  have hverify : (tx.setUnlocking index unlocking).verifyInput index resolver = .ok true :=
    verifyInput_of_signature hsecret (getElem?_setUnlocking hinput unlocking) hspent hlocking
      (by rw [sighash_setUnlocking, hz]) hsign rfl
  exact ⟨draws, unlocking,
    signInput_eq_some_iff.mpr (.inr ⟨z, signature, hz, hsign, rfl, hverify.symm⟩)⟩

-- Two keys, and the second input signed before the first.
theorem signingOrder_irrelevant_second_first :
    ∃ (resolver : Resolver) (tx signed final : Transaction) (first second : SigningCall),
      first.index = 1 ∧ second.index = 0 ∧
      tx.signAll resolver [first] = some (signed, [.ok true]) ∧
      tx.signAll resolver [first, second] = some (final, [.ok true, .ok true]) ∧
      tx.unsigned = final.unsigned ∧
      tx.sighash 0 sighashAll none resolver = final.sighash 0 sighashAll none resolver ∧
      signed.unsigned = final.unsigned ∧ signed.inputs[1]? = final.inputs[1]? ∧
      signed.verifyInput 1 resolver = final.verifyInput 1 resolver ∧
      final.verifyInput 0 resolver = .ok true ∧ final.verifyInput 1 resolver = .ok true := by
  let keys : Nat → PrivateKey := fun index => ⟨index + 1⟩
  let spent : Nat → Output := fun index =>
    ⟨1, Script.payToKeyHash (Secp256k1.keyHash true (keys index).point)⟩
  let resolver : Resolver := fun outpoint => .ok (spent outpoint.index.toNat)
  let input : UInt32 → Input := fun index => ⟨⟨noOutpoint.txid, index⟩, [], 0⟩
  let tx : Transaction := ⟨1, [input 0, input 1], [], 0, .main⟩
  obtain ⟨draws, unlocking, hfirst⟩ : ∃ draws unlocking,
      tx.signInput 1 (keys 1) sighashAll resolver draws =
        some (tx.setUnlocking 1 unlocking, .ok true) :=
    exists_signInput (by decide) (by rfl) (by rfl) (by rfl) (by simp [tx])
  let signed := tx.setUnlocking 1 unlocking
  obtain ⟨draws', unlocking', hsecond⟩ : ∃ draws unlocking,
      signed.signInput 0 (keys 0) sighashAll resolver draws =
        some (signed.setUnlocking 0 unlocking, .ok true) :=
    exists_signInput (by decide) (by rfl) (by rfl) (by rfl) (by simp [signed, setUnlocking, tx])
  let final := signed.setUnlocking 0 unlocking'
  let first : SigningCall := ⟨1, keys 1, sighashAll, draws⟩
  let second : SigningCall := ⟨0, keys 0, sighashAll, draws'⟩
  have hsigned : tx.signAll resolver [first] = some (signed, [.ok true]) :=
    signAll_cons_eq_some_iff.mpr ⟨signed, .ok true, [], hfirst, rfl, rfl⟩
  have hrest : signed.signAll resolver [second] = some (final, [.ok true]) :=
    signAll_cons_eq_some_iff.mpr ⟨final, .ok true, [], hsecond, rfl, rfl⟩
  have hfinal : tx.signAll resolver [first, second] = some (final, [.ok true, .ok true]) :=
    signAll_cons_eq_some_iff.mpr ⟨signed, .ok true, [.ok true], hfirst, hrest, rfl⟩
  obtain ⟨hsighash, hverify, hall⟩ := signingOrder_irrelevant resolver
  have hunsigned : tx.unsigned = final.unsigned := by
    rw [unsigned_setUnlocking, unsigned_setUnlocking]
  have hunsigned' : signed.unsigned = final.unsigned := (unsigned_setUnlocking _ _ _).symm
  have hnodup : ([first, second].map SigningCall.index).Nodup := by
    simp [first, second]
  have hverdicts := hall tx final [first, second] [.ok true, .ok true] hfinal hnodup
  obtain ⟨hverdict, hverdicts⟩ := List.forall₂_cons.mp hverdicts
  obtain ⟨hverdict', -⟩ := List.forall₂_cons.mp hverdicts
  exact ⟨resolver, tx, signed, final, first, second, rfl, rfl, hsigned, hfinal, hunsigned,
    hsighash tx final hunsigned _ _ _, hunsigned', rfl,
    hverify signed final 1 hunsigned' rfl, hverdict' true rfl, hverdict true rfl⟩

end Transaction

end BitcoinSpend
