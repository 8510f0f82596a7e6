import BitcoinSpend.Proofs.Spend.ScriptHash
import BitcoinSpend.Proofs.Spend.Sighash
import BitcoinSpend.Proofs.Wire.RoundTrip

namespace BitcoinSpend

-- The hash is compared before the data is read as a script.
theorem Machine.run_mismatch (z : Int) (fields : Option LockFields) {last : Instruction}
    {raw : Bytes} (hlast : last.pushed? = some raw) {hash : FixedBytes 20}
    (hne : hash160 raw ≠ hash) (stack alt : Stack) :
    run ⟨z, fields, true⟩ ⟨last :: Script.payToScriptHash hash, stack, alt⟩ = .error .failed := by
  rw [run_cons, step_of_pushed? _ hlast, push, if_pos rfl, Script.scriptHash?_payToScriptHash]
  simp [hne, Except.bind]

namespace Transaction

theorem committed?_eq_some_iff {unlocking : Script} {raw : Bytes} :
    committed? unlocking = some raw ↔
      ∃ init last, unlocking = init ++ [last] ∧ last.pushed? = some raw := by
  rw [committed?, Option.bind_eq_some_iff]
  constructor
  · rintro ⟨last, hlast, hpushed⟩
    obtain ⟨init, rfl⟩ := List.getLast?_eq_some_iff.mp hlast
    exact ⟨init, last, rfl, hpushed⟩
  · rintro ⟨init, last, rfl, hpushed⟩
    exact ⟨last, List.getLast?_concat, hpushed⟩

theorem evaluate_of_mismatch {unlocking : Script} {raw : Bytes} {hash : FixedBytes 20}
    (hcommitted : committed? unlocking = some raw) (hne : hash160 raw ≠ hash) (z : Int)
    (fields : Option LockFields) :
    (unlocking ++ Script.payToScriptHash hash).evaluate z fields = .ok false := by
  obtain ⟨init, last, rfl, hlast⟩ := committed?_eq_some_iff.mp hcommitted
  rw [List.append_assoc, List.singleton_append,
    Script.evaluate_append_sealed (Script.sealed_cons_payToScriptHash hlast hash)]
  cases (Script.start init).run ⟨z, fields, false⟩ with
  | error stop => rfl
  | ok ended =>
      rcases ended with ⟨stack, alt⟩
      simp only [Machine.run_mismatch z fields hlast hne]
      rfl

variable {tx : Transaction} {index : Nat} {input : Input} {spent : Output} {resolver : Resolver}
  {hash : FixedBytes 20} {raw : Bytes}

theorem verifyInput_of_unreadable {cause : Error}
    (hinput : tx.inputs[index]? = some input) (hspent : resolver input.previous = .ok spent)
    (hlocking : spent.locking = Script.payToScriptHash hash)
    (hcommitted : committed? input.unlocking = some raw) (hraw : Script.ofBytes raw = .error cause) :
    tx.verifyInput index resolver = .error cause := by
  simp only [verifyInput, verifyInputWith, hinput, hspent, hlocking,
    Script.scriptHash?_payToScriptHash, hcommitted, hraw, bind, Except.bind]

theorem verifyInput_of_readable_mismatch {redeem : Script}
    (hinput : tx.inputs[index]? = some input) (hspent : resolver input.previous = .ok spent)
    (hlocking : spent.locking = Script.payToScriptHash hash)
    (houtputs : ∀ output ∈ tx.outputs, output.locking.Encodable)
    (hcommitted : committed? input.unlocking = some raw) (hne : hash160 raw ≠ hash)
    (hraw : Script.ofBytes raw = .ok redeem) :
    tx.verifyInput index resolver = .ok false := by
  obtain ⟨z, hz⟩ := exists_sighash hinput (Or.inl (Eq.refl (some redeem)))
    (Script.encodable_of_ofBytes hraw) houtputs
  rw [verifyInput_of_committed? hinput hspent hlocking hcommitted hraw hz]
  exact evaluate_of_mismatch hcommitted hne z _

-- Data that is not what the output commits to is still read as a script before any
-- hash is compared. So the verdict is false only where it can be read, and an error
-- where it cannot, although running both scripts says false there too.
theorem verifyInput_of_mismatch
    (hinput : tx.inputs[index]? = some input) (hspent : resolver input.previous = .ok spent)
    (hlocking : spent.locking = Script.payToScriptHash hash)
    (houtputs : ∀ output ∈ tx.outputs, output.locking.Encodable)
    (hmismatch : ∀ raw, committed? input.unlocking = some raw → hash160 raw ≠ hash) :
    tx.verifyInput index resolver ≠ .ok true ∧
    (tx.verifyInput index resolver = .ok false ↔
      ∀ raw, committed? input.unlocking = some raw → ∃ redeem, Script.ofBytes raw = .ok redeem) ∧
    ∀ raw, committed? input.unlocking = some raw →
      (∀ z fields, (input.unlocking ++ spent.locking).evaluate z fields = .ok false) ∧
      ∀ cause, Script.ofBytes raw = .error cause →
        tx.verifyInput index resolver = .error cause := by
  rw [hlocking]
  cases hcommitted : committed? input.unlocking with
  | none =>
      have hfalse := verifyInput_of_committed?_eq_none hinput hspent hlocking hcommitted
      simp [hfalse]
  | some raw =>
      have hne := hmismatch raw hcommitted
      have hevaluate := evaluate_of_mismatch hcommitted hne
      cases hraw : Script.ofBytes raw with
      | ok redeem =>
          have hfalse := verifyInput_of_readable_mismatch hinput hspent hlocking houtputs hcommitted
            hne hraw
          simp [hfalse, hevaluate, hraw]
      | error cause =>
          have herror := verifyInput_of_unreadable hinput hspent hlocking hcommitted hraw
          simp [herror, hevaluate, hraw]

-- A hash that no known data has.
def zeroHash : FixedBytes 20 :=
  ⟨List.replicate 20 0, List.length_replicate⟩

def zeroHashResolver : Resolver := fun _ =>
  .ok ⟨0, Script.payToScriptHash zeroHash⟩

-- The data announces a length and ends there.
def lonePushSpend : Transaction :=
  ⟨1, [⟨noOutpoint, [.push [76]], 0⟩], [], 0, .main⟩

theorem ofBytes_lonePush : Script.ofBytes [76] = .error (.script (.missingPushLength 76)) := by
  rw [Script.ofBytes, Script.readItems]
  rfl

theorem hash160_lonePush_ne (raw : Bytes) (h : committed? [.push [76]] = some raw) :
    hash160 raw ≠ zeroHash := by
  cases h
  decide +kernel

theorem verifyInput_of_mismatch_lonePush :
    (∀ raw, committed? [.push [76]] = some raw → hash160 raw ≠ zeroHash) ∧
      (∀ output ∈ lonePushSpend.outputs, output.locking.Encodable) ∧
      lonePushSpend.verifyInput 0 zeroHashResolver = .error (.script (.missingPushLength 76)) ∧
      ∀ z fields, Script.evaluate ([.push [76]] ++ Script.payToScriptHash zeroHash) z fields =
        .ok false := by
  have houtputs : ∀ output ∈ lonePushSpend.outputs, output.locking.Encodable :=
    List.forall_mem_nil _
  obtain ⟨-, -, hcommitted⟩ := @verifyInput_of_mismatch lonePushSpend 0 _ _ zeroHashResolver
    zeroHash rfl rfl rfl houtputs hash160_lonePush_ne
  obtain ⟨hevaluate, herror⟩ := hcommitted [76] rfl
  exact ⟨hash160_lonePush_ne, houtputs, herror _ ofBytes_lonePush, hevaluate⟩

theorem not_forall_verifyInput_of_mismatch_eq_false :
    ¬ ∀ (tx : Transaction) (index : Nat) (input : Input) (spent : Output) (resolver : Resolver)
        (hash : FixedBytes 20),
      tx.inputs[index]? = some input → resolver input.previous = .ok spent →
      spent.locking = Script.payToScriptHash hash →
      (∀ output ∈ tx.outputs, output.locking.Encodable) →
      (∀ raw, committed? input.unlocking = some raw → hash160 raw ≠ hash) →
        tx.verifyInput index resolver = .ok false := by
  intro h
  have hfalse := h lonePushSpend 0 _ _ zeroHashResolver zeroHash rfl rfl rfl
    (List.forall_mem_nil _) hash160_lonePush_ne
  have herror : lonePushSpend.verifyInput 0 zeroHashResolver = .error _ :=
    verifyInput_of_unreadable rfl rfl rfl rfl ofBytes_lonePush
  rw [herror] at hfalse
  cases hfalse

end Transaction

end BitcoinSpend
