import BitcoinSpend.Proofs.Script.Isolation
import BitcoinSpend.Transaction.Spend

namespace BitcoinSpend

namespace Script

theorem scriptHash?_payToScriptHash (hash : FixedBytes 20) :
    (payToScriptHash hash).scriptHash? = some hash :=
  scriptHash?_eq_some_iff.mpr rfl

-- The push keeps the check from being all that is left before its turn.
theorem sealed_cons_payToScriptHash {last : Instruction} {raw : Bytes}
    (hlast : last.pushed? = some raw) (hash : FixedBytes 20) :
    Script.Sealed (last :: payToScriptHash hash) where
  three_le_length := by simp [payToScriptHash]
  ne_payToScriptHash := by simp [payToScriptHash]
  closesAtMost := by
    apply closesAtMost_of_notMem
    have hne : last ≠ .op Opcode.endIf := by
      rintro rfl
      cases hlast
    simp only [payToScriptHash, List.mem_cons, List.not_mem_nil, or_false, Instruction.op.injEq,
      reduceCtorEq, hne.symm]
    decide

end Script

namespace Machine

-- The data does not get on the stack. It takes the place of the check.
theorem run_committed (z : Int) (fields : Option LockFields) {last : Instruction} {raw : Bytes}
    {redeem : Script} (hlast : last.pushed? = some raw) (hraw : Script.ofBytes raw = .ok redeem)
    (hash : FixedBytes 20) (stack alt : Stack) :
    run ⟨z, fields, true⟩ ⟨last :: Script.payToScriptHash hash, stack, alt⟩ =
      if hash160 raw = hash then run ⟨z, fields, true⟩ ⟨redeem, stack, alt⟩
      else .error .failed := by
  rw [run_cons, step_of_pushed? _ hlast, push, if_pos rfl, Script.scriptHash?_payToScriptHash]
  by_cases hh : hash160 raw = hash
  · simp [hh, hraw, Except.bind]
  · simp [hh, Except.bind]

end Machine

namespace Transaction

variable {tx : Transaction} {index : Nat} {input : Input} {spent : Output} {resolver : Resolver}
  {hash : FixedBytes 20}

theorem verifyInput_of_committed? {raw : Bytes} {redeem : Script} {z : Nat}
    (hinput : tx.inputs[index]? = some input) (hspent : resolver input.previous = .ok spent)
    (hlocking : spent.locking = Script.payToScriptHash hash)
    (hcommitted : committed? input.unlocking = some raw) (hraw : Script.ofBytes raw = .ok redeem)
    (hz : tx.sighash index sighashAll (some redeem) resolver = .ok z) :
    tx.verifyInput index resolver =
      (input.unlocking ++ Script.payToScriptHash hash).evaluate z
        (some (tx.lockFields input)) := by
  simp only [verifyInput, verifyInputWith, hinput, hspent, hlocking,
    Script.scriptHash?_payToScriptHash, hcommitted, hraw, runInput, hz, bind, Except.bind]

theorem verifyInput_of_committed?_eq_none
    (hinput : tx.inputs[index]? = some input) (hspent : resolver input.previous = .ok spent)
    (hlocking : spent.locking = Script.payToScriptHash hash)
    (hcommitted : committed? input.unlocking = none) :
    tx.verifyInput index resolver = .ok false := by
  simp only [verifyInput, verifyInputWith, hinput, hspent, hlocking,
    Script.scriptHash?_payToScriptHash, hcommitted, bind, Except.bind]
  rfl

-- The committed script starts from the stacks that the other instructions leave.
theorem verifyInput_payToScriptHash_iff
    (hinput : tx.inputs[index]? = some input) (hspent : resolver input.previous = .ok spent)
    (hlocking : spent.locking = Script.payToScriptHash hash) :
    (∀ (init : Script) (last : Instruction) (raw : Bytes) (redeem : Script) (z : Nat),
      input.unlocking = init ++ [last] → last.pushed? = some raw →
      Script.ofBytes raw = .ok redeem →
      tx.sighash index sighashAll (some redeem) resolver = .ok z →
      (tx.verifyInput index resolver = .ok true ↔
        hash160 raw = hash ∧
        ∃ stack alt, init.start.run ⟨z, some (tx.lockFields input), false⟩ = .ok (stack, alt) ∧
        ∃ top below alt',
          Machine.run ⟨z, some (tx.lockFields input), true⟩ ⟨redeem, stack, alt⟩ =
            .ok (top :: below, alt') ∧
          top ≠ [])) ∧
    (input.unlocking = [] ∨
        (∃ init last, input.unlocking = init ++ [last] ∧ last.pushed? = none) →
      tx.verifyInput index resolver = .ok false) := by
  constructor
  · intro init last raw redeem z hunlocking hlast hraw hz
    have hcommitted : committed? input.unlocking = some raw := by
      simp [committed?, hunlocking, hlast]
    rw [verifyInput_of_committed? hinput hspent hlocking hcommitted hraw hz, hunlocking,
      List.append_assoc, List.singleton_append,
      Script.evaluate_append_sealed (Script.sealed_cons_payToScriptHash hlast hash)]
    cases hrun : init.start.run ⟨z, some (tx.lockFields input), false⟩ with
    | error stop => simp
    | ok ended =>
        rcases ended with ⟨stack, alt⟩
        simp only [Machine.run_committed _ _ hlast hraw, Script.verdict_eq_true_iff]
        by_cases hh : hash160 raw = hash
        · simp [hh]
        · simp [hh]
  · intro hunlocking
    apply verifyInput_of_committed?_eq_none hinput hspent hlocking
    rcases hunlocking with hu | ⟨init, last, hu, hlast⟩
    · simp [committed?, hu]
    · simp [committed?, hu, hlast]

-- The committed script doubles the element that the first phase leaves.
theorem verifyInput_payToScriptHash_dup :
    ∃ (tx : Transaction) (input : Input) (spent : Output) (resolver : Resolver)
      (hash : FixedBytes 20),
      tx.inputs[0]? = some input ∧ resolver input.previous = .ok spent ∧
      spent.locking = Script.payToScriptHash hash ∧
      input.unlocking = [.push [1], .push [Opcode.dup]] ∧
      tx.verifyInput 0 resolver = .ok true := by
  let input : Input := ⟨noOutpoint, [.push [1], .push [Opcode.dup]], 0⟩
  let spent : Output := ⟨0, Script.payToScriptHash (hash160 [Opcode.dup])⟩
  let resolver : Resolver := fun _ => .ok spent
  have hraw : Script.ofBytes [Opcode.dup] = .ok [.op Opcode.dup] := by
    have hread : Instruction.read [Opcode.dup] = .ok (.op Opcode.dup, []) := rfl
    have hend : Script.readItems [Opcode.dup].length
        (0 + ([Opcode.dup].length - ([] : Bytes).length)) [] = .ok ([], []) :=
      Script.readItems_self 1 []
    rw [Script.ofBytes, Script.readItems_of_read (by decide) hread, hend]
    rfl
  obtain ⟨z, hz⟩ : ∃ z, sighash ⟨1, [input], [], 0, .main⟩ 0 sighashAll (some [.op Opcode.dup])
      resolver = .ok z := ⟨_, rfl⟩
  refine ⟨⟨1, [input], [], 0, .main⟩, input, spent, resolver, _, rfl, rfl, rfl, rfl, ?_⟩
  obtain ⟨hspend, -⟩ := @verifyInput_payToScriptHash_iff ⟨1, [input], [], 0, .main⟩ 0 input spent
    resolver (hash160 [Opcode.dup]) rfl rfl rfl
  rw [hspend [.push [1]] (.push [Opcode.dup]) _ _ z rfl rfl hraw hz]
  refine ⟨rfl, [[1]], [], ?_, [1], [[1]], [], ?_, by simp⟩
  · exact (Machine.run_of_step rfl).trans (Machine.run_nil _ _ _)
  · exact (Machine.run_of_step rfl).trans (Machine.run_nil _ _ _)

end Transaction

end BitcoinSpend
