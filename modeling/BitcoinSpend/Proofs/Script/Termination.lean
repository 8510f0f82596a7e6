import BitcoinSpend.Proofs.Wire.Form
import BitcoinSpend.Script.Machine

namespace BitcoinSpend

namespace Machine

-- One iteration that the run goes on after. It takes the instruction in front off
-- the program.
def Continues (setting : Setting) (m next : Machine) : Prop :=
  ∃ item rest, m.program = item :: rest ∧ step setting item { m with program := rest } = .ok next

theorem Continues.weight_lt {setting : Setting} {m next : Machine}
    (h : Continues setting m next) : Script.weight next.program < Script.weight m.program := by
  obtain ⟨item, rest, hprogram, hstep⟩ := h
  rw [hprogram, Script.weight]
  exact step_weight hstep

-- The run with a bound on its iterations, the one that stops it included. There is
-- no result when they are used up before the program is.
def runWithin (setting : Setting) : Nat → Machine → Option (Except Stop (Stack × Stack))
  | _, ⟨[], stack, alt⟩ => some (.ok (stack, alt))
  | 0, ⟨_ :: _, _, _⟩ => none
  | iterations + 1, ⟨item :: rest, stack, alt⟩ =>
      match step setting item ⟨rest, stack, alt⟩ with
      | .error stop => some (.error stop)
      | .ok next => runWithin setting iterations next

theorem runWithin_nil (setting : Setting) (iterations : Nat) (stack alt : Stack) :
    runWithin setting iterations ⟨[], stack, alt⟩ = some (.ok (stack, alt)) := by
  cases iterations <;> rfl

-- An iteration costs at least one of the weight, and so the weight pays for all of them.
theorem runWithin_eq_some_run (setting : Setting) {iterations : Nat} {m : Machine}
    (h : Script.weight m.program ≤ iterations) :
    runWithin setting iterations m = some (run setting m) := by
  induction iterations generalizing m with
  | zero =>
      rcases m with ⟨_ | ⟨item, rest⟩, stack, alt⟩
      · rw [runWithin_nil, run_nil]
      · have hitem := item.weight_pos
        simp only [Script.weight] at h
        omega
  | succ iterations ih =>
      rcases m with ⟨_ | ⟨item, rest⟩, stack, alt⟩
      · rw [runWithin_nil, run_nil]
      · rw [runWithin, run_cons]
        cases hstep : step setting item ⟨rest, stack, alt⟩ with
        | error stop => rfl
        | ok next =>
            have hcontinues : Continues setting ⟨item :: rest, stack, alt⟩ next :=
              ⟨item, rest, rfl, hstep⟩
            exact ih (Nat.le_of_lt_succ (hcontinues.weight_lt.trans_le h))

end Machine

namespace Script

-- Neither a branch nor a committed script that is put in place of what was left to
-- do makes up for the instruction that put it there.
theorem evaluate_ends (script : Script) (hash : Int) (fields : Option LockFields) :
    (∀ m next, Machine.Continues ⟨hash, fields, true⟩ m next →
      weight next.program < weight m.program) ∧
    ∃ result, Machine.runWithin ⟨hash, fields, true⟩ (weight script) script.start = some result ∧
      script.evaluate hash fields = verdict result := by
  constructor
  · intro m next h
    exact h.weight_lt
  · have hle : weight script.start.program ≤ weight script := Nat.le_refl _
    exact ⟨_, Machine.runWithin_eq_some_run ⟨hash, fields, true⟩ hle, rfl⟩

theorem continues_committed (hash : Int) (fields : Option LockFields) {raw : Bytes}
    {committed : Script} (hraw : ofBytes raw = .ok committed) :
    Machine.Continues ⟨hash, fields, true⟩ (start (.push raw :: payToScriptHash (hash160 raw)))
      committed.start := by
  have hcheck : scriptHash? (payToScriptHash (hash160 raw)) = some (hash160 raw) :=
    scriptHash?_eq_some_iff.mpr rfl
  refine ⟨.push raw, payToScriptHash (hash160 raw), rfl, ?_⟩
  simp [Machine.step, Machine.push, start, hcheck, hraw]

-- The committed script commits to another one.
theorem evaluate_ends_committed_twice :
    ∃ outer inner : Script,
      Machine.Continues ⟨0, none, true⟩ outer.start inner.start ∧
      Machine.Continues ⟨0, none, true⟩ inner.start (start [.op Opcode.dup]) ∧
      weight inner < weight outer ∧ weight [.op Opcode.dup] < weight inner ∧
      ∃ result, Machine.runWithin ⟨0, none, true⟩ (weight outer) outer.start = some result ∧
        outer.evaluate 0 none = verdict result := by
  have hdup : ItemForm.Sequence [.op Opcode.dup] ([Opcode.dup] ++ []) :=
    .cons (.op (.inr (by decide))) .nil
  let inner : Script := .push [Opcode.dup] :: payToScriptHash (hash160 [Opcode.dup])
  have hlength := (hash160 [Opcode.dup]).length_eq
  obtain ⟨raw, hraw⟩ : ∃ raw, ItemForm.Sequence inner raw :=
    ⟨_, .cons (.direct (by decide) (by decide)) (.cons (.op (.inr (by decide)))
      (.cons (.direct (by omega) (by omega)) (.cons (.op (.inr (by decide))) .nil)))⟩
  have houter := continues_committed 0 none (ofBytes_eq_ok_iff.mpr hraw)
  have hinner := continues_committed 0 none (ofBytes_eq_ok_iff.mpr hdup)
  obtain ⟨hlt, hresult⟩ := evaluate_ends (.push raw :: payToScriptHash (hash160 raw)) 0 none
  exact ⟨_, inner, houter, hinner, hlt _ _ houter, hlt _ _ hinner, hresult⟩

end Script

end BitcoinSpend
