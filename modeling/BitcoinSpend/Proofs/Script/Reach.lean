import BitcoinSpend.Proofs.Script.Termination
import Mathlib.Logic.Relation

namespace BitcoinSpend

namespace Machine

variable {setting : Setting} {item : Instruction} {m next : Machine}

-- What an instruction does when it does not stop the run.
inductive Proceeds (setting : Setting) : Instruction → Machine → Machine → Prop
  | pushed {item : Instruction} {data : Bytes} {m : Machine} (hitem : item.pushed? = some data)
      (hcheck : setting.redeems = true → m.program.scriptHash? = none) :
      Proceeds setting item m { m with stack := data :: m.stack }
  | committed {item : Instruction} {data : Bytes} {m : Machine} {script : Script}
      (hitem : item.pushed? = some data) (hredeems : setting.redeems = true)
      (hcheck : m.program.scriptHash? = some (hash160 data))
      (hread : Script.ofBytes data = .ok script) :
      Proceeds setting item m { m with program := script }
  | operated {code : UInt8} {operation : Operation} {m next : Machine} (hcode : code ≠ 0)
      (hoperation : Opcode.operation? code = some operation)
      (hoperate : m.operate setting operation = some next) :
      Proceeds setting (.op code) m next

theorem execute_eq_some_iff {code : UInt8} :
    m.execute setting code = some next ↔
      ∃ operation, Opcode.operation? code = some operation ∧
        m.operate setting operation = some next :=
  Option.bind_eq_some_iff

theorem Proceeds.of_push {data : Bytes} (hitem : item.pushed? = some data)
    (h : m.push setting data = .ok next) : Proceeds setting item m next := by
  unfold push at h
  split at h
  next hcheck =>
    cases h
    refine .pushed hitem fun hredeems => ?_
    rwa [hredeems, if_pos rfl] at hcheck
  next hash hcheck =>
    split_ifs at h hcheck with hne hredeems
    split at h
    · cases h
    next hread =>
      cases h
      rw [ne_eq, not_not] at hne
      exact .committed hitem hredeems (hne ▸ hcheck) hread

theorem Proceeds.of_step (h : step setting item m = .ok next) : Proceeds setting item m next := by
  cases item with
  | push data => exact .of_push rfl h
  | op code =>
      simp only [step] at h
      split_ifs at h with hcode
      · exact .of_push (by simp [Instruction.pushed?, hcode]) h
      · split at h
        · cases h
        next hexecute =>
          cases h
          obtain ⟨operation, hoperation, hoperate⟩ := execute_eq_some_iff.mp hexecute
          exact .operated hcode hoperation hoperate

theorem Proceeds.step_eq (h : Proceeds setting item m next) : step setting item m = .ok next := by
  cases h with
  | pushed hitem hcheck =>
      have hnone : (if setting.redeems then m.program.scriptHash? else none) = none := by
        split_ifs with hredeems
        · exact hcheck hredeems
        · rfl
      rw [step_of_pushed? setting hitem, push, hnone]
  | committed hitem hredeems hcheck hread =>
      rw [step_of_pushed? setting hitem, push, if_pos hredeems, hcheck]
      simp [hread]
  | operated hcode hoperation hoperate =>
      rw [step_op setting hcode hoperation, hoperate]

theorem proceeds_iff : Proceeds setting item m next ↔ step setting item m = .ok next :=
  ⟨Proceeds.step_eq, Proceeds.of_step⟩

theorem continues_cons_iff {rest : Script} {stack alt : Stack} :
    Continues setting ⟨item :: rest, stack, alt⟩ next ↔
      Proceeds setting item ⟨rest, stack, alt⟩ next := by
  rw [proceeds_iff]
  constructor
  · rintro ⟨_, _, hprogram, hstep⟩
    cases hprogram
    exact hstep
  · intro h
    exact ⟨item, rest, rfl, h⟩

theorem not_continues_nil {stack alt : Stack} : ¬ Continues setting ⟨[], stack, alt⟩ next := by
  rintro ⟨_, _, hprogram, -⟩
  cases hprogram

-- The machines that the run comes to, the one it starts from included.
def Reaches (setting : Setting) : Machine → Machine → Prop :=
  Relation.ReflTransGen (Continues setting)

theorem Reaches.cons {rest : Script} {stack alt : Stack} {last : Machine}
    (h : Proceeds setting item ⟨rest, stack, alt⟩ next) (hlast : Reaches setting next last) :
    Reaches setting ⟨item :: rest, stack, alt⟩ last :=
  .head (continues_cons_iff.mpr h) hlast

-- A run ends when it comes to a machine that has nothing left to do.
theorem run_eq_ok_iff {stack alt : Stack} :
    run setting m = .ok (stack, alt) ↔ Reaches setting m ⟨[], stack, alt⟩ := by
  constructor
  · intro h
    induction m using run_induction setting with
    | nil =>
        rw [run_nil] at h
        cases h
        exact .refl
    | cons item rest stack alt ih =>
        rw [run_cons] at h
        cases hstep : step setting item ⟨rest, stack, alt⟩ with
        | error stop =>
            rw [hstep] at h
            cases h
        | ok next =>
            rw [hstep] at h
            exact .head ⟨item, rest, rfl, hstep⟩ (ih next hstep h)
  · intro h
    induction h using Relation.ReflTransGen.head_induction_on with
    | refl => exact run_nil setting stack alt
    | @head m next hcontinues _ ih =>
        rcases m with ⟨_ | ⟨item, rest⟩, stack, alt⟩
        · exact absurd hcontinues not_continues_nil
        · rw [run_of_step (continues_cons_iff.mp hcontinues).step_eq]
          exact ih

end Machine

theorem Script.evaluate_eq_true_iff_reaches {script : Script} {hash : Int}
    {fields : Option LockFields} :
    script.evaluate hash fields = .ok true ↔
      ∃ top below alt, Machine.Reaches ⟨hash, fields, true⟩ script.start ⟨[], top :: below, alt⟩ ∧
        top ≠ [] := by
  simp only [evaluate, verdict_eq_true_iff, Machine.run_eq_ok_iff]

end BitcoinSpend
