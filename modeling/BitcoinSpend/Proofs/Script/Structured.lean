import BitcoinSpend.Proofs.Script.Isolation

namespace BitcoinSpend

-- What an operation makes of the main and the alternative stack. One that opens a
-- conditional works on the program, and has no effect of its own.
def Operation.effect (hash : Int) (fields : Option LockFields) :
    Operation → Stack × Stack → Option (Stack × Stack)
  | stack op, (main, alt) => (op.apply main).map (·, alt)
  | branch _, _ => none
  | transfer op, (main, alt) => op.apply main alt
  | signature op, (main, alt) => (op.apply hash main).map (·, alt)
  | lock op, (main, alt) => fields.bind fun fields => (op.apply fields main).map (·, alt)

namespace Instruction

-- Pushes data, or carries out the operation of an opcode.
def effect (hash : Int) (fields : Option LockFields) :
    Instruction → Stack × Stack → Option (Stack × Stack)
  | push data, (main, alt) => some (data :: main, alt)
  | op code, (main, alt) =>
      if code = 0 then some ([] :: main, alt)
      else (Opcode.operation? code).bind (·.effect hash fields (main, alt))

-- Not one of the four opcodes that conditionals are made of.
def Ordinary (item : Instruction) : Prop :=
  item ∉ [op Opcode.ifTrue, op Opcode.ifFalse, op Opcode.otherwise, op Opcode.endIf]

instance (item : Instruction) : Decidable item.Ordinary :=
  inferInstanceAs (Decidable (item ∉ _))

-- Opens a conditional whose first branch is for conditions of the given truth.
def opening (wanted : Bool) : Instruction :=
  op (if wanted then Opcode.ifTrue else Opcode.ifFalse)

end Instruction

-- A program by its syntax. Every conditional has its end, and at most one
-- second branch.
inductive Structured where
  | done
  | ordinary (item : Instruction) (h : item.Ordinary) (rest : Structured)
  | conditional (wanted : Bool) (first : Structured) (second : Option Structured)
      (rest : Structured)

namespace Structured

def flatten : Structured → Script
  | done => []
  | ordinary item _ rest => item :: rest.flatten
  | conditional wanted first second rest =>
      .opening wanted :: (first.flatten ++ (match second with
        | none => []
        | some second => .op Opcode.otherwise :: second.flatten) ++
        .op Opcode.endIf :: rest.flatten)

-- The stacks after the program. A conditional pops its condition, runs the branch
-- that it chooses and goes on with what follows.
def eval (hash : Int) (fields : Option LockFields) :
    Structured → Stack × Stack → Option (Stack × Stack)
  | done, state => some state
  | ordinary item _ rest, state => (item.effect hash fields state).bind (rest.eval hash fields)
  | conditional wanted first second rest, (stack, alt) =>
      match stack with
      | [] => none
      | element :: below => do
          let state ←
            if ScriptNumber.truth element = wanted then first.eval hash fields (below, alt)
            else match second with
              | none => some (below, alt)
              | some second => second.eval hash fields (below, alt)
          rest.eval hash fields state

-- Whether the program succeeds and leaves a top element that is not empty.
def verdict (hash : Int) (fields : Option LockFields) (program : Structured) : Bool :=
  match program.eval hash fields ([], []) with
  | some (top :: _, _) => top ≠ []
  | _ => false

-- Induction along the syntax, where a missing second branch counts as an empty one.
@[elab_as_elim]
theorem induction {motive : Structured → Prop} (done : motive done)
    (ordinary : ∀ item h rest, motive rest → motive (ordinary item h rest))
    (conditional : ∀ wanted first second rest, motive first →
      motive (second.getD .done) → motive rest → motive (conditional wanted first second rest)) :
    ∀ program, motive program
  | .done => done
  | .ordinary item h rest => ordinary item h rest (induction done ordinary conditional rest)
  | .conditional wanted first none rest =>
      conditional wanted first none rest (induction done ordinary conditional first) done
        (induction done ordinary conditional rest)
  | .conditional wanted first (some second) rest =>
      conditional wanted first (some second) rest (induction done ordinary conditional first)
        (induction done ordinary conditional second)
        (induction done ordinary conditional rest)

theorem eval_conditional (hash : Int) (fields : Option LockFields) (wanted : Bool)
    (first : Structured) (second : Option Structured) (rest : Structured) (element : Bytes)
    (below alt : Stack) :
    (conditional wanted first second rest).eval hash fields (element :: below, alt) =
      ((if ScriptNumber.truth element = wanted then first else second.getD done).eval hash fields
        (below, alt)).bind (rest.eval hash fields) := by
  cases second with
  | none => by_cases htruth : ScriptNumber.truth element = wanted <;> simp [eval, htruth]
  | some second => by_cases htruth : ScriptNumber.truth element = wanted <;> simp [eval, htruth]

end Structured

namespace Branches

-- Items put in front of one of the branches.
def prepend (inSecond : Bool) (items : Script) (branches : Branches) : Branches :=
  if inSecond then { branches with second := items ++ branches.second }
  else { branches with first := items ++ branches.first }

theorem cons_eq_prepend (inSecond : Bool) (item : Instruction) :
    cons inSecond item = prepend inSecond [item] := by
  cases inSecond <;> rfl

theorem prepend_nil (inSecond : Bool) (branches : Branches) :
    branches.prepend inSecond [] = branches := by
  cases inSecond <;> rfl

theorem prepend_append (inSecond : Bool) (items others : Script) (branches : Branches) :
    branches.prepend inSecond (items ++ others) =
      (branches.prepend inSecond others).prepend inSecond items := by
  cases inSecond <;> simp [prepend]

theorem split_opening (wanted : Bool) (depth : Nat) (inSecond : Bool) (tail : Script) :
    split depth inSecond (.opening wanted :: tail) =
      (split (depth + 1) inSecond tail).map (prepend inSecond [.opening wanted]) := by
  have hopens : Instruction.opening wanted = .op Opcode.ifTrue ∨
      Instruction.opening wanted = .op Opcode.ifFalse := by
    cases wanted <;> decide
  rw [split, if_pos hopens, cons_eq_prepend]

theorem split_otherwise (depth : Nat) (inSecond : Bool) (tail : Script) :
    split depth inSecond (.op Opcode.otherwise :: tail) =
      if depth = 0 then split 0 true tail
      else (split depth inSecond tail).map (prepend inSecond [.op Opcode.otherwise]) := by
  by_cases hzero : depth = 0
  · rw [split, if_neg (by decide), if_pos ⟨rfl, hzero⟩, if_pos hzero, hzero]
  · rw [split, if_neg (by decide), if_neg (fun h => hzero h.2), if_neg (by decide), if_neg hzero,
      cons_eq_prepend]

theorem split_endIf (depth : Nat) (inSecond : Bool) (tail : Script) :
    split depth inSecond (.op Opcode.endIf :: tail) =
      if depth = 0 then some ⟨[], [], tail⟩
      else (split (depth - 1) inSecond tail).map (prepend inSecond [.op Opcode.endIf]) := by
  have hotherwise : ¬(Instruction.op Opcode.endIf = .op Opcode.otherwise ∧ depth = 0) :=
    fun h => absurd h.1 (by decide)
  rw [split, if_neg (by decide), if_neg hotherwise, if_pos rfl, cons_eq_prepend]

theorem split_ordinary {item : Instruction} (h : item.Ordinary) (depth : Nat) (inSecond : Bool)
    (tail : Script) :
    split depth inSecond (item :: tail) =
      (split depth inSecond tail).map (prepend inSecond [item]) := by
  simp only [Instruction.Ordinary, List.mem_cons, List.not_mem_nil, or_false, not_or] at h
  obtain ⟨hifTrue, hifFalse, hotherwise, hendIf⟩ := h
  simp only [split, hifTrue, hifFalse, hotherwise, hendIf, or_self, false_and, if_false,
    cons_eq_prepend]

-- Wherever no fewer than `least` conditionals are open inside the one that is
-- taken apart, the script goes whole into the branch that is being collected.
def PassesFrom (least : Nat) (script : Script) : Prop :=
  ∀ depth inSecond tail, least ≤ depth →
    split depth inSecond (script ++ tail) =
      (split depth inSecond tail).map (prepend inSecond script)

theorem PassesFrom.mono {least least' : Nat} {script : Script} (h : PassesFrom least script)
    (hle : least ≤ least') : PassesFrom least' script :=
  fun depth inSecond tail hdepth => h depth inSecond tail (hle.trans hdepth)

theorem passesFrom_nil : PassesFrom 0 [] := by
  intro depth inSecond tail _
  have hid : prepend inSecond [] = id := funext (prepend_nil inSecond)
  rw [List.nil_append, hid, Option.map_id, id]

theorem PassesFrom.append {least : Nat} {first second : Script} (hfirst : PassesFrom least first)
    (hsecond : PassesFrom least second) : PassesFrom least (first ++ second) := by
  intro depth inSecond tail hdepth
  have hcomp : prepend inSecond (first ++ second) =
      prepend inSecond first ∘ prepend inSecond second :=
    funext (prepend_append inSecond first second)
  rw [List.append_assoc, hfirst depth inSecond _ hdepth, hsecond depth inSecond _ hdepth,
    Option.map_map, hcomp]

theorem passesFrom_ordinary {item : Instruction} (h : item.Ordinary) : PassesFrom 0 [item] :=
  fun depth inSecond tail _ => split_ordinary h depth inSecond tail

-- The OP_ELSE of an inner conditional.
theorem passesFrom_otherwise : PassesFrom 1 [.op Opcode.otherwise] := by
  intro depth inSecond tail hdepth
  rw [List.singleton_append, split_otherwise, if_neg (Nat.ne_zero_of_lt hdepth)]

-- A conditional is kept whole, and inside it one more is open.
theorem PassesFrom.conditional {body : Script} (h : PassesFrom 1 body) (wanted : Bool) :
    PassesFrom 0 (.opening wanted :: (body ++ [.op Opcode.endIf])) := by
  intro depth inSecond tail _
  have hcomp : prepend inSecond (.opening wanted :: (body ++ [.op Opcode.endIf])) =
      prepend inSecond [.opening wanted] ∘ prepend inSecond body ∘
        prepend inSecond [.op Opcode.endIf] := by
    funext branches
    rw [← List.singleton_append, prepend_append, prepend_append]
    rfl
  rw [List.cons_append, split_opening, List.append_assoc, h _ _ _ (Nat.le_add_left 1 depth),
    List.singleton_append, split_endIf, if_neg (Nat.succ_ne_zero depth), Nat.add_sub_cancel,
    Option.map_map, Option.map_map, hcomp, Function.comp_assoc]

theorem split_of_passesFrom {first : Script} (hfirst : PassesFrom 0 first) (tail : Script) :
    split 0 false (first ++ .op Opcode.endIf :: tail) = some ⟨first, [], tail⟩ := by
  rw [hfirst 0 false _ (Nat.le_refl 0), split_endIf, if_pos rfl]
  simp [prepend]

theorem split_of_passesFrom_otherwise {first second : Script} (hfirst : PassesFrom 0 first)
    (hsecond : PassesFrom 0 second) (tail : Script) :
    split 0 false (first ++ .op Opcode.otherwise :: (second ++ .op Opcode.endIf :: tail)) =
      some ⟨first, second, tail⟩ := by
  rw [hfirst 0 false _ (Nat.le_refl 0), split_otherwise, if_pos rfl,
    hsecond 0 true _ (Nat.le_refl 0), split_endIf, if_pos rfl]
  simp [prepend]

end Branches

namespace Structured

-- What a conditional has from its second branch, OP_ELSE included.
def flattenSecond : Option Structured → Script
  | none => []
  | some second => .op Opcode.otherwise :: second.flatten

theorem flatten_conditional (wanted : Bool) (first : Structured) (second : Option Structured)
    (rest : Structured) :
    (conditional wanted first second rest).flatten =
      .opening wanted :: (first.flatten ++ flattenSecond second ++
        .op Opcode.endIf :: rest.flatten) := by
  cases second <;> rw [flatten] <;> rfl

theorem flatten_getD_subset (second : Option Structured) :
    (second.getD done).flatten ⊆ flattenSecond second := by
  cases second with
  | none => exact List.nil_subset _
  | some second => exact List.subset_cons_self _ _

open Branches

theorem passesFrom_flattenSecond {second : Option Structured}
    (h : PassesFrom 0 (second.getD done).flatten) : PassesFrom 1 (flattenSecond second) := by
  cases second with
  | none => exact passesFrom_nil.mono (Nat.zero_le 1)
  | some second => exact passesFrom_otherwise.append (h.mono (Nat.zero_le 1))

theorem passesFrom_flatten (program : Structured) : PassesFrom 0 program.flatten := by
  induction program using induction with
  | done => exact passesFrom_nil
  | ordinary item h rest ih => exact (passesFrom_ordinary h).append ih
  | conditional wanted first second rest ihFirst ihSecond ihRest =>
      have hbody := (ihFirst.mono (Nat.zero_le 1)).append (passesFrom_flattenSecond ihSecond)
      have hwhole := (hbody.conditional wanted).append ihRest
      rw [flatten_conditional]
      simpa using hwhole

-- The conditional is taken apart where its syntax says.
theorem split_conditional (first : Structured) (second : Option Structured) (tail : Script) :
    split 0 false (first.flatten ++ flattenSecond second ++ .op Opcode.endIf :: tail) =
      some ⟨first.flatten, (second.getD done).flatten, tail⟩ := by
  have hfirst := passesFrom_flatten first
  cases second with
  | none =>
      rw [flattenSecond, List.append_nil, split_of_passesFrom hfirst]
      rfl
  | some second =>
      rw [flattenSecond, List.append_assoc, List.cons_append,
        split_of_passesFrom_otherwise hfirst (passesFrom_flatten second)]
      rfl

end Structured

theorem Opcode.operation?_opening (wanted : Bool) :
    Opcode.operation? (if wanted then Opcode.ifTrue else Opcode.ifFalse) =
      some (.branch wanted) := by
  cases wanted <;> decide

theorem Opcode.operation?_ne_branch {code : UInt8} (h : (Instruction.op code).Ordinary) (wanted : Bool) :
    Opcode.operation? code ≠ some (.branch wanted) := by
  have hall : ∀ opcode ∈ Opcode.all, ∀ wanted, opcode.operation = some (.branch wanted) →
      ¬(Instruction.op opcode.code).Ordinary := by
    decide
  intro ho
  obtain ⟨opcode, hopcode, rfl, hoperation⟩ := Opcode.exists_mem_of_operation? ho
  exact hall opcode hopcode wanted hoperation h

namespace Machine

-- A run from stacks that are missing when what came before has failed.
def runAfter (setting : Setting) (tail : Script) :
    Option (Stack × Stack) → Except Stop (Stack × Stack)
  | none => .error .failed
  | some (stack, alt) => run setting ⟨tail, stack, alt⟩

theorem operate_eq_map_effect (setting : Setting) {operation : Operation}
    (h : ∀ wanted, operation ≠ .branch wanted) (m : Machine) :
    m.operate setting operation =
      (operation.effect setting.hash setting.fields (m.stack, m.alt)).map fun state =>
        ⟨m.program, state.1, state.2⟩ := by
  cases operation with
  | stack op => simp [operate, withStack, Operation.effect, Function.comp_def]
  | branch wanted => exact absurd rfl (h wanted)
  | transfer op => rfl
  | signature op => simp [operate, withStack, Operation.effect, Function.comp_def]
  | lock op =>
      cases hf : setting.fields <;>
        simp [operate, withStack, Operation.effect, Function.comp_def, hf]

theorem run_ordinary (setting : Setting) {item : Instruction} (hitem : item.Ordinary)
    {tail : Script} (h : Instruction.op Opcode.hash160 ∉ tail) (stack alt : Stack) :
    run setting ⟨item :: tail, stack, alt⟩ =
      runAfter setting tail (item.effect setting.hash setting.fields (stack, alt)) := by
  have hnone : tail.scriptHash? = none :=
    Script.scriptHash?_eq_none_of_notMem (fun _ => List.mem_cons_self) h
  have hpush : ∀ data, push setting ⟨tail, stack, alt⟩ data = .ok ⟨tail, data :: stack, alt⟩ :=
    fun data => push_of_scriptHash?_eq_none setting data hnone
  rw [run_cons]
  cases item with
  | push data =>
      rw [step, hpush]
      rfl
  | op code =>
      by_cases hcode : code = 0
      · simp only [step, Instruction.effect, hcode, if_true, hpush]
        rfl
      · simp only [step, execute, Instruction.effect, hcode, if_false]
        cases ho : Opcode.operation? code with
        | none => rfl
        | some operation =>
            have hbranch : ∀ wanted, operation ≠ .branch wanted := by
              rintro wanted rfl
              exact Opcode.operation?_ne_branch hitem wanted ho
            rw [Option.bind_some, Option.bind_some, operate_eq_map_effect setting hbranch]
            cases operation.effect setting.hash setting.fields (stack, alt) <;> rfl

theorem run_opening (setting : Setting) (wanted : Bool) (program : Script) (stack alt : Stack) :
    run setting ⟨.opening wanted :: program, stack, alt⟩ =
      match branch wanted ⟨program, stack, alt⟩ with
      | none => .error .failed
      | some m => run setting m := by
  have hcode : (if wanted then Opcode.ifTrue else Opcode.ifFalse) ≠ 0 := by
    cases wanted <;> decide
  rw [run_cons, Instruction.opening, step_op setting hcode (Opcode.operation?_opening wanted), operate]
  cases branch wanted ⟨program, stack, alt⟩ <;> rfl

-- The branch that the condition chooses is put in front of what follows.
theorem run_conditional (setting : Setting) (wanted : Bool) (first : Structured)
    (second : Option Structured) (tail : Script) (element : Bytes) (below alt : Stack) :
    run setting ⟨.opening wanted :: (first.flatten ++ Structured.flattenSecond second ++
        .op Opcode.endIf :: tail), element :: below, alt⟩ =
      runAfter setting ((if ScriptNumber.truth element = wanted then first
        else second.getD .done).flatten ++ tail) (some (below, alt)) := by
  have hbranch : branch wanted ⟨first.flatten ++ Structured.flattenSecond second ++
        .op Opcode.endIf :: tail, element :: below, alt⟩ =
      some ⟨(if ScriptNumber.truth element = wanted then first
        else second.getD .done).flatten ++ tail, below, alt⟩ := by
    simp only [branch, Structured.split_conditional]
    by_cases htruth : ScriptNumber.truth element = wanted <;> simp [Branches.resume, htruth]
  rw [run_opening, hbranch]
  rfl

-- Running the instructions of a program comes to what its syntax says, whatever follows.
theorem run_flatten (setting : Setting) (program : Structured) {tail : Script}
    (h : Instruction.op Opcode.hash160 ∉ program.flatten ++ tail)
    (state : Option (Stack × Stack)) :
    runAfter setting (program.flatten ++ tail) state =
      runAfter setting tail (state.bind (program.eval setting.hash setting.fields)) := by
  induction program using Structured.induction generalizing tail state with
  | done => cases state <;> rfl
  | ordinary item hitem rest ih =>
      rcases state with _ | ⟨stack, alt⟩
      · rfl
      · have hrest : Instruction.op Opcode.hash160 ∉ rest.flatten ++ tail :=
          fun hmem => h (List.mem_cons_of_mem item hmem)
        change run setting ⟨item :: (rest.flatten ++ tail), stack, alt⟩ = _
        rw [run_ordinary setting hitem hrest, ih hrest]
        rfl
  | conditional wanted first second rest ihFirst ihSecond ihRest =>
      rcases state with _ | ⟨stack, alt⟩
      · rfl
      · rw [Structured.flatten_conditional] at h ⊢
        simp only [List.cons_append, List.append_assoc, List.mem_cons, List.mem_append, not_or] at h
        obtain ⟨-, hfirst, hsecond, -, hrest, htail⟩ := h
        have hafter : Instruction.op Opcode.hash160 ∉ rest.flatten ++ tail := by
          simp [hrest, htail]
        rw [List.cons_append, List.append_assoc, List.cons_append]
        cases stack with
        | nil => exact run_opening setting wanted _ [] alt
        | cons element below =>
            change run setting ⟨_, element :: below, alt⟩ = _
            rw [run_conditional, Option.bind_some, Structured.eval_conditional, ← ihRest hafter]
            split_ifs with htruth
            · exact ihFirst (by simp [hfirst, hrest, htail]) _
            · have hchosen : Instruction.op Opcode.hash160 ∉ (second.getD .done).flatten :=
                fun hmem => hsecond (Structured.flatten_getD_subset second hmem)
              exact ihSecond (by simp [hchosen, hrest, htail]) _

end Machine

namespace Structured

-- Cutting the program into branches while it runs gives each program the meaning
-- of its syntax.
theorem evaluate_flatten (program : Structured)
    (h : Instruction.op Opcode.hash160 ∉ program.flatten) (hash : Int)
    (fields : Option LockFields) :
    Script.evaluate program.flatten hash fields = .ok (program.verdict hash fields) := by
  have hnil : Instruction.op Opcode.hash160 ∉ program.flatten ++ [] := by
    rwa [List.append_nil]
  have hrun := Machine.run_flatten ⟨hash, fields, true⟩ program hnil (some ([], []))
  rw [List.append_nil, Option.bind_some] at hrun
  change Script.verdict (Machine.runAfter ⟨hash, fields, true⟩ program.flatten (some ([], []))) = _
  rw [hrun, verdict]
  rcases program.eval hash fields ([], []) with _ | ⟨_ | ⟨top, below⟩, alt⟩
  · rfl
  · rw [Machine.runAfter, Machine.run_nil]
    rfl
  · rw [Machine.runAfter, Machine.run_nil]
    rfl

-- The inner conditional wants a false condition and has a second branch that fails.
theorem evaluate_flatten_nested :
    ∃ program : Structured,
      program.flatten = [.push [1], .op Opcode.ifTrue, .op 0, .op Opcode.ifFalse, .push [2],
        .op Opcode.otherwise, .op 106, .op Opcode.endIf, .op Opcode.endIf] ∧
      Instruction.op Opcode.hash160 ∉ program.flatten ∧
      Script.evaluate program.flatten 0 none = .ok true := by
  let inner : Structured :=
    .conditional false (.ordinary (.push [2]) (by decide) .done)
      (some (.ordinary (.op 106) (by decide) .done)) .done
  let program : Structured :=
    .ordinary (.push [1]) (by decide)
      (.conditional true (.ordinary (.op 0) (by decide) inner) none .done)
  have hmem : Instruction.op Opcode.hash160 ∉ program.flatten := by decide
  refine ⟨program, rfl, hmem, ?_⟩
  rw [evaluate_flatten program hmem]
  rfl

end Structured

end BitcoinSpend
