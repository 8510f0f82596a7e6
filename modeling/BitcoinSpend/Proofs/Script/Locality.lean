import BitcoinSpend.Proofs.Script.Multisig
import BitcoinSpend.Proofs.Script.Reach
import BitcoinSpend.Proofs.Script.Structured

namespace BitcoinSpend

namespace Stack

-- Where the function succeeds, it does the same above any other elements.
def Local (f : Stack → Option Stack) : Prop :=
  ∀ ⦃stack after : Stack⦄, f stack = some after → ∀ base, f (stack ++ base) = some (after ++ base)

theorem Local.bind {f g : Stack → Option Stack} (hf : Local f) (hg : Local g) :
    Local fun stack => (f stack).bind g := by
  intro stack after h base
  obtain ⟨middle, hmiddle, hafter⟩ := Option.bind_eq_some_iff.mp h
  exact Option.bind_eq_some_iff.mpr ⟨middle ++ base, hf hmiddle base, hg hafter base⟩

end Stack

open Stack (Local)

theorem local_verifyTop : Local verifyTop := by
  intro stack after h base
  cases stack with
  | nil => cases h
  | cons element below =>
      simp only [verifyTop, List.cons_append] at h ⊢
      split_ifs at h ⊢
      cases h
      rfl

theorem local_pushNumber (value : Int) : Local (pushNumber value) := by
  intro stack after h base
  obtain ⟨hword, rfl⟩ := pushNumber_eq_some_iff.mp h
  exact pushNumber_eq_some_iff.mpr ⟨hword, rfl⟩

namespace StackOp

theorem local_applyUnary (op : UnaryOp) : Local (applyUnary op) := by
  intro stack after h base
  obtain ⟨element, below, a, rfl, ha, hpush⟩ := applyUnary_eq_some_iff.mp h
  exact applyUnary_eq_some_iff.mpr
    ⟨element, below ++ base, a, rfl, ha, local_pushNumber _ hpush base⟩

theorem local_applyBinary (op : BinaryOp) : Local (applyBinary op) := by
  intro stack after h base
  obtain ⟨left, right, below, a, b, rfl, hdecode, hpush⟩ := applyBinary_eq_some_iff.mp h
  exact applyBinary_eq_some_iff.mpr
    ⟨left, right, below ++ base, a, b, rfl, hdecode, local_pushNumber _ hpush base⟩

theorem local_applyWithin : Local applyWithin := by
  intro stack after h base
  match stack, h with
  | upper :: lower :: element :: below, h =>
      simp only [applyWithin, List.cons_append, Option.bind_eq_bind, Option.bind_eq_some_iff] at h ⊢
      obtain ⟨max, hmax, min, hmin, x, hx, hafter⟩ := h
      cases hafter
      exact ⟨max, hmax, min, hmin, x, hx, rfl⟩

-- An element that is found is found at the same depth.
theorem local_applyPick : Local applyPick := by
  intro stack after h base
  cases stack with
  | nil => cases h
  | cons element below =>
      simp only [applyPick, List.cons_append, Option.bind_eq_bind, Option.bind_eq_some_iff] at h ⊢
      obtain ⟨depth, hdepth, chosen, hchosen, hafter⟩ := h
      cases hafter
      have hlt : depth < below.length := (List.getElem?_eq_some_iff.mp hchosen).1
      exact ⟨depth, hdepth, chosen, (List.getElem?_append_left hlt).trans hchosen, rfl⟩

theorem local_applyRoll : Local applyRoll := by
  intro stack after h base
  cases stack with
  | nil => cases h
  | cons element below =>
      simp only [applyRoll, List.cons_append, Option.bind_eq_bind, Option.bind_eq_some_iff] at h ⊢
      obtain ⟨depth, hdepth, chosen, hchosen, hafter⟩ := h
      cases hafter
      have hlt : depth < below.length := (List.getElem?_eq_some_iff.mp hchosen).1
      refine ⟨depth, hdepth, chosen, (List.getElem?_append_left hlt).trans hchosen, ?_⟩
      rw [List.eraseIdx_append_of_lt_length hlt]
      rfl

theorem local_apply {op : StackOp} (hop : op ≠ depth) : Local op.apply := by
  intro stack after h base
  cases op with
  | verify => exact local_verifyTop h base
  | unary op => exact local_applyUnary op h base
  | binary op => exact local_applyBinary op h base
  | numEqualVerify => exact (local_applyBinary .numEqual).bind local_verifyTop h base
  | within => exact local_applyWithin h base
  | pick => exact local_applyPick h base
  | roll => exact local_applyRoll h base
  | depth => exact absurd rfl hop
  | ifDup =>
      match stack, h with
      | a :: below, h =>
          simp only [apply, List.cons_append] at h ⊢
          cases h
          split_ifs <;> rfl
  | size =>
      cases stack with
      | nil => cases h
      | cons a below =>
          simp only [apply, List.cons_append] at h ⊢
          exact local_pushNumber _ h base
  | equalVerify =>
      match stack, h with
      | a :: b :: below, h =>
          simp only [apply, List.cons_append] at h ⊢
          split_ifs at h ⊢
          cases h
          rfl
  -- The others take no more than six elements off the top, and look at none of them.
  | number | nop | fail | drop2 | dup2 | dup3 | over2 | rot2 | swap2 | drop | dup | nip
  | copyOver | rot | swap | tuck | equal | digest =>
      rcases stack with _ | ⟨a, _ | ⟨b, _ | ⟨c, _ | ⟨d, _ | ⟨e, _ | ⟨f, below⟩⟩⟩⟩⟩⟩ <;>
        cases h <;> rfl

end StackOp

namespace SignatureOp

variable {z : Int}

theorem local_applySingle : Local (applySingle z) := by
  intro stack after h base
  match stack, h with
  | key :: signature :: below, h =>
      cases h
      rfl

theorem local_applyMultiple : Local (applyMultiple z) := by
  intro stack after h base
  obtain ⟨below, dummy, signatures, m, keys, n, rfl, hn, hm, rfl⟩ := applyMultiple_eq_some_iff.mp h
  exact applyMultiple_eq_some_iff.mpr
    ⟨below ++ base, dummy, signatures, m, keys, n, by simp, hn, hm, rfl⟩

theorem local_apply (op : SignatureOp) : Local (op.apply z) := by
  cases op with
  | checkSig => exact local_applySingle
  | checkSigVerify => exact local_applySingle.bind local_verifyTop
  | checkMultisig => exact local_applyMultiple
  | checkMultisigVerify => exact local_applyMultiple.bind local_verifyTop

end SignatureOp

theorem LockOp.local_apply (fields : LockFields) (op : LockOp) : Local (op.apply fields) := by
  intro stack after h base
  obtain ⟨element, below, required, rfl, hrequired, hreached, rfl⟩ := apply_eq_some_iff.mp h
  exact apply_eq_some_iff.mpr
    ⟨element, below ++ base, required, rfl, hrequired, hreached, rfl⟩

theorem TransferOp.apply_append {op : TransferOp} {stack alt : Stack} {after : Stack × Stack}
    (h : op.apply stack alt = some after) (base : Stack) :
    op.apply (stack ++ base) alt = some (after.1 ++ base, after.2) := by
  cases op with
  | toAlt =>
      match stack, h with
      | a :: below, h =>
          cases h
          rfl
  | fromAlt =>
      match alt, h with
      | a :: below, h =>
          cases h
          rfl

namespace Opcode

def depth : UInt8 := 116

theorem eq_depth_of_operation? {code : UInt8} (h : operation? code = some (.stack .depth)) :
    code = depth := by
  have hall : ∀ opcode ∈ all, opcode.operation = some (.stack .depth) → opcode.code = depth := by
    decide
  obtain ⟨opcode, hopcode, rfl, hoperation⟩ := exists_mem_of_operation? h
  exact hall opcode hopcode hoperation

end Opcode

theorem Script.scriptHash?_cons_of_pushed? {item : Instruction} {data : Bytes}
    (hitem : item.pushed? = some data) (rest : Script) : scriptHash? (item :: rest) = none := by
  by_contra hne
  obtain ⟨hash, hscript⟩ := Option.ne_none_iff_exists'.mp hne
  cases scriptHash?_eq_some_iff.mp hscript
  cases hitem

namespace Machine

variable {setting : Setting} {item : Instruction} {m next last : Machine}

-- The machine with more elements at the bottom of its stack.
def above (base : Stack) (m : Machine) : Machine :=
  { m with stack := m.stack ++ base }

theorem withStack_above {f : Stack → Option Stack} (hf : Local f)
    (h : m.withStack (f m.stack) = some next) (base : Stack) :
    (m.above base).withStack (f (m.above base).stack) = some (next.above base) := by
  obtain ⟨after, happly, rfl⟩ := Option.map_eq_some_iff.mp h
  exact Option.map_eq_some_iff.mpr ⟨after ++ base, hf happly base, rfl⟩

theorem branch_above {wanted : Bool} (h : m.branch wanted = some next) (base : Stack) :
    (m.above base).branch wanted = some (next.above base) := by
  rcases m with ⟨program, _ | ⟨element, below⟩, alt⟩
  · cases h
  · obtain ⟨branches, hsplit, hnext⟩ := Option.bind_eq_some_iff.mp h
    cases hnext
    exact Option.bind_eq_some_iff.mpr ⟨branches, hsplit, rfl⟩

theorem operate_above {code : UInt8} {operation : Operation} (hcode : code ≠ Opcode.depth)
    (hoperation : Opcode.operation? code = some operation)
    (h : m.operate setting operation = some next) (base : Stack) :
    (m.above base).operate setting operation = some (next.above base) := by
  cases operation with
  | stack op =>
      have hop : op ≠ .depth := by
        rintro rfl
        exact hcode (Opcode.eq_depth_of_operation? hoperation)
      exact withStack_above (StackOp.local_apply hop) h base
  | branch wanted => exact branch_above h base
  | transfer op =>
      obtain ⟨after, happly, rfl⟩ := Option.map_eq_some_iff.mp h
      exact Option.map_eq_some_iff.mpr ⟨_, TransferOp.apply_append happly base, rfl⟩
  | signature op => exact withStack_above (SignatureOp.local_apply op) h base
  | lock op =>
      obtain ⟨fields, hfields, hwith⟩ := Option.bind_eq_some_iff.mp h
      exact Option.bind_eq_some_iff.mpr
        ⟨fields, hfields, withStack_above (LockOp.local_apply fields op) hwith base⟩

theorem execute_above {code : UInt8} (hcode : code ≠ Opcode.depth)
    (h : m.execute setting code = some next) (base : Stack) :
    (m.above base).execute setting code = some (next.above base) := by
  obtain ⟨operation, hoperation, hoperate⟩ := execute_eq_some_iff.mp h
  exact execute_eq_some_iff.mpr
    ⟨operation, hoperation, operate_above hcode hoperation hoperate base⟩

theorem Proceeds.above (hitem : item ≠ .op Opcode.depth) (h : Proceeds setting item m next)
    (base : Stack) : Proceeds setting item (m.above base) (next.above base) := by
  cases h with
  | pushed hpushed hcheck => exact .pushed hpushed hcheck
  | committed hpushed hredeems hcheck hread => exact .committed hpushed hredeems hcheck hread
  | operated hcode hoperation hoperate =>
      have hdepth : _ ≠ Opcode.depth := fun hdepth => hitem (congrArg _ hdepth)
      exact .operated hcode hoperation (operate_above hdepth hoperation hoperate base)

-- Whatever the run comes to, the instruction is never the next one.
def Avoids (setting : Setting) (item : Instruction) (m : Machine) : Prop :=
  ∀ next, Reaches setting m next → next.program.head? ≠ some item

theorem Avoids.of_continues (h : m.Avoids setting item) (hcontinues : Continues setting m next) :
    next.Avoids setting item :=
  fun last hreaches => h last (.head hcontinues hreaches)

theorem Reaches.above (hreaches : Reaches setting m last)
    (h : m.Avoids setting (.op Opcode.depth)) (base : Stack) :
    Reaches setting (m.above base) (last.above base) := by
  induction hreaches using Relation.ReflTransGen.head_induction_on with
  | refl => exact .refl
  | @head m next hcontinues _ ih =>
      rcases m with ⟨_ | ⟨item, rest⟩, stack, alt⟩
      · exact absurd hcontinues not_continues_nil
      · have hitem : item ≠ .op Opcode.depth := fun hitem => h _ .refl (congrArg some hitem)
        exact .cons ((continues_cons_iff.mp hcontinues).above hitem base)
          (ih (h.of_continues hcontinues))

theorem Avoids.nil {stack alt : Stack} : Avoids setting item ⟨[], stack, alt⟩ := by
  intro last hreaches
  rcases Relation.ReflTransGen.cases_head hreaches with rfl | ⟨_, hcontinues, -⟩
  · exact fun hhead => nomatch hhead
  · exact absurd hcontinues not_continues_nil

theorem Avoids.cons {avoided : Instruction} {rest : Script} {stack alt : Stack}
    (hne : item ≠ avoided) (hproceeds : Proceeds setting item ⟨rest, stack, alt⟩ next)
    (h : next.Avoids setting avoided) : Avoids setting avoided ⟨item :: rest, stack, alt⟩ := by
  intro last hreaches
  rcases Relation.ReflTransGen.cases_head hreaches with rfl | ⟨middle, hcontinues, hreaches⟩
  · simpa using hne
  · have hstep := (continues_cons_iff.mp hcontinues).step_eq
    rw [hproceeds.step_eq] at hstep
    cases hstep
    exact h last hreaches

theorem reaches_of_pushes {pushes : Script}
    (hpushes : ∀ item ∈ pushes, ∃ data, item.pushed? = some data) {program : Script}
    (hprogram : program.scriptHash? = none) (stack alt : Stack) :
    ∃ base, Reaches setting ⟨pushes ++ program, stack, alt⟩ ⟨program, base ++ stack, alt⟩ := by
  induction pushes generalizing stack with
  | nil => exact ⟨[], .refl⟩
  | cons item rest ih =>
      obtain ⟨⟨data, hitem⟩, hrest⟩ := List.forall_mem_cons.mp hpushes
      obtain ⟨base, hreaches⟩ := ih hrest (data :: stack)
      have hcheck : Script.scriptHash? (rest ++ program) = none := by
        cases rest with
        | nil => exact hprogram
        | cons after rest =>
            obtain ⟨other, hafter⟩ := hrest after List.mem_cons_self
            exact Script.scriptHash?_cons_of_pushed? hafter _
      refine ⟨base ++ [data], .cons (.pushed hitem fun _ => hcheck) ?_⟩
      rw [List.append_assoc, List.singleton_append]
      exact hreaches

end Machine

namespace Script

theorem evaluate_payToScriptHash (hash : FixedBytes 20) (z : Int) (fields : Option LockFields) :
    (payToScriptHash hash).evaluate z fields = .ok false := by
  rw [evaluate, start, payToScriptHash, Machine.run_cons,
    Machine.step_op _ (by decide) Opcode.operation?_hash160]
  rfl

-- A bare check of a script hash would take a push in front of it for the committed
-- script. It fails on its own, where there is nothing to hash.
theorem scriptHash?_eq_none_of_evaluate {script : Script} {hash : Int} {fields : Option LockFields}
    (h : script.evaluate hash fields = .ok true) : script.scriptHash? = none := by
  by_contra hne
  obtain ⟨committed, hscript⟩ := Option.ne_none_iff_exists'.mp hne
  rw [scriptHash?_eq_some_iff.mp hscript, evaluate_payToScriptHash] at h
  cases h

theorem evaluate_pushes_append {script pushes : Script} {hash : Int} {fields : Option LockFields}
    (h : script.evaluate hash fields = .ok true)
    (havoids : script.start.Avoids ⟨hash, fields, true⟩ (.op Opcode.depth))
    (hpushes : ∀ item ∈ pushes, ∃ data, item.pushed? = some data) :
    (pushes ++ script).evaluate hash fields = .ok true := by
  obtain ⟨base, hbase⟩ := Machine.reaches_of_pushes hpushes (scriptHash?_eq_none_of_evaluate h) [] []
  rw [List.append_nil] at hbase
  obtain ⟨top, below, alt, hreaches, htop⟩ := evaluate_eq_true_iff_reaches.mp h
  exact evaluate_eq_true_iff_reaches.mpr
    ⟨top, below ++ base, alt, hbase.trans (hreaches.above havoids base), htop⟩

-- No operation but OP_DEPTH can tell what lies below the elements it works on.
theorem below_irrelevant :
    (∀ (setting : Setting) (code : UInt8) (m next : Machine) (base : Stack),
      code ≠ Opcode.depth → m.execute setting code = some next →
        (m.above base).execute setting code = some (next.above base)) ∧
    ∀ (script pushes : Script) (hash : Int) (fields : Option LockFields),
      script.evaluate hash fields = .ok true →
      script.start.Avoids ⟨hash, fields, true⟩ (.op Opcode.depth) →
      (∀ item ∈ pushes, ∃ data, item.pushed? = some data) →
        (pushes ++ script).evaluate hash fields = .ok true := by
  constructor
  · intro setting code m next base hcode h
    exact Machine.execute_above hcode h base
  · intro script pushes hash fields h havoids hpushes
    exact evaluate_pushes_append h havoids hpushes

-- An OP_PICK that reaches down to the last element, and an OP_DEPTH in a branch that
-- is not taken.
theorem below_irrelevant_pick :
    ∃ (script pushes : Script) (m next : Machine),
      script = [.push [8], .push [7], .push [1], .op 121, .push [], .op Opcode.ifTrue,
        .op Opcode.depth, .op Opcode.endIf] ∧
      pushes = [.push [9], .op 0] ∧ m.stack = [[1], [7], [8]] ∧ next.stack = [[8], [7], [8]] ∧
      m.execute ⟨0, none, true⟩ 121 = some next ∧
      (m.above [[9]]).execute ⟨0, none, true⟩ 121 = some (next.above [[9]]) ∧
      script.evaluate 0 none = .ok true ∧
      script.start.Avoids ⟨0, none, true⟩ (.op Opcode.depth) ∧
      (∀ item ∈ pushes, ∃ data, item.pushed? = some data) ∧
      (pushes ++ script).evaluate 0 none = .ok true := by
  let skipped : Script := [.push [], .op Opcode.ifTrue, .op Opcode.depth, .op Opcode.endIf]
  let m : Machine := ⟨skipped, [[1], [7], [8]], []⟩
  let next : Machine := ⟨skipped, [[8], [7], [8]], []⟩
  have hpick : Opcode.operation? 121 = some (.stack .pick) := by decide
  have hexecute : m.execute ⟨0, none, true⟩ 121 = some next := by
    rw [Machine.execute, hpick]
    rfl
  have hbranch : Machine.Proceeds ⟨0, none, true⟩ (.op Opcode.ifTrue)
      ⟨[.op Opcode.depth, .op Opcode.endIf], [[], [8], [7], [8]], []⟩ ⟨[], [[8], [7], [8]], []⟩ :=
    .operated (by decide) (Opcode.operation?_opening true) rfl
  have hpicked : Machine.Proceeds ⟨0, none, true⟩ (.op 121) m next :=
    .operated (by decide) hpick rfl
  have hevaluate : Script.evaluate (.push [8] :: .push [7] :: .push [1] :: .op 121 :: skipped)
      0 none = .ok true := by
    refine evaluate_eq_true_iff_reaches.mpr ⟨[8], [[7], [8]], [], ?_, by decide⟩
    refine .cons (.pushed rfl fun _ => rfl) (.cons (.pushed rfl fun _ => rfl) ?_)
    refine .cons (.pushed rfl fun _ => rfl) (.cons hpicked ?_)
    exact .cons (.pushed rfl fun _ => rfl) (.cons hbranch .refl)
  have havoids : (start (.push [8] :: .push [7] :: .push [1] :: .op 121 :: skipped)).Avoids
      ⟨0, none, true⟩ (.op Opcode.depth) := by
    refine .cons (by decide) (.pushed rfl fun _ => rfl) ?_
    refine .cons (by decide) (.pushed rfl fun _ => rfl) ?_
    refine .cons (by decide) (.pushed rfl fun _ => rfl) (.cons (by decide) hpicked ?_)
    exact .cons (by decide) (.pushed rfl fun _ => rfl) (.cons (by decide) hbranch .nil)
  have hpushes : ∀ item ∈ [Instruction.push [9], .op 0], ∃ data, item.pushed? = some data := by
    simp [Instruction.pushed?]
  exact ⟨_, _, m, next, rfl, rfl, rfl, rfl, hexecute,
    below_irrelevant.1 _ 121 m next [[9]] (by decide) hexecute, hevaluate, havoids, hpushes,
    below_irrelevant.2 _ _ 0 none hevaluate havoids hpushes⟩

end Script

end BitcoinSpend
