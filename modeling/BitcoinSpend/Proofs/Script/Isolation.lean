import BitcoinSpend.Script.Machine
import Mathlib.Data.List.Infix

namespace BitcoinSpend

namespace Instruction

def opens (item : Instruction) : Bool :=
  item = op Opcode.ifTrue ∨ item = op Opcode.ifFalse

def closes (item : Instruction) : Bool :=
  item = op Opcode.endIf

theorem closes_eq_false_of_opens {item : Instruction} (h : item.opens = true) :
    item.closes = false := by
  rcases of_decide_eq_true h with rfl | rfl <;> decide

end Instruction

namespace Script

-- No more than `depth` of the OP_ENDIFs close what was opened before the script.
def ClosesAtMost (depth : Nat) (script : Script) : Prop :=
  ∀ taken ∈ script.inits,
    taken.countP Instruction.closes ≤ taken.countP Instruction.opens + depth

instance (depth : Nat) (script : Script) : Decidable (script.ClosesAtMost depth) :=
  inferInstanceAs (Decidable (∀ taken ∈ script.inits, _))

theorem closesAtMost_of_notMem {script : Script} (h : Instruction.op Opcode.endIf ∉ script)
    (depth : Nat) : script.ClosesAtMost depth := by
  intro taken ht
  have hz : taken.countP Instruction.closes = 0 := by
    apply List.countP_eq_zero.mpr
    intro item hi hc
    have he : item = .op Opcode.endIf := of_decide_eq_true hc
    exact h (he ▸ ((List.mem_inits _ _).mp ht).subset hi)
  omega

theorem ClosesAtMost.of_cons {depth depth' : Nat} {item : Instruction} {items : Script}
    (h : ClosesAtMost depth (item :: items))
    (hd : depth + (if item.opens then 1 else 0) ≤ depth' + (if item.closes then 1 else 0)) :
    items.ClosesAtMost depth' := by
  intro taken ht
  have hi := h (item :: taken) (by simp [ht])
  simp only [List.countP_cons] at hi
  omega

end Script

namespace Branches

def followedBy (branches : Branches) (suffix : Script) : Branches :=
  { branches with rest := branches.rest ++ suffix }

theorem cons_followedBy (inSecond : Bool) (item : Instruction) (branches : Branches)
    (suffix : Script) :
    (branches.followedBy suffix).cons inSecond item =
      (branches.cons inSecond item).followedBy suffix := by
  cases inSecond <;> rfl

theorem resume_followedBy (branches : Branches) (suffix : Script) (condition : Bool) :
    (branches.followedBy suffix).resume condition = branches.resume condition ++ suffix := by
  simp [followedBy, resume, List.append_assoc]

-- The conditional being looked for has `depth` more inside it that are open
-- too, and to close it the script would have to close all of those first.
theorem split_eq_none {script : Script} {depth : Nat} (inSecond : Bool)
    (h : script.ClosesAtMost depth) : split depth inSecond script = none := by
  induction script generalizing depth inSecond with
  | nil => rfl
  | cons item items ih =>
      rw [split]
      split_ifs with hopen helse hclose hzero
      · have ho : item.opens = true := decide_eq_true hopen
        have hc := Instruction.closes_eq_false_of_opens ho
        rw [ih inSecond (h.of_cons (by simp [ho, hc])), Option.map_none]
      · have hc : item.closes = false := by rw [helse.1]; decide
        have ho : item.opens = false := decide_eq_false hopen
        exact ih true (h.of_cons (by simp [ho, hc]))
      · have hc : item.closes = true := decide_eq_true hclose
        have ho : item.opens = false := decide_eq_false hopen
        have hitem := h [item] (by simp)
        simp [ho, hc, hzero] at hitem
      · have hc : item.closes = true := decide_eq_true hclose
        have ho : item.opens = false := decide_eq_false hopen
        rw [ih inSecond (h.of_cons (by simp [ho, hc]; omega)), Option.map_none]
      · have hc : item.closes = false := decide_eq_false hclose
        have ho : item.opens = false := decide_eq_false hopen
        rw [ih inSecond (h.of_cons (by simp [ho, hc])), Option.map_none]

theorem split_append {suffix : Script} (hsuffix : suffix.ClosesAtMost 0) (program : Script)
    (depth : Nat) (inSecond : Bool) :
    split depth inSecond (program ++ suffix) =
      (split depth inSecond program).map (·.followedBy suffix) := by
  induction program generalizing depth inSecond with
  | nil =>
      -- A conditional that the program leaves open is not closed by the suffix.
      exact split_eq_none inSecond fun taken ht =>
        (hsuffix taken ht).trans (Nat.le_add_right _ _)
  | cons item items ih =>
      have hcons : (cons inSecond item) ∘ (·.followedBy suffix) =
          (·.followedBy suffix) ∘ cons inSecond item := by
        funext branches
        exact cons_followedBy inSecond item branches suffix
      simp only [List.cons_append, split, ih, Option.map_map, hcons]
      split_ifs
      all_goals simp only [Option.map_map, Option.map_some]
      rfl

end Branches

namespace Setting

def plain (setting : Setting) : Setting :=
  { setting with redeems := false }

end Setting

namespace Machine

def followedBy (m : Machine) (suffix : Script) : Machine :=
  { m with program := m.program ++ suffix }

theorem operate_plain (setting : Setting) (m : Machine) (operation : Operation) :
    m.operate setting.plain operation = m.operate setting operation := by
  cases operation <;> rfl

theorem branch_followedBy {suffix : Script} (hsuffix : suffix.ClosesAtMost 0) (wanted : Bool)
    (m : Machine) :
    (m.followedBy suffix).branch wanted = (m.branch wanted).map (·.followedBy suffix) := by
  rcases m with ⟨program, stack, alt⟩
  cases stack with
  | nil => rfl
  | cons element below =>
      simp only [followedBy, branch, Branches.split_append hsuffix]
      cases Branches.split 0 false program with
      | none => rfl
      | some branches => simp [Branches.resume_followedBy]

-- No operation but a conditional looks at what is left of the program.
theorem operate_followedBy {suffix : Script} (hsuffix : suffix.ClosesAtMost 0)
    (setting : Setting) (m : Machine) (operation : Operation) :
    (m.followedBy suffix).operate setting operation =
      (m.operate setting operation).map (·.followedBy suffix) := by
  cases operation with
  | stack op => simp [operate, withStack, followedBy, Function.comp_def]
  | branch wanted => exact branch_followedBy hsuffix wanted m
  | transfer op => simp [operate, followedBy, Function.comp_def]
  | signature op => simp [operate, withStack, followedBy, Function.comp_def]
  | lock op =>
      cases hf : setting.fields <;>
        simp [operate, withStack, followedBy, Function.comp_def, hf]

theorem execute_followedBy {suffix : Script} (hsuffix : suffix.ClosesAtMost 0)
    (setting : Setting) (m : Machine) (code : UInt8) :
    (m.followedBy suffix).execute setting code =
      (m.execute setting.plain code).map (·.followedBy suffix) := by
  cases ho : Opcode.operation? code with
  | none => simp [execute, ho]
  | some operation =>
      simp only [execute, ho, Option.bind_some, operate_plain]
      exact operate_followedBy hsuffix setting m operation

theorem push_plain (setting : Setting) (m : Machine) (data : Bytes) :
    m.push setting.plain data = .ok { m with stack := data :: m.stack } :=
  rfl

theorem push_of_scriptHash?_eq_none (setting : Setting) {m : Machine} (data : Bytes)
    (h : m.program.scriptHash? = none) :
    m.push setting data = .ok { m with stack := data :: m.stack } := by
  simp [push, h]

theorem run_push (setting : Setting) (data : Bytes) {rest : Script} (h : rest.scriptHash? = none)
    (stack alt : Stack) :
    run setting ⟨.push data :: rest, stack, alt⟩ = run setting ⟨rest, data :: stack, alt⟩ :=
  run_of_step (push_of_scriptHash?_eq_none setting data h)

theorem run_pushes_plain (setting : Setting) (elements : List Bytes) (stack alt : Stack) :
    run setting.plain ⟨elements.map .push, stack, alt⟩ = .ok (elements.reverse ++ stack, alt) := by
  induction elements generalizing stack with
  | nil => exact run_nil _ _ _
  | cons element elements ih =>
      have hstep : step setting.plain (.push element) ⟨elements.map .push, stack, alt⟩ =
          .ok ⟨elements.map .push, element :: stack, alt⟩ := push_plain setting _ element
      rw [List.map_cons, run_of_step hstep, ih, List.reverse_cons, List.append_assoc,
        List.singleton_append]

theorem run_open_conditional (setting : Setting) (stack alt : Stack) :
    run setting ⟨[.op Opcode.ifTrue], stack, alt⟩ = .error .failed := by
  rw [run_cons]
  cases stack with
  | nil => rfl
  | cons element below => rfl

end Machine

theorem Script.scriptHash?_eq_none_of_notMem {item : Instruction} {script : Script}
    (hitem : ∀ hash, item ∈ payToScriptHash hash) (h : item ∉ script) :
    script.scriptHash? = none := by
  by_contra hne
  obtain ⟨hash, hs⟩ := Option.ne_none_iff_exists'.mp hne
  apply h
  rw [Script.scriptHash?_eq_some_iff.mp hs]
  exact hitem hash

-- What a locking script needs for no unlocking script to change how it is read.
structure Script.Sealed (script : Script) : Prop where
  three_le_length : 3 ≤ script.length
  ne_payToScriptHash : ∀ hash, script ≠ Script.payToScriptHash hash
  closesAtMost : script.ClosesAtMost 0

theorem Script.Sealed.scriptHash?_append {suffix : Script} (hsuffix : suffix.Sealed)
    (program : Script) : scriptHash? (program ++ suffix) = none := by
  by_contra hne
  obtain ⟨hash, hs⟩ := Option.ne_none_iff_exists'.mp hne
  have he := Script.scriptHash?_eq_some_iff.mp hs
  have hl := congrArg List.length he
  have h3 := hsuffix.three_le_length
  simp only [List.length_append, Script.payToScriptHash, List.length_cons, List.length_nil] at hl
  -- The check of a script hash is too short to hold more than the suffix.
  have hp : program = [] := List.length_eq_zero_iff.mp (by omega)
  subst program
  exact hsuffix.ne_payToScriptHash hash he

namespace Machine

variable {suffix : Script}

theorem push_followedBy (hsuffix : suffix.Sealed) (setting : Setting) (m : Machine)
    (data : Bytes) :
    (m.followedBy suffix).push setting data =
      (m.push setting.plain data).map (·.followedBy suffix) := by
  rw [push_of_scriptHash?_eq_none setting data (hsuffix.scriptHash?_append m.program), push_plain]
  rfl

theorem step_followedBy (hsuffix : suffix.Sealed) (setting : Setting) (item : Instruction)
    (m : Machine) :
    step setting item (m.followedBy suffix) =
      (step setting.plain item m).map (·.followedBy suffix) := by
  cases item with
  | push data => exact push_followedBy hsuffix setting m data
  | op code =>
      simp only [step]
      split_ifs
      · exact push_followedBy hsuffix setting m []
      · rw [execute_followedBy hsuffix.closesAtMost]
        cases m.execute setting.plain code <;> rfl

theorem run_followedBy (hsuffix : suffix.Sealed) (setting : Setting) (m : Machine) :
    (m.followedBy suffix).run setting =
      (m.run setting.plain).bind fun ended => run setting ⟨suffix, ended.1, ended.2⟩ := by
  induction m using run_induction setting.plain with
  | nil stack alt =>
      rw [run_nil]
      rfl
  | cons item rest stack alt ih =>
      have hrun : (followedBy ⟨item :: rest, stack, alt⟩ suffix).run setting =
          (step setting item (followedBy ⟨rest, stack, alt⟩ suffix)).bind (run setting) :=
        run_cons setting item (rest ++ suffix) stack alt
      rw [hrun, step_followedBy hsuffix, run_cons]
      cases hstep : step setting.plain item ⟨rest, stack, alt⟩ with
      | error stop => rfl
      | ok next => exact ih next hstep

theorem step_plain_error (setting : Setting) {item : Instruction} {m : Machine} {stop : Stop}
    (h : step setting.plain item m = .error stop) : stop = .failed := by
  cases item with
  | push data => cases h
  | op code =>
      simp only [step] at h
      split_ifs at h
      · cases h
      · cases he : m.execute setting.plain code with
        | none =>
            rw [he] at h
            cases h
            rfl
        | some next =>
            rw [he] at h
            cases h

-- Only a committed script can be unreadable.
theorem run_plain_error (setting : Setting) {m : Machine} {stop : Stop}
    (h : m.run setting.plain = .error stop) : stop = .failed := by
  induction m using run_induction setting.plain with
  | nil stack alt =>
      rw [run_nil] at h
      cases h
  | cons item rest stack alt ih =>
      rw [run_cons] at h
      cases hstep : step setting.plain item ⟨rest, stack, alt⟩ with
      | error cause =>
          rw [hstep] at h
          cases h
          exact step_plain_error setting hstep
      | ok next =>
          rw [hstep] at h
          exact ih next hstep h

end Machine

namespace Script

theorem evaluate_append_sealed {locking : Script} (hlocking : locking.Sealed) (unlocking : Script)
    (hash : Int) (fields : Option LockFields) :
    (unlocking ++ locking).evaluate hash fields =
      match unlocking.start.run ⟨hash, fields, false⟩ with
      | .error _ => .ok false
      | .ok (stack, alt) => verdict (Machine.run ⟨hash, fields, true⟩ ⟨locking, stack, alt⟩) := by
  have hrun := Machine.run_followedBy hlocking ⟨hash, fields, true⟩ unlocking.start
  have hplain : (⟨hash, fields, true⟩ : Setting).plain = ⟨hash, fields, false⟩ := rfl
  change verdict ((unlocking.start.followedBy locking).run ⟨hash, fields, true⟩) = _
  rw [hrun, hplain]
  cases h : unlocking.start.run ⟨hash, fields, false⟩ with
  | error stop =>
      rw [Machine.run_plain_error ⟨hash, fields, true⟩ h]
      rfl
  | ok ended => rfl

-- An unlocking script only chooses the stacks that the locking script starts from.
theorem evaluate_append (locking : Script) (hlength : 3 ≤ locking.length)
    (htemplate : ∀ hash, locking ≠ payToScriptHash hash) (hcloses : locking.ClosesAtMost 0)
    (unlocking : Script) (hash : Int) (fields : Option LockFields) :
    (unlocking ++ locking).evaluate hash fields =
      match unlocking.start.run ⟨hash, fields, false⟩ with
      | .error _ => .ok false
      | .ok (stack, alt) => verdict (Machine.run ⟨hash, fields, true⟩ ⟨locking, stack, alt⟩) :=
  evaluate_append_sealed ⟨hlength, htemplate, hcloses⟩ unlocking hash fields

-- The unlocking script hands a condition over on the alternative stack. An OP_ENDIF of the
-- locking script does not close what was left open.
theorem evaluate_append_conditional :
    ∃ locking : Script,
      locking = [.op 108, .op Opcode.ifTrue, .push [3], .op Opcode.equal, .op Opcode.endIf] ∧
      3 ≤ locking.length ∧ (∀ hash, locking ≠ payToScriptHash hash) ∧
      locking.ClosesAtMost 0 ∧
      (start [.push [3], .push [1], .op 107]).run ⟨0, none, false⟩ = .ok ([[3]], [[1]]) ∧
      evaluate ([.push [3], .push [1], .op 107] ++ locking) 0 none = .ok true ∧
      evaluate ([.push [1], .op Opcode.ifTrue] ++ locking) 0 none = .ok false := by
  let locking : Script :=
    [.op 108, .op Opcode.ifTrue, .push [3], .op Opcode.equal, .op Opcode.endIf]
  have hlength : 3 ≤ locking.length := by decide
  have htemplate : ∀ hash, locking ≠ payToScriptHash hash := by simp [locking, payToScriptHash]
  have hcloses : locking.ClosesAtMost 0 := by decide
  have hleaves : (start [.push [3], .push [1], .op 107]).run ⟨0, none, false⟩ =
      .ok ([[3]], [[1]]) :=
    calc Machine.run ⟨0, none, false⟩ ⟨[.push [3], .push [1], .op 107], [], []⟩
      _ = Machine.run ⟨0, none, false⟩ ⟨[.push [1], .op 107], [[3]], []⟩ := Machine.run_of_step rfl
      _ = Machine.run ⟨0, none, false⟩ ⟨[.op 107], [[1], [3]], []⟩ := Machine.run_of_step rfl
      _ = Machine.run ⟨0, none, false⟩ ⟨[], [[3]], [[1]]⟩ := Machine.run_of_step rfl
      _ = .ok ([[3]], [[1]]) := Machine.run_nil _ _ _
  have hopens : (start [.push [1], .op Opcode.ifTrue]).run ⟨0, none, false⟩ = .error .failed := by
    rw [start, Machine.run_cons]
    exact Machine.run_open_conditional _ _ _
  have hlocking : Machine.run ⟨0, none, true⟩ ⟨locking, [[3]], [[1]]⟩ =
      .ok ([ScriptNumber.ofBool true], []) :=
    calc Machine.run ⟨0, none, true⟩ ⟨locking, [[3]], [[1]]⟩
      _ = Machine.run ⟨0, none, true⟩ ⟨locking.tail, [[1], [3]], []⟩ := Machine.run_of_step rfl
      _ = Machine.run ⟨0, none, true⟩ ⟨[.push [3], .op Opcode.equal], [[3]], []⟩ :=
        Machine.run_of_step rfl
      _ = Machine.run ⟨0, none, true⟩ ⟨[.op Opcode.equal], [[3], [3]], []⟩ :=
        Machine.run_of_step rfl
      _ = Machine.run ⟨0, none, true⟩ ⟨[], [ScriptNumber.ofBool true], []⟩ :=
        Machine.run_of_step rfl
      _ = .ok ([ScriptNumber.ofBool true], []) := Machine.run_nil _ _ _
  refine ⟨locking, rfl, hlength, htemplate, hcloses, hleaves, ?_, ?_⟩
  · rw [evaluate_append locking hlength htemplate hcloses, hleaves]
    change verdict (Machine.run ⟨0, none, true⟩ ⟨locking, [[3]], [[1]]⟩) = _
    rw [hlocking]
    simp [verdict, ScriptNumber.ofBool_eq_nil_iff]
  · rw [evaluate_append locking hlength htemplate hcloses, hopens]

end Script

end BitcoinSpend
