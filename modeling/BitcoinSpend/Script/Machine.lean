import BitcoinSpend.Script.Branch
import BitcoinSpend.Script.Codec
import BitcoinSpend.Script.LockOp
import BitcoinSpend.Script.SignatureOp
import BitcoinSpend.Script.Template

namespace BitcoinSpend

-- A script in the middle of its run: what is still to do, and both stacks.
structure Machine where
  program : Script
  stack : Stack
  alt : Stack
deriving DecidableEq

-- What a run is checked against: the hash that signatures sign, the lock
-- fields if there are any, and whether committed scripts are run.
structure Setting where
  hash : Int
  fields : Option LockFields
  redeems : Bool

-- Why a run stops early: an instruction failed, or a committed script is none.
inductive Stop where
  | failed
  | unreadable (cause : Error)
deriving DecidableEq

namespace Machine

-- Pops the condition and goes on with the branch it chooses.
def branch (wanted : Bool) (m : Machine) : Option Machine :=
  match m.stack with
  | [] => none
  | element :: below => do
      let branches ← Branches.split 0 false m.program
      let program := branches.resume (ScriptNumber.truth element = wanted)
      return { m with program := program, stack := below }

def withStack (m : Machine) (stack : Option Stack) : Option Machine :=
  stack.map fun stack => { m with stack := stack }

def operate (setting : Setting) (m : Machine) : Operation → Option Machine
  | .stack op => m.withStack (op.apply m.stack)
  | .branch wanted => m.branch wanted
  | .transfer op =>
      (op.apply m.stack m.alt).map fun pair => { m with stack := pair.1, alt := pair.2 }
  | .signature op => m.withStack (op.apply setting.hash m.stack)
  | .lock op => setting.fields.bind fun fields => m.withStack (op.apply fields m.stack)

-- An opcode without an operation fails.
def execute (setting : Setting) (m : Machine) (code : UInt8) : Option Machine :=
  (Opcode.operation? code).bind (m.operate setting)

-- Pushes data, unless all that is left is the check of a script hash. Then the
-- data is the committed script, which takes the place of the check.
def push (setting : Setting) (m : Machine) (data : Bytes) : Except Stop Machine :=
  match if setting.redeems then m.program.scriptHash? else none with
  | none => .ok { m with stack := data :: m.stack }
  | some hash =>
      if hash160 data ≠ hash then .error .failed
      else
        match Script.ofBytes data with
        | .error cause => .error (.unreadable cause)
        | .ok committed => .ok { m with program := committed }

-- Runs one instruction in front of the program.
def step (setting : Setting) (item : Instruction) (m : Machine) : Except Stop Machine :=
  match item with
  | .push data => m.push setting data
  | .op code =>
      if code = 0 then m.push setting []
      else
        match m.execute setting code with
        | none => .error .failed
        | some m => .ok m

theorem step_op (setting : Setting) {code : UInt8} {operation : Operation} (hcode : code ≠ 0)
    (ho : Opcode.operation? code = some operation) (m : Machine) :
    step setting (.op code) m =
      match m.operate setting operation with
      | none => .error .failed
      | some m => .ok m := by
  simp only [step, hcode, ite_false, execute, ho, Option.bind_some]

theorem step_of_pushed? (setting : Setting) {item : Instruction} {data : Bytes}
    (h : item.pushed? = some data) (m : Machine) : step setting item m = m.push setting data := by
  cases item with
  | push other =>
      cases h
      rfl
  | op code =>
      by_cases hc : code = 0
      · simp only [Instruction.pushed?, hc, ite_true, Option.some.injEq] at h
        simp only [step, hc, ite_true, h]
      · simp [Instruction.pushed?, hc] at h

theorem operate_weight {setting : Setting} {m m' : Machine} {operation : Operation}
    (h : m.operate setting operation = some m') :
    Script.weight m'.program ≤ Script.weight m.program := by
  cases operation with
  | stack op =>
      obtain ⟨_, _, rfl⟩ := Option.map_eq_some_iff.mp h
      exact Nat.le_refl _
  | branch wanted =>
      simp only [operate, branch] at h
      split at h
      · cases h
      · obtain ⟨branches, hs, hb⟩ := Option.bind_eq_some_iff.mp h
        cases hb
        exact Nat.le_trans (Branches.weight_resume _ _) (Branches.weight_split hs)
  | transfer op =>
      obtain ⟨_, _, rfl⟩ := Option.map_eq_some_iff.mp h
      exact Nat.le_refl _
  | signature op =>
      obtain ⟨_, _, rfl⟩ := Option.map_eq_some_iff.mp h
      exact Nat.le_refl _
  | lock op =>
      obtain ⟨_, _, hl⟩ := Option.bind_eq_some_iff.mp h
      obtain ⟨_, _, rfl⟩ := Option.map_eq_some_iff.mp hl
      exact Nat.le_refl _

theorem push_weight {setting : Setting} {m m' : Machine} {data : Bytes}
    (h : m.push setting data = .ok m') :
    Script.weight m'.program < 1 + data.length + Script.weight m.program := by
  unfold push at h
  split at h
  · cases h
    exact Nat.lt_add_of_pos_left (by omega)
  · split at h
    · cases h
    · split at h
      · cases h
      next hs =>
        cases h
        have := Script.ofBytes_weight hs
        simp only
        omega

-- Every instruction leaves less to do than there was with it.
theorem step_weight {setting : Setting} {m m' : Machine} {item : Instruction}
    (h : step setting item m = .ok m') :
    Script.weight m'.program < item.weight + Script.weight m.program := by
  cases item with
  | push data => exact push_weight h
  | op code =>
      simp only [step] at h
      split at h
      · exact push_weight h
      · split at h
        · cases h
        next he =>
          cases h
          obtain ⟨operation, _, ho⟩ := Option.bind_eq_some_iff.mp he
          have := operate_weight ho
          simp only [Instruction.weight]
          omega

-- Runs the program to its end. The result is the two stacks it leaves.
def run (setting : Setting) (m : Machine) : Except Stop (Stack × Stack) :=
  match _hp : m.program with
  | [] => .ok (m.stack, m.alt)
  | item :: rest =>
      match _hs : step setting item { m with program := rest } with
      | .error stop => .error stop
      | .ok m => run setting m
termination_by Script.weight m.program
decreasing_by
  have := step_weight _hs
  simp only [_hp, Script.weight]
  exact this

@[simp]
theorem run_nil (setting : Setting) (stack alt : Stack) :
    run setting ⟨[], stack, alt⟩ = .ok (stack, alt) := by
  rw [run]

-- A run takes one step and goes on from there.
theorem run_cons (setting : Setting) (item : Instruction) (rest : Script) (stack alt : Stack) :
    run setting ⟨item :: rest, stack, alt⟩ =
      (step setting item ⟨rest, stack, alt⟩).bind (run setting) := by
  rw [run]
  split
  next hp => cases hp
  next hp =>
    cases hp
    split
    next hs => rw [hs]; rfl
    next hs => rw [hs]; rfl

theorem run_of_step {setting : Setting} {item : Instruction} {rest : Script} {stack alt : Stack}
    {next : Machine} (h : step setting item ⟨rest, stack, alt⟩ = .ok next) :
    run setting ⟨item :: rest, stack, alt⟩ = run setting next := by
  rw [run_cons, h]
  rfl

-- Induction along a run: a property that holds with an empty program, and before
-- an instruction whenever it holds after it, holds of every machine.
@[elab_as_elim]
theorem run_induction (setting : Setting) {motive : Machine → Prop}
    (nil : ∀ stack alt, motive ⟨[], stack, alt⟩)
    (cons : ∀ item rest stack alt,
      (∀ next, step setting item ⟨rest, stack, alt⟩ = .ok next → motive next) →
        motive ⟨item :: rest, stack, alt⟩)
    (m : Machine) : motive m :=
  match m with
  | ⟨[], stack, alt⟩ => nil stack alt
  | ⟨item :: rest, stack, alt⟩ =>
      cons item rest stack alt fun next _ => run_induction setting nil cons next
termination_by Script.weight m.program
decreasing_by
  rename_i hs
  exact step_weight hs

end Machine

namespace Script

def start (script : Script) : Machine :=
  ⟨script, [], []⟩

-- What a run says about a spend: whether it leaves a stack whose top element is
-- not empty. Failing is a verdict too. Only a committed script that cannot be
-- read is an error.
def verdict : Except Stop (Stack × Stack) → Except Error Bool
  | .ok (top :: _, _) => .ok (top ≠ [])
  | .ok ([], _) => .ok false
  | .error .failed => .ok false
  | .error (.unreadable cause) => .error cause

def evaluate (script : Script) (hash : Int) (fields : Option LockFields) : Except Error Bool :=
  verdict (script.start.run ⟨hash, fields, true⟩)

-- The verdict is true only on a run that ends, with a top element that is not empty.
theorem verdict_eq_true_iff {result : Except Stop (Stack × Stack)} :
    verdict result = .ok true ↔
      ∃ top below alt, result = .ok (top :: below, alt) ∧ top ≠ [] := by
  constructor
  · intro h
    match result, h with
    | .ok (top :: below, alt), h =>
        exact ⟨top, below, alt, rfl, by simpa [verdict] using h⟩
    | .error (.unreadable cause), h => cases h
  · rintro ⟨top, below, alt, rfl, ht⟩
    simp [verdict, ht]

end Script

end BitcoinSpend
