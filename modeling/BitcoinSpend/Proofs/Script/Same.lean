import BitcoinSpend.Proofs.Wire.Encodable
import BitcoinSpend.Script.Machine
import Mathlib.Logic.Basic
import Mathlib.Logic.Relation

namespace BitcoinSpend

-- Where items are compared by their normal forms, lists of them are too.
theorem isEqv_iff_map_eq {α : Type} {same : α → α → Bool} {normal : α → α}
    (h : ∀ a b, same a b ↔ normal a = normal b) {s t : List α} :
    s.isEqv t same ↔ s.map normal = t.map normal := by
  induction s generalizing t with
  | nil => cases t <;> simp [List.isEqv]
  | cons a s ih =>
      cases t with
      | nil => simp [List.isEqv]
      | cons b t => simp [List.isEqv, h, ih]

namespace Instruction

variable {item : Instruction} {data : Bytes}

-- One form for both forms of the empty push.
def normal : Instruction → Instruction
  | op code => if code = 0 then push [] else op code
  | push data => push data

theorem normal_op {code : UInt8} (h : code ≠ 0) : normal (op code) = op code :=
  if_neg h

-- Whatever does not tell the two forms of the empty push apart does not tell an
-- instruction from its normal form.
theorem apply_normal {α : Type} (f : Instruction → α) (h : f (push []) = f (op 0))
    (item : Instruction) : f item.normal = f item := by
  cases item with
  | push data => rfl
  | op code =>
      by_cases hcode : code = 0
      · subst hcode
        exact h
      · rw [normal_op hcode]

@[simp]
theorem normal_normal (item : Instruction) : item.normal.normal = item.normal :=
  apply_normal normal rfl item

theorem pushed?_normal (item : Instruction) : item.normal.pushed? = item.pushed? :=
  apply_normal pushed? rfl item

theorem write_normal (item : Instruction) : item.normal.write = item.write :=
  apply_normal write rfl item

theorem render_normal (item : Instruction) : item.normal.render = item.render :=
  apply_normal render rfl item

theorem same_iff (a b : Instruction) : a.same b ↔ a.normal = b.normal := by
  cases a with
  | push data => cases b <;> grind [same, pushed?, normal]
  | op code => cases b <;> grind [same, pushed?, normal]

-- An instruction that is no empty push is the normal form of itself only.
theorem normal_eq_iff {other : Instruction} (h : other.pushed? ≠ some []) :
    item.normal = other ↔ item = other := by
  constructor
  · rintro rfl
    rw [pushed?_normal] at h
    cases item with
    | push data => rfl
    | op code =>
        rw [normal_op]
        rintro rfl
        exact h rfl
  · rintro rfl
    cases item with
    | push data => rfl
    | op code =>
        apply normal_op
        rintro rfl
        exact h rfl

theorem same_equivalence : Equivalence fun a b : Instruction => a.same b = true := by
  simp only [same_iff]
  exact eq_equivalence.comap normal

end Instruction

theorem FixedBytes.bytes_ne_nil {size : Nat} (hsize : 0 < size) (x : FixedBytes size) :
    x.bytes ≠ [] :=
  List.ne_nil_of_length_pos (x.length_eq.symm ▸ hsize)

namespace Script

def normal (script : Script) : Script :=
  script.map Instruction.normal

theorem same_iff (s t : Script) : s.same t ↔ s.normal = t.normal :=
  isEqv_iff_map_eq Instruction.same_iff

@[simp]
theorem normal_normal (script : Script) : script.normal.normal = script.normal := by
  simp [normal]

@[simp]
theorem normal_append (s t : Script) : normal (s ++ t) = s.normal ++ t.normal :=
  List.map_append

theorem normal_eq_iff {s t : Script} (h : ∀ item ∈ t, item.pushed? ≠ some []) :
    s.normal = t ↔ s = t := by
  induction s generalizing t with
  | nil => rfl
  | cons item s ih =>
      cases t with
      | nil => simp [normal]
      | cons other t =>
          obtain ⟨hother, ht⟩ := List.forall_mem_cons.mp h
          have htail : s.map Instruction.normal = t ↔ s = t := ih ht
          simp [normal, Instruction.normal_eq_iff hother, htail]

theorem bytes_normal (script : Script) : script.normal.bytes = script.bytes := by
  rw [bytes_eq_writeAll, bytes_eq_writeAll, normal, Transaction.writeAll_map Instruction.write_normal]

theorem write_normal (script : Script) : script.normal.write = script.write := by
  rw [write, write, bytes_normal]

theorem render_normal (script : Script) : script.normal.render = script.render := by
  rw [render, render, normal, List.map_map]
  congr 2
  funext item
  exact item.render_normal

theorem keyHash?_normal (script : Script) : script.normal.keyHash? = script.keyHash? := by
  ext hash
  have hpush : ∀ item ∈ payToKeyHash hash, item.pushed? ≠ some [] := by
    simp [payToKeyHash, Instruction.pushed?, hash.bytes_ne_nil, Opcode.dup, Opcode.hash160,
      Opcode.equalVerify, Opcode.checkSig]
  rw [keyHash?_eq_some_iff, keyHash?_eq_some_iff, normal_eq_iff hpush]

theorem scriptHash?_normal (script : Script) : script.normal.scriptHash? = script.scriptHash? := by
  ext hash
  have hpush : ∀ item ∈ payToScriptHash hash, item.pushed? ≠ some [] := by
    simp [payToScriptHash, Instruction.pushed?, hash.bytes_ne_nil, Opcode.hash160, Opcode.equal]
  rw [scriptHash?_eq_some_iff, scriptHash?_eq_some_iff, normal_eq_iff hpush]

theorem address_normal (network : Network) (script : Script) :
    script.normal.address network = script.address network := by
  rw [address, address, keyHash?_normal, scriptHash?_normal, render_normal]

end Script

namespace Branches

def normal (branches : Branches) : Branches :=
  ⟨branches.first.normal, branches.second.normal, branches.rest.normal⟩

theorem normal_cons (inSecond : Bool) (item : Instruction) (branches : Branches) :
    (branches.cons inSecond item).normal = branches.normal.cons inSecond item.normal := by
  cases inSecond <;> rfl

theorem normal_resume (branches : Branches) (condition : Bool) :
    (branches.resume condition).normal = branches.normal.resume condition := by
  cases condition <;> simp [resume, normal]

-- No instruction of a conditional is an empty push.
theorem split_normal (depth : Nat) (inSecond : Bool) (program : Script) :
    split depth inSecond program.normal = (split depth inSecond program).map normal := by
  induction program generalizing depth inSecond with
  | nil => rfl
  | cons item items ih =>
      have hop : ∀ code, code ≠ 0 → (item.normal = .op code ↔ item = .op code) := fun code hcode =>
        Instruction.normal_eq_iff (by simp [Instruction.pushed?, hcode])
      have hkeep : ∀ depth,
          (split depth inSecond (Script.normal items)).map (cons inSecond item.normal) =
            ((split depth inSecond items).map (cons inSecond item)).map normal := by
        intro depth
        rw [ih, Option.map_map, Option.map_map]
        congr 1
        funext branches
        exact (normal_cons inSecond item branches).symm
      change split depth inSecond (item.normal :: (Script.normal items)) = _
      simp only [split, hop Opcode.ifTrue (by decide), hop Opcode.ifFalse (by decide),
        hop Opcode.otherwise (by decide), hop Opcode.endIf (by decide)]
      split_ifs
      · exact hkeep _
      · exact ih _ _
      · rfl
      · exact hkeep _
      · exact hkeep _

end Branches

namespace Machine

def normal (m : Machine) : Machine :=
  { m with program := m.program.normal }

@[simp]
theorem normal_normal (m : Machine) : m.normal.normal = m.normal := by
  simp [normal]

theorem branch_normal (wanted : Bool) (m : Machine) :
    m.normal.branch wanted = (m.branch wanted).map normal := by
  rcases m with ⟨program, _ | ⟨element, below⟩, alt⟩
  · rfl
  · cases hsplit : Branches.split 0 false program <;>
      simp [branch, normal, Branches.split_normal, hsplit, Branches.normal_resume]

theorem withStack_normal (m : Machine) (stack : Option Stack) :
    m.normal.withStack stack = (m.withStack stack).map normal := by
  cases stack <;> rfl

theorem operate_normal (setting : Setting) (m : Machine) (operation : Operation) :
    m.normal.operate setting operation = (m.operate setting operation).map normal := by
  cases operation with
  | stack op => exact m.withStack_normal _
  | branch wanted => exact m.branch_normal wanted
  | transfer op =>
      rw [operate, operate, Option.map_map]
      rfl
  | signature op => exact m.withStack_normal _
  | lock op =>
      cases hfields : setting.fields with
      | none => simp [operate, hfields]
      | some fields =>
          simp only [operate, hfields, Option.bind_some]
          exact m.withStack_normal _

-- A committed script is what its bytes say, whatever form the program before it had.
theorem push_normal (setting : Setting) (m : Machine) (data : Bytes) :
    (m.normal.push setting data).map normal = (m.push setting data).map normal := by
  have hcheck : m.normal.program.scriptHash? = m.program.scriptHash? := m.program.scriptHash?_normal
  rw [push, push, hcheck]
  split
  · simp [Except.map, normal]
  · split_ifs
    · rfl
    · split <;> rfl

theorem step_normal (setting : Setting) (item : Instruction) (m : Machine) :
    (step setting item.normal m.normal).map normal = (step setting item m).map normal := by
  rw [Instruction.apply_normal (step setting · m.normal) rfl]
  cases item with
  | push data => exact push_normal setting m data
  | op code =>
      simp only [step]
      split_ifs with hcode
      · exact push_normal setting m []
      · have hexecute : m.normal.execute setting code = (m.execute setting code).map normal := by
          rw [execute, execute, funext (operate_normal setting m), Option.map_bind]
          rfl
        rw [hexecute]
        cases m.execute setting code with
        | none => rfl
        | some next => simp [Except.map]

theorem bind_eq_of_map_eq {α β : Type} {x y : Except Stop Machine}
    {f : Machine → α} {g : Machine → Except Stop β} (h : x.map f = y.map f)
    (hg : ∀ a, x = .ok a → ∀ {b}, f a = f b → g a = g b) : x.bind g = y.bind g := by
  cases x with
  | error stop =>
      cases y with
      | error stop' =>
          cases h
          rfl
      | ok b => cases h
  | ok a =>
      cases y with
      | error stop' => cases h
      | ok b => exact hg a rfl (Except.ok.inj h)

-- Machines that differ in the forms of empty pushes step to such machines.
theorem run_eq_of_normal_eq (setting : Setting) {m m' : Machine} (h : m.normal = m'.normal) :
    run setting m = run setting m' := by
  induction m using run_induction setting generalizing m' with
  | nil stack alt =>
      rcases m' with ⟨_ | ⟨item', rest'⟩, stack', alt'⟩
      · cases h
        rfl
      · cases h
  | cons item rest stack alt ih =>
      rcases m' with ⟨_ | ⟨item', rest'⟩, stack', alt'⟩
      · cases h
      · simp only [normal, Script.normal, List.map_cons, Machine.mk.injEq, List.cons.injEq] at h
        obtain ⟨⟨hitem, hrest⟩, rfl, rfl⟩ := h
        have hstep : (step setting item ⟨rest, stack, alt⟩).map normal =
            (step setting item' ⟨rest', stack, alt⟩).map normal := by
          rw [← step_normal setting item, ← step_normal setting item', hitem]
          simp only [normal, Script.normal, hrest]
        rw [run_cons, run_cons]
        exact bind_eq_of_map_eq hstep ih

end Machine

namespace Script

theorem evaluate_eq_of_normal_eq {s t : Script} (h : s.normal = t.normal) (hash : Int)
    (fields : Option LockFields) : s.evaluate hash fields = t.evaluate hash fields := by
  have hstart : s.start.normal = t.start.normal := by
    simp only [start, Machine.normal, h]
  rw [evaluate, evaluate, Machine.run_eq_of_normal_eq _ hstart]

-- All that is said about a script says the same about the other.
structure Indistinguishable (s t : Script) : Prop where
  bytes : s.bytes = t.bytes
  write : s.write = t.write
  evaluate : ∀ hash fields, s.evaluate hash fields = t.evaluate hash fields
  render : s.render = t.render
  address : ∀ network, s.address network = t.address network
  keyHash? : s.keyHash? = t.keyHash?
  scriptHash? : s.scriptHash? = t.scriptHash?

theorem Indistinguishable.of_same {s t : Script} (h : s.same t) : s.Indistinguishable t := by
  rw [same_iff] at h
  constructor
  · rw [← bytes_normal, h, bytes_normal]
  · rw [← write_normal, h, write_normal]
  · exact evaluate_eq_of_normal_eq h
  · rw [← render_normal, h, render_normal]
  · intro network
    rw [← address_normal, h, address_normal]
  · rw [← keyHash?_normal, h, keyHash?_normal]
  · rw [← scriptHash?_normal, h, scriptHash?_normal]

end Script

end BitcoinSpend
