import BitcoinSpend.Proofs.Script.Reach
import BitcoinSpend.Proofs.Script.Structured

namespace BitcoinSpend

namespace LockFields

-- Two sequences that hold relative locks of one kind, the later one no shorter.
structure DistanceNotBefore (later sequence : UInt32) : Prop where
  enabled : sequence.toNat.testBit 31 = false
  later_enabled : later.toNat.testBit 31 = false
  kind : later.toNat.testBit 22 = sequence.toNat.testBit 22
  distance : sequence.toNat % 65536 ≤ later.toNat % 65536

-- The fields of a spend that comes no earlier than another. Heights stay heights
-- and times stay times.
structure NotBefore (later fields : LockFields) : Prop where
  version : fields.version ≤ later.version
  locktime : fields.locktime ≤ later.locktime
  kind : later.locktime.toNat < LockOp.timeThreshold ↔
    fields.locktime.toNat < LockOp.timeThreshold
  sequence : later.sequence = fields.sequence ∨ DistanceNotBefore later.sequence fields.sequence

variable {later fields : LockFields}

-- A sequence whose bit 31 is clear is not the final one.
theorem NotBefore.sequence_ne (h : later.NotBefore fields) (hne : fields.sequence ≠ 0xffffffff) :
    later.sequence ≠ 0xffffffff := by
  rcases h.sequence with heq | hdistance
  · rwa [heq]
  · intro hfinal
    have henabled := hdistance.later_enabled
    rw [hfinal] at henabled
    exact absurd henabled (by decide)

theorem NotBefore.two_le_version (h : later.NotBefore fields) (hversion : 2 ≤ fields.version) :
    2 ≤ later.version :=
  UInt32.le_trans hversion h.version

end LockFields

namespace LockOp

variable {later fields : LockFields}

theorem locktimeReached_of_notBefore (h : later.NotBefore fields) {required : Nat}
    (hreached : locktimeReached fields required = true) :
    locktimeReached later required = true := by
  simp only [locktimeReached, decide_eq_true_eq] at hreached ⊢
  obtain ⟨hsequence, hkind, hle⟩ := hreached
  exact ⟨h.sequence_ne hsequence, hkind.trans h.kind.symm, hle.trans h.locktime⟩

theorem sequenceReached_of_notBefore (h : later.NotBefore fields) {required : Nat}
    (hreached : sequenceReached fields required = true) :
    sequenceReached later required = true := by
  simp only [sequenceReached, decide_eq_true_eq] at hreached ⊢
  rcases hreached with hoff | ⟨hversion, henabled, hkind, hle⟩
  · exact .inl hoff
  · refine .inr ⟨h.two_le_version hversion, ?_⟩
    rcases h.sequence with heq | hdistance
    · rw [heq]
      exact ⟨henabled, hkind, hle⟩
    · exact ⟨by simp [hdistance.later_enabled], hkind.trans hdistance.kind.symm,
        hle.trans hdistance.distance⟩

theorem reached_of_notBefore (h : later.NotBefore fields) {op : LockOp} {required : Nat}
    (hreached : reached fields op required = true) : reached later op required = true := by
  cases op with
  | checkLocktime => exact locktimeReached_of_notBefore h hreached
  | checkSequence => exact sequenceReached_of_notBefore h hreached

theorem apply_of_notBefore (h : later.NotBefore fields) {op : LockOp} {stack after : Stack}
    (happly : op.apply fields stack = some after) : op.apply later stack = some after := by
  obtain ⟨element, below, required, hstack, hrequired, hreached, hafter⟩ :=
    apply_eq_some_iff.mp happly
  exact apply_eq_some_iff.mpr
    ⟨element, below, required, hstack, hrequired, reached_of_notBefore h hreached, hafter⟩

end LockOp

namespace Setting

-- Two settings that part at most in what locks are compared with. Where there is
-- nothing to compare with in the first, there may be anything in the second.
structure Opens (setting later : Setting) : Prop where
  hash : later.hash = setting.hash
  redeems : later.redeems = setting.redeems
  fields : ∀ fields, setting.fields = some fields →
    ∃ fields', later.fields = some fields' ∧ fields'.NotBefore fields

end Setting

namespace Machine

variable {setting later : Setting} {m next : Machine}

theorem operate_of_opens (h : setting.Opens later) {operation : Operation}
    (hoperate : m.operate setting operation = some next) :
    m.operate later operation = some next := by
  cases operation with
  | stack op => exact hoperate
  | branch wanted => exact hoperate
  | transfer op => exact hoperate
  | signature op =>
      rw [operate, h.hash]
      exact hoperate
  | lock op =>
      obtain ⟨fields, hfields, hwith⟩ := Option.bind_eq_some_iff.mp hoperate
      obtain ⟨after, happly, rfl⟩ := Option.map_eq_some_iff.mp hwith
      obtain ⟨fields', hfields', hnotBefore⟩ := h.fields fields hfields
      have happly' := LockOp.apply_of_notBefore hnotBefore happly
      simp only [operate, hfields', Option.bind_some, withStack, happly', Option.map_some]

-- No operation but a lock looks at the fields, and one that fails ends the run.
theorem Proceeds.of_opens (h : setting.Opens later) {item : Instruction}
    (hproceeds : Proceeds setting item m next) : Proceeds later item m next := by
  cases hproceeds with
  | pushed hitem hcheck =>
      rw [← h.redeems] at hcheck
      exact .pushed hitem hcheck
  | committed hitem hredeems hcheck hread =>
      rw [← h.redeems] at hredeems
      exact .committed hitem hredeems hcheck hread
  | operated hcode hoperation hoperate =>
      exact .operated hcode hoperation (operate_of_opens h hoperate)

theorem Reaches.of_opens (h : setting.Opens later) (hreaches : Reaches setting m next) :
    Reaches later m next := by
  refine Relation.ReflTransGen.mono ?_ m next hreaches
  rintro ⟨_ | ⟨item, rest⟩, stack, alt⟩ next hcontinues
  · exact absurd hcontinues not_continues_nil
  · rw [continues_cons_iff] at hcontinues ⊢
    exact hcontinues.of_opens h

end Machine

namespace Script

theorem evaluate_of_opens {script : Script} {hash : Int} {fields later : Option LockFields}
    (h : Setting.Opens ⟨hash, fields, true⟩ ⟨hash, later, true⟩)
    (hevaluate : script.evaluate hash fields = .ok true) : script.evaluate hash later = .ok true := by
  obtain ⟨top, below, alt, hreaches, htop⟩ := evaluate_eq_true_iff_reaches.mp hevaluate
  exact evaluate_eq_true_iff_reaches.mpr ⟨top, below, alt, hreaches.of_opens h, htop⟩

-- A spend that is valid stays valid as time passes.
theorem evaluate_of_notBefore (script : Script) (hash : Int) :
    (script.evaluate hash none = .ok true → ∀ fields, script.evaluate hash fields = .ok true) ∧
    ∀ fields later : LockFields, later.NotBefore fields →
      script.evaluate hash (some fields) = .ok true →
        script.evaluate hash (some later) = .ok true := by
  constructor
  · intro hevaluate fields
    have hopens : Setting.Opens ⟨hash, none, true⟩ ⟨hash, fields, true⟩ :=
      ⟨rfl, rfl, fun _ hnone => by cases hnone⟩
    exact evaluate_of_opens hopens hevaluate
  · intro fields later h hevaluate
    have hopens : Setting.Opens ⟨hash, some fields, true⟩ ⟨hash, some later, true⟩ := by
      refine ⟨rfl, rfl, ?_⟩
      rintro _ ⟨⟩
      exact ⟨later, rfl, h⟩
    exact evaluate_of_opens hopens hevaluate

-- An absolute and a relative lock on the same number, and a lock in a branch that is
-- not taken.
theorem evaluate_of_notBefore_bothLocks :
    ∃ (locked skipped : Script) (fields later : LockFields),
      locked = [.push [20], .op 177, .op 178] ∧
      skipped = [.push [1], .push [], .op Opcode.ifTrue, .op 177, .op Opcode.endIf] ∧
      fields = ⟨2, 25, 30⟩ ∧ later = ⟨3, 31, 40⟩ ∧ later.NotBefore fields ∧
      locked.evaluate 0 (some fields) = .ok true ∧ locked.evaluate 0 (some later) = .ok true ∧
      skipped.evaluate 0 none = .ok true ∧ skipped.evaluate 0 (some fields) = .ok true := by
  let locked : Script := [.push [20], .op 177, .op 178]
  let skipped : Script := [.push [1], .push [], .op Opcode.ifTrue, .op 177, .op Opcode.endIf]
  let fields : LockFields := ⟨2, 25, 30⟩
  let later : LockFields := ⟨3, 31, 40⟩
  have hlater : later.NotBefore fields :=
    ⟨by decide, by decide, by decide, .inr ⟨by decide, by decide, by decide, by decide⟩⟩
  have hlocked : locked.evaluate 0 (some fields) = .ok true := by
    have hlocks : ∀ op program, Machine.operate ⟨0, some fields, true⟩ ⟨program, [[20]], []⟩
        (.lock op) = some ⟨program, [[20]], []⟩ := by
      intro op program
      have happly : op.apply ⟨2, 25, 30⟩ [[20]] = some [[20]] := by cases op <;> decide
      simp [Machine.operate, Machine.withStack, fields, happly]
    refine evaluate_eq_true_iff_reaches.mpr ⟨[20], [], [], ?_, by decide⟩
    refine .cons (.pushed rfl fun _ => rfl) ?_
    refine .cons (.operated (by decide) (by decide) (hlocks .checkLocktime _)) ?_
    refine .cons (.operated (by decide) (by decide) (hlocks .checkSequence _)) ?_
    exact .refl
  have hskipped : skipped.evaluate 0 none = .ok true := by
    refine evaluate_eq_true_iff_reaches.mpr ⟨[1], [], [], ?_, by decide⟩
    refine .cons (.pushed rfl fun _ => rfl) (.cons (.pushed rfl fun _ => rfl) ?_)
    refine .cons (.operated (by decide) (Opcode.operation?_opening true) rfl) ?_
    exact .refl
  exact ⟨locked, skipped, fields, later, rfl, rfl, rfl, rfl, hlater, hlocked,
    (evaluate_of_notBefore locked 0).2 fields later hlater hlocked, hskipped,
    (evaluate_of_notBefore skipped 0).1 hskipped (some fields)⟩

end Script

end BitcoinSpend
