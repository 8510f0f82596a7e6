import BitcoinSpend.Script.StackOp

namespace BitcoinSpend

-- The fields of a spend that locks compare against. The sequence is that of
-- the input being spent.
structure LockFields where
  version : UInt32
  locktime : UInt32
  sequence : UInt32
deriving DecidableEq

namespace LockOp

-- Locktimes below are block heights, the others are times.
def timeThreshold : Nat := 500000000

-- A final input has no locktime, and heights do not compare to times.
def locktimeReached (fields : LockFields) (required : Nat) : Bool :=
  fields.sequence ≠ 0xffffffff ∧
    (required < timeThreshold ↔ fields.locktime.toNat < timeThreshold) ∧
    required ≤ fields.locktime.toNat

-- Bit 31 turns a relative lock off, bit 22 tells times from heights, and the
-- low sixteen bits are the distance.
def sequenceReached (fields : LockFields) (required : Nat) : Bool :=
  required.testBit 31 ∨
    (2 ≤ fields.version ∧ ¬ fields.sequence.toNat.testBit 31 ∧
      required.testBit 22 = fields.sequence.toNat.testBit 22 ∧
      required % 65536 ≤ fields.sequence.toNat % 65536)

def reached (fields : LockFields) : LockOp → Nat → Bool
  | checkLocktime, required => locktimeReached fields required
  | checkSequence, required => sequenceReached fields required

-- The required lock stays on the stack.
def apply (fields : LockFields) (op : LockOp) : Stack → Option Stack
  | [] => none
  | element :: below => do
      let required ← ScriptNumber.decodeCount element
      if reached fields op required then return element :: below else none

-- All that a lock reads is the top element, which it leaves where it is.
theorem apply_eq_some_iff {fields : LockFields} {op : LockOp} {stack after : Stack} :
    op.apply fields stack = some after ↔
      ∃ element below required, stack = element :: below ∧
        ScriptNumber.decodeCount element = some required ∧ reached fields op required = true ∧
        after = stack := by
  cases stack with
  | nil => simp [apply]
  | cons element below =>
      simp only [apply, Option.bind_eq_bind, Option.bind_eq_some_iff, Option.ite_none_right_eq_some]
      constructor
      · rintro ⟨required, hrequired, hreached, hafter⟩
        cases hafter
        exact ⟨element, below, required, rfl, hrequired, hreached, rfl⟩
      · rintro ⟨_, _, required, hstack, hrequired, hreached, rfl⟩
        cases hstack
        exact ⟨required, hrequired, hreached, rfl⟩

end LockOp

end BitcoinSpend
