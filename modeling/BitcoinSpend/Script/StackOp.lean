import BitcoinSpend.Hash.Combined
import BitcoinSpend.Script.Number
import BitcoinSpend.Script.Operation

namespace BitcoinSpend

-- Elements with the top one first.
abbrev Stack := List Bytes

-- Signed words of 64 bits lie below this bound, and from its negative up.
def wordBound : Int := 0x8000000000000000

-- The exact result of arithmetic or of a count, if it fits a signed word.
def pushNumber (value : Int) (below : Stack) : Option Stack :=
  if -wordBound ≤ value ∧ value < wordBound then some (ScriptNumber.encode value :: below) else none

theorem pushNumber_eq_some_iff {value : Int} {below after : Stack} :
    pushNumber value below = some after ↔
      (-wordBound ≤ value ∧ value < wordBound) ∧ after = ScriptNumber.encode value :: below := by
  unfold pushNumber
  split
  next hword => rw [Option.some.injEq, eq_comm, and_iff_right hword]
  next hword => exact iff_of_false nofun fun h => hword h.1

def boolInt (value : Bool) : Int :=
  if value then 1 else 0

def UnaryOp.result : UnaryOp → Int → Int
  | add1, a => a + 1
  | sub1, a => a - 1
  | negate, a => -a
  | abs, a => a.natAbs
  | not, a => boolInt (a = 0)
  | nonZero, a => boolInt (a ≠ 0)

def BinaryOp.result : BinaryOp → Int → Int → Int
  | add, a, b => a + b
  | sub, a, b => a - b
  | mul, a, b => a * b
  | boolAnd, a, b => boolInt (a ≠ 0 ∧ b ≠ 0)
  | boolOr, a, b => boolInt (a ≠ 0 ∨ b ≠ 0)
  | numEqual, a, b => boolInt (a = b)
  | numNotEqual, a, b => boolInt (a ≠ b)
  | lessThan, a, b => boolInt (a < b)
  | greaterThan, a, b => boolInt (b < a)
  | lessThanOrEqual, a, b => boolInt (a ≤ b)
  | greaterThanOrEqual, a, b => boolInt (b ≤ a)
  | min, a, b => if a ≤ b then a else b
  | max, a, b => if a ≤ b then b else a

def DigestOp.result : DigestOp → Bytes → Bytes
  | ripemd160, element => (BitcoinSpend.ripemd160 element).bytes
  | sha1, element => (BitcoinSpend.sha1 element).bytes
  | sha256, element => (BitcoinSpend.sha256 element).bytes
  | hash160, element => (BitcoinSpend.hash160 element).bytes
  | hash256, element => (BitcoinSpend.hash256 element).bytes

-- Removes the top element, which has to be true.
def verifyTop : Stack → Option Stack
  | element :: below => if ScriptNumber.truth element then some below else none
  | [] => none

namespace StackOp

def applyUnary (op : UnaryOp) : Stack → Option Stack
  | element :: below => do
      let a ← ScriptNumber.decode element
      pushNumber (op.result a) below
  | [] => none

def applyBinary (op : BinaryOp) : Stack → Option Stack
  | right :: left :: below => do
      let b ← ScriptNumber.decode right
      let a ← ScriptNumber.decode left
      pushNumber (op.result a b) below
  | _ => none

theorem applyUnary_eq_some_iff {op : UnaryOp} {stack after : Stack} :
    applyUnary op stack = some after ↔ ∃ element below a, stack = element :: below ∧
      ScriptNumber.decode element = some a ∧ pushNumber (op.result a) below = some after := by
  constructor
  · intro h
    match stack, h with
    | element :: below, h =>
        obtain ⟨a, ha, hpush⟩ := Option.bind_eq_some_iff.mp h
        exact ⟨element, below, a, rfl, ha, hpush⟩
  · rintro ⟨element, below, a, rfl, ha, hpush⟩
    exact Option.bind_eq_some_iff.mpr ⟨a, ha, hpush⟩

theorem applyBinary_eq_some_iff {op : BinaryOp} {stack after : Stack} :
    applyBinary op stack = some after ↔ ∃ left right below a b, stack = right :: left :: below ∧
      (ScriptNumber.decode left = some a ∧ ScriptNumber.decode right = some b) ∧
        pushNumber (op.result a b) below = some after := by
  constructor
  · intro h
    match stack, h with
    | right :: left :: below, h =>
        obtain ⟨b, hb, h⟩ := Option.bind_eq_some_iff.mp h
        obtain ⟨a, ha, hpush⟩ := Option.bind_eq_some_iff.mp h
        exact ⟨left, right, below, a, b, rfl, ⟨ha, hb⟩, hpush⟩
  · rintro ⟨left, right, below, a, b, rfl, ⟨ha, hb⟩, hpush⟩
    exact Option.bind_eq_some_iff.mpr ⟨b, hb, Option.bind_eq_some_iff.mpr ⟨a, ha, hpush⟩⟩

-- Whether the third element lies from the second up to and without the first.
def applyWithin : Stack → Option Stack
  | upper :: lower :: element :: below => do
      let max ← ScriptNumber.decode upper
      let min ← ScriptNumber.decode lower
      let x ← ScriptNumber.decode element
      return ScriptNumber.ofBool (min ≤ x ∧ x < max) :: below
  | _ => none

-- Copies the element at the depth that the top element names.
def applyPick : Stack → Option Stack
  | element :: below => do
      let depth ← ScriptNumber.decodeCount element
      let chosen ← below[depth]?
      return chosen :: below
  | [] => none

-- Moves the element at the depth that the top element names.
def applyRoll : Stack → Option Stack
  | element :: below => do
      let depth ← ScriptNumber.decodeCount element
      let chosen ← below[depth]?
      return chosen :: below.eraseIdx depth
  | [] => none

-- The stack after an operation. There is none when the operation fails.
def apply : StackOp → Stack → Option Stack
  | number value, s => some (ScriptNumber.encode value :: s)
  | nop, s => some s
  | verify, s => verifyTop s
  | fail, _ => none
  | drop2, _ :: _ :: s => some s
  | dup2, a :: b :: s => some (a :: b :: a :: b :: s)
  | dup3, a :: b :: c :: s => some (a :: b :: c :: a :: b :: c :: s)
  | over2, a :: b :: c :: d :: s => some (c :: d :: a :: b :: c :: d :: s)
  | rot2, a :: b :: c :: d :: e :: f :: s => some (e :: f :: a :: b :: c :: d :: s)
  | swap2, a :: b :: c :: d :: s => some (c :: d :: a :: b :: s)
  | ifDup, a :: s => some (if ScriptNumber.truth a then a :: a :: s else a :: s)
  | depth, s => pushNumber s.length s
  | drop, _ :: s => some s
  | dup, a :: s => some (a :: a :: s)
  | nip, a :: _ :: s => some (a :: s)
  | copyOver, a :: b :: s => some (b :: a :: b :: s)
  | pick, s => applyPick s
  | roll, s => applyRoll s
  | rot, a :: b :: c :: s => some (c :: a :: b :: s)
  | swap, a :: b :: s => some (b :: a :: s)
  | tuck, a :: b :: s => some (a :: b :: a :: s)
  | size, a :: s => pushNumber a.length (a :: s)
  | equal, a :: b :: s => some (ScriptNumber.ofBool (a = b) :: s)
  | equalVerify, a :: b :: s => if a = b then some s else none
  | unary op, s => applyUnary op s
  | binary op, s => applyBinary op s
  | numEqualVerify, s => (applyBinary .numEqual s).bind verifyTop
  | within, s => applyWithin s
  | digest op, a :: s => some (op.result a :: s)
  | _, _ => none

end StackOp

-- The main and the alternative stack after a transfer.
def TransferOp.apply : TransferOp → Stack → Stack → Option (Stack × Stack)
  | toAlt, a :: s, alt => some (s, a :: alt)
  | fromAlt, s, a :: alt => some (a :: s, alt)
  | _, _, _ => none

end BitcoinSpend
