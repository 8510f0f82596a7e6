import BitcoinSpend.Proofs.Script.Number
import BitcoinSpend.Script.StackOp
import Mathlib.Data.List.Rotate

namespace BitcoinSpend.StackOp

open ScriptNumber (encode decodeCount)

-- Operations one after the other, up to the first one that fails.
def applyAll (ops : List StackOp) (stack : Stack) : Option Stack :=
  ops.foldlM (fun stack op => op.apply stack) stack

@[simp]
theorem applyAll_nil (stack : Stack) : applyAll [] stack = some stack :=
  rfl

theorem applyAll_append (ops others : List StackOp) (stack : Stack) :
    applyAll (ops ++ others) stack = (applyAll ops stack).bind (applyAll others) :=
  List.foldlM_append

-- The depth of an element is pushed as a number, and popped again by the operation
-- that copies or moves the element.
def pickAt (depth : Nat) : List StackOp :=
  [.number depth, .pick]

def rollAt (depth : Nat) : List StackOp :=
  [.number depth, .roll]

theorem decodeCount_encode {count : Nat} (h : (count : Int) < wordBound) :
    decodeCount (encode count) = some count := by
  rw [wordBound] at h
  exact ScriptNumber.decodeCount_eq_some_iff.mpr (ScriptNumber.decode_encode (by omega))

theorem applyAll_pickAt {depth : Nat} (h : (depth : Int) < wordBound) (stack : Stack) :
    applyAll (pickAt depth) stack = stack[depth]?.map (· :: stack) := by
  change applyPick (encode depth :: stack) >>= pure = _
  rw [applyPick, decodeCount_encode h, bind_pure]
  exact Option.map_eq_bind.symm

theorem applyAll_rollAt {depth : Nat} (h : (depth : Int) < wordBound) (stack : Stack) :
    applyAll (rollAt depth) stack = stack[depth]?.map (· :: stack.eraseIdx depth) := by
  change applyRoll (encode depth :: stack) >>= pure = _
  rw [applyRoll, decodeCount_encode h, bind_pure]
  exact Option.map_eq_bind.symm

-- An operation that rearranges the stack, and others that do the same.
inductive Reduces : StackOp → List StackOp → Prop where
  | dup : Reduces .dup (pickAt 0)
  | copyOver : Reduces .copyOver (pickAt 1)
  | swap : Reduces .swap (rollAt 1)
  | rot : Reduces .rot (rollAt 2)
  | dup2 : Reduces .dup2 [.copyOver, .copyOver]
  | dup3 : Reduces .dup3 (pickAt 2 ++ pickAt 2 ++ pickAt 2)
  | over2 : Reduces .over2 (pickAt 3 ++ pickAt 3)
  | swap2 : Reduces .swap2 (rollAt 3 ++ rollAt 3)
  | rot2 : Reduces .rot2 (rollAt 5 ++ rollAt 5)
  | tuck : Reduces .tuck [.swap, .copyOver]
  | nip : Reduces .nip [.swap, .drop]
  | drop2 : Reduces .drop2 [.drop, .drop]

theorem Reduces.apply_eq {op : StackOp} {ops : List StackOp} (h : Reduces op ops) (stack : Stack) :
    op.apply stack = applyAll ops stack := by
  cases h with
  | dup =>
      rw [applyAll_pickAt (by decide)]
      rcases stack with _ | ⟨a, below⟩ <;> rfl
  | copyOver =>
      rw [applyAll_pickAt (by decide)]
      rcases stack with _ | ⟨a, _ | ⟨b, below⟩⟩ <;> rfl
  | swap =>
      rw [applyAll_rollAt (by decide)]
      rcases stack with _ | ⟨a, _ | ⟨b, below⟩⟩ <;> rfl
  | rot =>
      rw [applyAll_rollAt (by decide)]
      rcases stack with _ | ⟨a, _ | ⟨b, _ | ⟨c, below⟩⟩⟩ <;> rfl
  | dup2 => rcases stack with _ | ⟨a, _ | ⟨b, below⟩⟩ <;> rfl
  | dup3 =>
      have hpick := @applyAll_pickAt 2 (by decide)
      simp only [applyAll_append, hpick]
      rcases stack with _ | ⟨a, _ | ⟨b, _ | ⟨c, below⟩⟩⟩ <;> rfl
  | over2 =>
      have hpick := @applyAll_pickAt 3 (by decide)
      simp only [applyAll_append, hpick]
      rcases stack with _ | ⟨a, _ | ⟨b, _ | ⟨c, _ | ⟨d, below⟩⟩⟩⟩ <;> rfl
  | swap2 =>
      have hroll := @applyAll_rollAt 3 (by decide)
      simp only [applyAll_append, hroll]
      rcases stack with _ | ⟨a, _ | ⟨b, _ | ⟨c, _ | ⟨d, below⟩⟩⟩⟩ <;> rfl
  | rot2 =>
      have hroll := @applyAll_rollAt 5 (by decide)
      simp only [applyAll_append, hroll]
      rcases stack with _ | ⟨a, _ | ⟨b, _ | ⟨c, _ | ⟨d, _ | ⟨e, _ | ⟨f, below⟩⟩⟩⟩⟩⟩ <;> rfl
  | tuck => rcases stack with _ | ⟨a, _ | ⟨b, below⟩⟩ <;> rfl
  | nip => rcases stack with _ | ⟨a, _ | ⟨b, below⟩⟩ <;> rfl
  | drop2 => rcases stack with _ | ⟨a, _ | ⟨b, below⟩⟩ <;> rfl

-- One roll from a depth turns the elements above and at the depth by one place.
theorem applyAll_rollAt_append {depth : Nat} (h : (depth : Int) < wordBound) {top : Stack}
    (htop : top.length = depth + 1) (below : Stack) :
    applyAll (rollAt depth) (top ++ below) = some (top.rotate depth ++ below) := by
  have hlt : depth < top.length := by omega
  have hget : (top ++ below)[depth]? = some top[depth] := by
    rw [List.getElem?_append_left hlt, List.getElem?_eq_getElem hlt]
  have hlast : top.drop depth = [top[depth]] := by
    rw [List.drop_eq_getElem_cons hlt, List.drop_of_length_le htop.le]
  have herase : (top ++ below).eraseIdx depth = top.take depth ++ below := by
    rw [List.eraseIdx_append_of_lt_length hlt, List.eraseIdx_eq_take_drop_succ,
      List.drop_of_length_le htop.le, List.append_nil]
  rw [applyAll_rollAt h, hget, herase, List.rotate_eq_drop_append_take hlt.le, hlast]
  rfl

-- The number of rolls is free, which the induction needs to go through.
theorem applyAll_rolls {depth : Nat} (h : (depth : Int) < wordBound) {top : Stack}
    (htop : top.length = depth + 1) (below : Stack) (rolls : Nat) :
    applyAll (List.replicate rolls (rollAt depth)).flatten (top ++ below) =
      some (top.rotate (rolls * depth) ++ below) := by
  induction rolls generalizing top with
  | zero => simp
  | succ rolls ih =>
      have hrotated : (top.rotate depth).length = depth + 1 := by
        rw [List.length_rotate, htop]
      rw [List.replicate_succ, List.flatten_cons, applyAll_append, applyAll_rollAt_append h htop,
        Option.bind_some, ih hrotated, List.rotate_rotate, Nat.succ_mul, Nat.add_comm]

theorem applyAll_rolls_cycle {depth : Nat} (h : (depth : Int) < wordBound) (stack : Stack) :
    applyAll (List.replicate (depth + 1) (rollAt depth)).flatten stack =
      if depth < stack.length then some stack else none := by
  split_ifs with hlt
  · have htop : (stack.take (depth + 1)).length = depth + 1 := List.length_take_of_le hlt
    have hturn : (stack.take (depth + 1)).rotate ((depth + 1) * depth) =
        stack.take (depth + 1) := by
      have hcycle := List.rotate_length_mul (stack.take (depth + 1)) depth
      rwa [htop] at hcycle
    have hrolls := applyAll_rolls h htop (stack.drop (depth + 1)) (depth + 1)
    rwa [hturn, List.take_append_drop] at hrolls
  · have hnone : stack[depth]? = none := List.getElem?_eq_none (Nat.le_of_not_lt hlt)
    rw [List.replicate_succ, List.flatten_cons, applyAll_append, applyAll_rollAt h, hnone]
    rfl

-- The shuffles fail together with what they come to, and as many rolls as there are elements
-- to turn leave the stack as it was. The depth is any that a word can hold, since it is pushed
-- and popped as one.
theorem apply_eq_of_reduces :
    (∀ {op : StackOp} {ops : List StackOp}, Reduces op ops →
      ∀ stack, op.apply stack = applyAll ops stack) ∧
    ∀ depth : Nat, (depth : Int) < wordBound → ∀ stack : Stack,
      applyAll (List.replicate (depth + 1) (rollAt depth)).flatten stack =
        if depth < stack.length then some stack else none :=
  ⟨Reduces.apply_eq, fun _ => applyAll_rolls_cycle⟩

theorem apply_eq_of_reduces_rot2 :
    Reduces .rot2 (rollAt 5 ++ rollAt 5) ∧
      apply .rot2 [[1], [2], [3], [4], [5], [6]] = some [[5], [6], [1], [2], [3], [4]] ∧
      applyAll (rollAt 5 ++ rollAt 5) [[1], [2], [3], [4], [5], [6]] =
        some [[5], [6], [1], [2], [3], [4]] ∧
      ((2 : Nat) : Int) < wordBound ∧
      applyAll (rollAt 2) [[1], [2], [3], [4]] = some [[3], [1], [2], [4]] ∧
      applyAll (List.replicate 3 (rollAt 2)).flatten [[1], [2], [3], [4]] =
        some [[1], [2], [3], [4]] := by
  obtain ⟨hshuffles, hcycle⟩ := apply_eq_of_reduces
  have hrot : apply .rot2 [[1], [2], [3], [4], [5], [6]] =
      some [[5], [6], [1], [2], [3], [4]] := rfl
  refine ⟨.rot2, hrot, ?_, by decide, ?_, hcycle 2 (by decide) _⟩
  · rw [← hshuffles .rot2, hrot]
  · rw [applyAll_rollAt (by decide)]
    rfl

end BitcoinSpend.StackOp
