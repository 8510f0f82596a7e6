import BitcoinSpend.Script.Instruction
import BitcoinSpend.Script.Number
import BitcoinSpend.Script.Operation

namespace BitcoinSpend

-- A program taken apart at the conditional it stands in: the items up to the
-- first OP_ELSE of that conditional, the items after it, and what follows the
-- matching OP_ENDIF. A further OP_ELSE changes nothing.
structure Branches where
  first : Script
  second : Script
  rest : Script

namespace Branches

def cons (inSecond : Bool) (item : Instruction) (branches : Branches) : Branches :=
  if inSecond then { branches with second := item :: branches.second }
  else { branches with first := item :: branches.first }

-- Walks to the matching OP_ENDIF. `depth` counts the conditionals that were
-- opened on the way, which are kept whole.
def split (depth : Nat) (inSecond : Bool) : Script → Option Branches
  | [] => none
  | item :: items =>
      if item = .op Opcode.ifTrue ∨ item = .op Opcode.ifFalse then
        (split (depth + 1) inSecond items).map (cons inSecond item)
      else if item = .op Opcode.otherwise ∧ depth = 0 then split depth true items
      else if item = .op Opcode.endIf then
        if depth = 0 then some ⟨[], [], items⟩
        else (split (depth - 1) inSecond items).map (cons inSecond item)
      else (split depth inSecond items).map (cons inSecond item)

-- The program that goes on with the chosen branch.
def resume (branches : Branches) (condition : Bool) : Script :=
  (if condition then branches.first else branches.second) ++ branches.rest

theorem weight_cons (inSecond : Bool) (item : Instruction) (branches : Branches) :
    Script.weight (branches.cons inSecond item).first +
      Script.weight (branches.cons inSecond item).second +
      Script.weight (branches.cons inSecond item).rest =
    item.weight + (Script.weight branches.first + Script.weight branches.second +
      Script.weight branches.rest) := by
  cases inSecond <;> simp [cons, Script.weight] <;> omega

-- Nothing is added by taking a program apart.
theorem weight_split {depth : Nat} {inSecond : Bool} {program : Script} {branches : Branches}
    (h : split depth inSecond program = some branches) :
    Script.weight branches.first + Script.weight branches.second + Script.weight branches.rest ≤
      Script.weight program := by
  have keep : ∀ {depth : Nat} {inSecond : Bool} {item : Instruction} {items : Script},
      (∀ branches, split depth inSecond items = some branches →
        Script.weight branches.first + Script.weight branches.second +
          Script.weight branches.rest ≤ Script.weight items) →
      ∀ branches, (split depth inSecond items).map (cons inSecond item) = some branches →
        Script.weight branches.first + Script.weight branches.second +
          Script.weight branches.rest ≤ Script.weight (item :: items) := by
    intro depth inSecond item items ih branches hb
    obtain ⟨inner, hi, rfl⟩ := Option.map_eq_some_iff.mp hb
    rw [weight_cons, Script.weight]
    exact Nat.add_le_add_left (ih inner hi) _
  induction program generalizing depth inSecond branches with
  | nil => cases h
  | cons item items ih =>
      simp only [split] at h
      split at h
      · exact keep (fun _ hb => ih hb) branches h
      · split at h
        · exact Nat.le_trans (ih h) (Nat.le_add_left _ _)
        · split at h
          · split at h
            · cases h
              simp [Script.weight]
            · exact keep (fun _ hb => ih hb) branches h
          · exact keep (fun _ hb => ih hb) branches h

theorem weight_resume (branches : Branches) (condition : Bool) :
    Script.weight (branches.resume condition) ≤
      Script.weight branches.first + Script.weight branches.second +
        Script.weight branches.rest := by
  cases condition with
  | false =>
      change Script.weight (branches.second ++ branches.rest) ≤ _
      rw [Script.weight_append]
      omega
  | true =>
      change Script.weight (branches.first ++ branches.rest) ≤ _
      rw [Script.weight_append]
      omega

end Branches

end BitcoinSpend
