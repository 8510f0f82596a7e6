import BitcoinSpend.Bytes

namespace BitcoinSpend

-- An instruction is an opcode or pushes data. A push of no data and the
-- opcode zero are one instruction in two forms.
inductive Instruction where
  | op (code : UInt8)
  | push (data : Bytes)
deriving DecidableEq

abbrev Script := List Instruction

namespace Instruction

-- What an instruction pushes, if it is a push.
def pushed? : Instruction → Option Bytes
  | push data => some data
  | op code => if code = 0 then some [] else none

-- Equality that takes both forms of the empty push for one.
def same : Instruction → Instruction → Bool
  | op a, op b => a = b
  | a, b => a.pushed? = b.pushed?

-- An instruction counts for itself and every byte of its data.
def weight : Instruction → Nat
  | op _ => 1
  | push data => 1 + data.length

end Instruction

namespace Script

def same (s t : Script) : Bool :=
  s.isEqv t Instruction.same

def weight : Script → Nat
  | [] => 0
  | item :: rest => item.weight + weight rest

@[simp]
theorem weight_append (s t : Script) : weight (s ++ t) = weight s + weight t := by
  induction s with
  | nil => simp [weight]
  | cons item s ih => simp only [List.cons_append, weight, ih, Nat.add_assoc]

end Script

end BitcoinSpend
