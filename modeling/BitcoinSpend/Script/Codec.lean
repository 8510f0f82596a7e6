import BitcoinSpend.Reader
import BitcoinSpend.Script.Instruction
import BitcoinSpend.VarInt

namespace BitcoinSpend

-- No data element is longer.
def maxElementLength : Nat := 520

namespace Instruction

def readData (length : Nat) (input : Bytes) : Except Error (Instruction × Bytes) :=
  if maxElementLength < length then .error (.script (.oversizedData length))
  else
    match Bytes.take? length input with
    | none => .error (.script (.missingData length))
    | some (data, rest) => .ok (push data, rest)

-- Reads one instruction. Data is announced by its length, which is the first
-- byte itself or the one or two bytes after it.
def read : Bytes → Except Error (Instruction × Bytes)
  | [] => .error (.script .missingOpcode)
  | code :: rest =>
      if 1 ≤ code ∧ code ≤ 75 then readData code.toNat rest
      else if code = 76 then
        match Bytes.take? 1 rest with
        | none => .error (.script (.missingPushLength code))
        | some (length, rest) => readData (Bytes.toNatLE length) rest
      else if code = 77 then
        match Bytes.take? 2 rest with
        | none => .error (.script (.missingPushLength code))
        | some (length, rest) => readData (Bytes.toNatLE length) rest
      else .ok (op code, rest)

def write : Instruction → Except Error Bytes
  | op code => .ok [code]
  | push data =>
      if data.length ≤ 75 then .ok (UInt8.ofNat data.length :: data)
      else if data.length ≤ 255 then .ok (76 :: (Bytes.ofNatLE 1 data.length ++ data))
      else if data.length ≤ maxElementLength then .ok (77 :: (Bytes.ofNatLE 2 data.length ++ data))
      else .error (.unencodableData data.length)

theorem readData_weight {length : Nat} {input rest : Bytes} {item : Instruction}
    (h : readData length input = .ok (item, rest)) :
    item.weight + rest.length = 1 + input.length := by
  unfold readData at h
  split at h
  · cases h
  · split at h
    · cases h
    next data rest' ht =>
      cases h
      rw [(Bytes.take?_eq_some_iff.mp ht).1, List.length_append, weight, Nat.add_assoc]

-- An instruction weighs no more than the bytes it is read from.
theorem read_weight {input rest : Bytes} {item : Instruction} (h : read input = .ok (item, rest)) :
    item.weight + rest.length ≤ input.length := by
  cases input with
  | nil => cases h
  | cons code input =>
      simp only [read] at h
      split at h
      · exact Nat.le_of_eq ((readData_weight h).trans (Nat.add_comm 1 _))
      · split at h
        · split at h
          · cases h
          next length rest' ht =>
            have hd := readData_weight h
            have hl := (Bytes.take?_eq_some_iff.mp ht)
            rw [hl.1, List.length_cons, List.length_append]
            omega
        · split at h
          · split at h
            · cases h
            next length rest' ht =>
              have hd := readData_weight h
              have hl := (Bytes.take?_eq_some_iff.mp ht)
              rw [hl.1, List.length_cons, List.length_append]
              omega
          · cases h
            simp [weight, Nat.add_comm]

theorem weight_pos (item : Instruction) : 0 < item.weight := by
  cases item with
  | op _ => exact Nat.one_pos
  | push data => exact Nat.lt_of_lt_of_le Nat.one_pos (Nat.le_add_right 1 data.length)

end Instruction

namespace Script

-- Reads instructions until they fill the declared length. Data may run past
-- it, in which case the lengths do not match.
def readItems (declared consumed : Nat) (input : Bytes) : Except Error (Script × Bytes) :=
  if consumed < declared then
    match _h : Instruction.read input with
    | .error cause => .error cause
    | .ok (item, rest) =>
        match readItems declared (consumed + (input.length - rest.length)) rest with
        | .error cause => .error cause
        | .ok (items, rest) => .ok (item :: items, rest)
  else if consumed = declared then .ok ([], input)
  else .error (.script (.lengthMismatch declared consumed))
termination_by input.length
decreasing_by
  have := Instruction.read_weight _h
  have := item.weight_pos
  omega

-- The script that a whole byte string holds.
def ofBytes (input : Bytes) : Except Error Script := do
  let (items, _) ← readItems input.length 0 input
  return items

-- Reads a script behind its length.
def read : Reader Script := do
  let length ← Reader.orElse readVarInt (.script .missingLength)
  readItems length 0

def bytes : Script → Except Error Bytes
  | [] => .ok []
  | item :: items => do
      let first ← item.write
      let rest ← bytes items
      return first ++ rest

-- The bytes of a script behind their length.
def write (script : Script) : Except Error Bytes := do
  let body ← bytes script
  return writeVarInt body.length ++ body

@[simp]
theorem readItems_self (declared : Nat) (input : Bytes) :
    readItems declared declared input = .ok ([], input) := by
  rw [readItems, if_neg (Nat.lt_irrefl _), if_pos rfl]

theorem readItems_of_read {declared consumed : Nat} {input rest : Bytes} {item : Instruction}
    (hlt : consumed < declared) (h : Instruction.read input = .ok (item, rest)) :
    readItems declared consumed input =
      (readItems declared (consumed + (input.length - rest.length)) rest).map fun tail =>
        (item :: tail.1, tail.2) := by
  rw [readItems, if_pos hlt]
  split
  next he =>
    rw [h] at he
    cases he
  next he =>
    rw [h] at he
    cases he
    split
    next hr => rw [hr]; rfl
    next hr => rw [hr]; rfl

theorem readItems_of_read_error {declared consumed : Nat} {input : Bytes} {cause : Error}
    (hlt : consumed < declared) (h : Instruction.read input = .error cause) :
    readItems declared consumed input = .error cause := by
  rw [readItems, if_pos hlt]
  split
  next he =>
    rw [h] at he
    cases he
    rfl
  next he =>
    rw [h] at he
    cases he

-- A script weighs no more than the bytes it is read from.
theorem readItems_weight {declared consumed : Nat} {input rest : Bytes} {items : Script}
    (h : readItems declared consumed input = .ok (items, rest)) :
    weight items + rest.length ≤ input.length := by
  fun_induction readItems declared consumed input generalizing items rest with
  | case1 => cases h
  | case2 => simp_all
  | case3 =>
      rename_i item after hr tail rest' ht ih
      cases h
      have hi := Instruction.read_weight hr
      have hw := ih ht
      simp only [weight]
      omega
  | case4 => cases h; simp [weight]
  | case5 => cases h

theorem ofBytes_weight {input : Bytes} {items : Script} (h : ofBytes input = .ok items) :
    weight items ≤ input.length := by
  unfold ofBytes at h
  cases hr : readItems input.length 0 input with
  | error cause => rw [hr] at h; cases h
  | ok pair =>
      rw [hr] at h
      cases h
      exact Nat.le_trans (Nat.le_add_right _ _) (readItems_weight hr)

end Script

end BitcoinSpend
