import BitcoinSpend.Address
import BitcoinSpend.Script.Instruction
import BitcoinSpend.Script.Operation

namespace BitcoinSpend

namespace Instruction

-- Opcodes by name and data in hex.
def render : Instruction → String
  | op code => Opcode.nameOf code
  | push [] => Opcode.nameOf 0
  | push data => Hex.encode data

end Instruction

namespace Script

def render (script : Script) : String :=
  " ".intercalate (script.map Instruction.render)

-- Locks an output to the key with the given hash.
def payToKeyHash (hash : FixedBytes 20) : Script :=
  [.op Opcode.dup, .op Opcode.hash160, .push hash.bytes, .op Opcode.equalVerify, .op Opcode.checkSig]

-- Locks an output to the script with the given hash.
def payToScriptHash (hash : FixedBytes 20) : Script :=
  [.op Opcode.hash160, .push hash.bytes, .op Opcode.equal]

-- The key hash in a script of the first form.
def keyHash? : Script → Option (FixedBytes 20)
  | [.op a, .op b, .push hash, .op c, .op d] =>
      if h : a = Opcode.dup ∧ b = Opcode.hash160 ∧ c = Opcode.equalVerify ∧
          d = Opcode.checkSig ∧ hash.length = 20 then some ⟨hash, h.2.2.2.2⟩
      else none
  | _ => none

-- The script hash in a script of the second form.
def scriptHash? : Script → Option (FixedBytes 20)
  | [.op a, .push hash, .op b] =>
      if h : a = Opcode.hash160 ∧ b = Opcode.equal ∧ hash.length = 20 then some ⟨hash, h.2.2⟩
      else none
  | _ => none

theorem keyHash?_eq_some_iff {script : Script} {hash : FixedBytes 20} :
    script.keyHash? = some hash ↔ script = payToKeyHash hash := by
  constructor
  · intro h
    unfold keyHash? at h
    split at h
    · split at h
      next hc =>
        obtain ⟨rfl, rfl, rfl, rfl, _⟩ := hc
        cases h
        rfl
      · cases h
    · cases h
  · rintro rfl
    simp [keyHash?, payToKeyHash, hash.length_eq]

theorem scriptHash?_eq_some_iff {script : Script} {hash : FixedBytes 20} :
    script.scriptHash? = some hash ↔ script = payToScriptHash hash := by
  constructor
  · intro h
    unfold scriptHash? at h
    split at h
    · split at h
      next hc =>
        obtain ⟨rfl, rfl, _⟩ := hc
        cases h
        rfl
      · cases h
    · cases h
  · rintro rfl
    simp [scriptHash?, payToScriptHash, hash.length_eq]

-- The address of a script that has one of the two forms.
def address (network : Network) (script : Script) : Except Error String :=
  match script.keyHash?, script.scriptHash? with
  | some hash, _ => .ok (Address.ofKeyHash network hash)
  | none, some hash => .ok (Address.ofScriptHash network hash)
  | none, none => .error (.format (.noAddress script.render))

end Script

end BitcoinSpend
