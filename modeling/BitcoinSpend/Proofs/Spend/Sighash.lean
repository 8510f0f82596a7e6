import BitcoinSpend.Proofs.Wire.Encodable
import BitcoinSpend.Transaction.Spend

namespace BitcoinSpend

namespace Input

def unsigned (input : Input) : Input :=
  { input with unlocking := [] }

-- The script that a signature for the input covers.
def signedScript (input : Input) (redeem : Option Script) (resolver : Resolver) :
    Except Error Script :=
  match redeem with
  | some script => .ok script
  | none => (resolver input.previous).map Output.locking

theorem signedScript_eq_ok_iff {input : Input} {redeem : Option Script} {resolver : Resolver}
    {signed : Script} :
    input.signedScript redeem resolver = .ok signed ↔
      redeem = some signed ∨
        redeem = none ∧ ∃ spent, resolver input.previous = .ok spent ∧ spent.locking = signed := by
  cases redeem with
  | some script => simp [signedScript]
  | none =>
      cases hspent : resolver input.previous with
      | error cause => simp [signedScript, hspent, Except.map]
      | ok spent => simp [signedScript, hspent, Except.map]

end Input

namespace Transaction

variable {tx : Transaction} {index : Nat} {input : Input} {resolver : Resolver}

-- All of a transaction but its unlocking scripts.
def unsigned (tx : Transaction) : Transaction :=
  { tx with inputs := tx.inputs.map Input.unsigned }

-- What is signed has none of the unlocking scripts in it.
theorem signingForm_unsigned (tx : Transaction) (index : Nat) (signed : Script) :
    tx.unsigned.signingForm index signed = tx.signingForm index signed := by
  have hinputs : (tx.inputs.map Input.unsigned).mapIdx
        (fun i input => { input with unlocking := if i = index then signed else [] }) =
      tx.inputs.mapIdx
        fun i input => { input with unlocking := if i = index then signed else [] } := by
    apply List.ext_getElem?
    intro j
    rw [List.getElem?_mapIdx, List.getElem?_mapIdx, List.getElem?_map]
    cases tx.inputs[j]? <;> rfl
  rw [signingForm, signingForm, unsigned, hinputs]

theorem sighash_unsigned (tx : Transaction) (index : Nat) (type : UInt32)
    (redeem : Option Script) (resolver : Resolver) :
    tx.unsigned.sighash index type redeem resolver = tx.sighash index type redeem resolver := by
  have hpreimage : tx.unsigned.sighashPreimage index type redeem resolver =
      tx.sighashPreimage index type redeem resolver := by
    rw [sighashPreimage, sighashPreimage]
    simp only [signingForm_unsigned]
    rw [unsigned, List.getElem?_map]
    cases tx.inputs[index]? <;> rfl
  rw [sighash, sighash, hpreimage]

theorem unsigned_setUnlocking (tx : Transaction) (index : Nat) (unlocking : Script) :
    (tx.setUnlocking index unlocking).unsigned = tx.unsigned := by
  have hinputs : (tx.setUnlocking index unlocking).inputs.map Input.unsigned =
      tx.inputs.map Input.unsigned := by
    apply List.ext_getElem?
    intro j
    rw [setUnlocking, List.getElem?_map, List.getElem?_map, List.getElem?_modify]
    cases tx.inputs[j]? with
    | none => rfl
    | some input => by_cases hj : index = j <;> simp [hj, Input.unsigned]
  rw [unsigned, unsigned, hinputs]
  rfl

theorem getElem?_setUnlocking (hinput : tx.inputs[index]? = some input) (unlocking : Script) :
    (tx.setUnlocking index unlocking).inputs[index]? =
      some { input with unlocking := unlocking } := by
  rw [setUnlocking, List.getElem?_modify_eq, hinput]
  rfl

theorem sighash_setUnlocking (tx : Transaction) (index i : Nat) (unlocking : Script)
    (type : UInt32) (redeem : Option Script) (resolver : Resolver) :
    (tx.setUnlocking index unlocking).sighash i type redeem resolver =
      tx.sighash i type redeem resolver := by
  rw [← sighash_unsigned, unsigned_setUnlocking, sighash_unsigned]

theorem sighashPreimage_eq_ok_iff {type : UInt32} {redeem : Option Script} {preimage : Bytes} :
    tx.sighashPreimage index type redeem resolver = .ok preimage ↔
      type = sighashAll ∧ ∃ input signed body, tx.inputs[index]? = some input ∧
        input.signedScript redeem resolver = .ok signed ∧
        (tx.signingForm index signed).bytes = .ok body ∧
        preimage = body ++ writeInteger 4 type.toNat := by
  rw [sighashPreimage]
  by_cases htype : type = sighashAll
  · rw [if_neg fun hne => hne htype]
    cases tx.inputs[index]? with
    | none => simp
    | some input =>
        cases redeem <;>
          simp [Input.signedScript, bind_eq_ok_iff, htype, pure, Except.pure, @eq_comm _ preimage]
  · simp [htype]

-- With outputs that can be written, only the signed script can stand in the way of a hash.
theorem sighash_error {redeem : Option Script} {cause : Error}
    (hinput : tx.inputs[index]? = some input)
    (houtputs : ∀ output ∈ tx.outputs, output.locking.Encodable)
    (h : tx.sighash index sighashAll redeem resolver = .error cause) :
    input.signedScript redeem resolver = .error cause ∨
      ∃ signed, input.signedScript redeem resolver = .ok signed ∧ signed.write = .error cause := by
  have hpreimage : (input.signedScript redeem resolver >>= fun signed =>
      (tx.signingForm index signed).bytes >>= fun body =>
        pure (body ++ writeInteger 4 sighashAll.toNat)) = .error cause := by
    rw [← bind_pure_eq_error_iff.mp h, sighashPreimage, if_neg (by simp), hinput]
    cases redeem <;> rfl
  rcases bind_eq_error_iff.mp hpreimage with hsigned | ⟨signed, hsigned, hwrite⟩
  · exact .inl hsigned
  · refine .inr ⟨signed, hsigned, ?_⟩
    rcases bytes_error (bind_pure_eq_error_iff.mp hwrite) with
      ⟨blank, hblank, herror⟩ | ⟨output, houtput, herror⟩
    · obtain ⟨i, hi, rfl⟩ := List.mem_mapIdx.mp hblank
      change Script.write (if i = index then signed else []) = .error cause at herror
      by_cases hindex : i = index
      · rwa [if_pos hindex] at herror
      · rw [if_neg hindex] at herror
        cases herror
    · exact absurd herror ((houtputs output houtput).write_ne_error cause)

theorem exists_sighash {redeem : Option Script} {signed : Script}
    (hinput : tx.inputs[index]? = some input)
    (hsigned : redeem = some signed ∨
      redeem = none ∧ ∃ spent, resolver input.previous = .ok spent ∧ spent.locking = signed)
    (hencodable : signed.Encodable)
    (houtputs : ∀ output ∈ tx.outputs, output.locking.Encodable) :
    ∃ z, tx.sighash index sighashAll redeem resolver = .ok z := by
  have hscript := Input.signedScript_eq_ok_iff.mpr hsigned
  cases hz : tx.sighash index sighashAll redeem resolver with
  | ok z => exact ⟨z, rfl⟩
  | error cause =>
      rcases sighash_error hinput houtputs hz with herror | ⟨other, hother, herror⟩
      · rw [hscript] at herror
        cases herror
      · rw [hscript] at hother
        cases hother
        exact absurd herror (hencodable.write_ne_error cause)

end Transaction

end BitcoinSpend
