import BitcoinSpend.Proofs.Script.Isolation
import BitcoinSpend.Proofs.Script.Number

namespace BitcoinSpend

namespace ScriptNumber

-- The encodings of zero, in any length and with either sign.
def IsZero (element : Bytes) : Prop :=
  ∃ length, element = List.replicate length 0 ∨ element = List.replicate length 0 ++ [0x80]

theorem eq_zero_or_sign {top : UInt8} (h : top % 0x80 = 0) : top = 0 ∨ top = 0x80 := by
  have hlt := top.toNat_lt
  simp only [← UInt8.toNat_inj, UInt8.toNat_mod, UInt8.reduceToNat] at h ⊢
  omega

theorem truth_concat_eq_false_iff {low : Bytes} {top : UInt8} :
    truth (low ++ [top]) = false ↔ (∀ byte ∈ low, byte = 0) ∧ top % 0x80 = 0 := by
  simp [truth]

theorem truth_eq_false_iff {element : Bytes} : truth element = false ↔ IsZero element := by
  rcases List.eq_nil_or_concat' element with rfl | ⟨low, top, rfl⟩
  · exact ⟨fun _ => ⟨0, .inl rfl⟩, fun _ => rfl⟩
  · rw [truth_concat_eq_false_iff]
    constructor
    · rintro ⟨hlow, htop⟩
      have hzeros : low = List.replicate low.length 0 := List.eq_replicate_iff.mpr ⟨rfl, hlow⟩
      rcases eq_zero_or_sign htop with rfl | rfl
      · refine ⟨low.length + 1, .inl ?_⟩
        rw [List.replicate_succ', ← hzeros]
      · exact ⟨low.length, .inr (by rw [← hzeros])⟩
    · rintro ⟨length, h | h⟩
      · have hall := (List.eq_replicate_iff.mp h).2
        have htop : top = 0 := hall top (by simp)
        exact ⟨fun byte hbyte => hall byte (List.mem_append_left _ hbyte), by rw [htop]; rfl⟩
      · obtain ⟨rfl, htop⟩ := List.append_inj' h rfl
        cases htop
        exact ⟨fun byte hbyte => List.eq_of_mem_replicate hbyte, rfl⟩

-- The number of a magnitude has its top byte, which is not zero.
theorem not_isZero_of_minimalLE {value : Int} {low : Bytes} {top : UInt8}
    (h : Bytes.minimalLE value.natAbs = low ++ [top]) : ¬ IsZero (encode value) := by
  have hpos : top ≠ 0 := by
    rintro rfl
    apply Bytes.getLast?_minimalLE_ne_zero value.natAbs
    rw [h, List.getLast?_concat]
  rw [← truth_eq_false_iff, encode_of_minimalLE h]
  by_cases hfull : 0x80 ≤ top
  · rw [if_pos hfull, truth_concat_eq_false_iff]
    rintro ⟨hlow, -⟩
    exact hpos (hlow top (by simp))
  · rw [if_neg hfull]
    by_cases hneg : value < 0
    · rw [if_pos hneg, truth_concat_eq_false_iff]
      rintro ⟨-, htop⟩
      have hlt := top.toNat_lt
      simp only [ne_eq, ← UInt8.toNat_inj, UInt8.le_iff_toNat_le, UInt8.toNat_mod, UInt8.toNat_add,
        UInt8.reduceToNat] at hfull htop hpos
      omega
    · rw [if_neg hneg, truth_concat_eq_false_iff]
      rintro ⟨-, htop⟩
      rcases eq_zero_or_sign htop with rfl | rfl
      · exact hpos rfl
      · exact hfull (by decide)

-- No number is written as one of the longer zeros.
theorem isZero_encode_iff {value : Int} : IsZero (encode value) ↔ encode value = [] := by
  constructor
  · intro hzero
    rcases List.eq_nil_or_concat' (Bytes.minimalLE value.natAbs) with hnil | ⟨low, top, hconcat⟩
    · simp [encode, hnil]
    · exact absurd hzero (not_isZero_of_minimalLE hconcat)
  · intro hnil
    rw [hnil]
    exact ⟨0, .inl rfl⟩

end ScriptNumber

namespace Opcode

def verify : UInt8 := 105

theorem operation?_verify : operation? verify = some (.stack .verify) := by decide

end Opcode

theorem Machine.run_verify (setting : Setting) (top : Bytes) (below alt : Stack) :
    run setting ⟨[.op Opcode.verify], top :: below, alt⟩ =
      if ScriptNumber.truth top then .ok (below, alt) else .error .failed := by
  rw [run_cons, step_op setting (by decide) Opcode.operation?_verify]
  simp only [operate, withStack, StackOp.apply, verifyTop]
  split_ifs
  · exact run_nil setting below alt
  · rfl

namespace Script

-- The verdict takes an element for false only when it is empty, and OP_VERIFY when
-- it is any zero. They part on the zeros that have bytes, which no number is written
-- as, and on nothing else.
theorem evaluate_eq_true_iff (script : Script) (hash : Int) (fields : Option LockFields) :
    (script.evaluate hash fields = .ok true ↔
      ∃ top below alt, script.start.run ⟨hash, fields, true⟩ = .ok (top :: below, alt) ∧
        (ScriptNumber.truth top = true ∧
            Machine.run ⟨hash, fields, true⟩ ⟨[.op Opcode.verify], top :: below, alt⟩ =
              .ok (below, alt) ∨
          (top ≠ [] ∧ ScriptNumber.IsZero top) ∧
            Machine.run ⟨hash, fields, true⟩ ⟨[.op Opcode.verify], top :: below, alt⟩ =
              .error .failed)) ∧
      ∀ value, ScriptNumber.IsZero (ScriptNumber.encode value) ↔
        ScriptNumber.encode value = [] := by
  refine ⟨?_, fun value => ScriptNumber.isZero_encode_iff⟩
  simp only [evaluate, verdict_eq_true_iff, Machine.run_verify]
  constructor
  · rintro ⟨top, below, alt, hrun, hne⟩
    refine ⟨top, below, alt, hrun, ?_⟩
    cases htruth : ScriptNumber.truth top with
    | true => exact .inl ⟨rfl, rfl⟩
    | false => exact .inr ⟨⟨hne, ScriptNumber.truth_eq_false_iff.mp htruth⟩, rfl⟩
  · rintro ⟨top, below, alt, hrun, ⟨htruth, -⟩ | ⟨⟨hne, -⟩, -⟩⟩
    · refine ⟨top, below, alt, hrun, ?_⟩
      rintro rfl
      cases htruth
    · exact ⟨top, below, alt, hrun, hne⟩

-- A zero that has nothing but its sign.
theorem not_forall_truth_of_evaluate :
    ¬ ∀ (script : Script) (hash : Int) (fields : Option LockFields) (top : Bytes)
        (below alt : Stack),
      script.evaluate hash fields = .ok true →
        script.start.run ⟨hash, fields, true⟩ = .ok (top :: below, alt) →
          ScriptNumber.truth top = true := by
  intro h
  have hrun : (start [.push [0x80]]).run ⟨0, none, true⟩ = .ok ([[0x80]], []) :=
    (Machine.run_of_step rfl).trans (Machine.run_nil _ _ _)
  have hevaluate : evaluate [.push [0x80]] 0 none = .ok true := by
    rw [evaluate, hrun]
    rfl
  exact absurd (h _ _ _ _ _ _ hevaluate hrun) (by decide)

end Script

end BitcoinSpend
