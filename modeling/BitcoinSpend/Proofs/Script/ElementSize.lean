import BitcoinSpend.Proofs.Script.Multisig
import BitcoinSpend.Proofs.Script.Number
import BitcoinSpend.Proofs.Script.Reach
import BitcoinSpend.Proofs.Script.Unreadable
import BitcoinSpend.Proofs.Wire.RoundTrip

namespace BitcoinSpend

namespace Stack

-- What the function leaves was there before, or is no longer than a digest.
def MakesShort (f : Stack → Option Stack) : Prop :=
  ∀ ⦃stack after : Stack⦄, f stack = some after →
    ∀ element ∈ after, element ∈ stack ∨ element.length ≤ 32

theorem MakesShort.bind {f g : Stack → Option Stack} (hf : MakesShort f) (hg : MakesShort g) :
    MakesShort fun stack => (f stack).bind g := by
  intro stack after h element helement
  obtain ⟨middle, hmiddle, hafter⟩ := Option.bind_eq_some_iff.mp h
  rcases hg hafter element helement with hmem | hshort
  · exact hf hmiddle element hmem
  · exact .inr hshort

theorem short_cons {made : Bytes} {below stack : Stack} (hmade : made.length ≤ 32)
    (hbelow : below ⊆ stack) : ∀ element ∈ made :: below, element ∈ stack ∨ element.length ≤ 32 := by
  intro element helement
  rcases List.mem_cons.mp helement with rfl | hmem
  · exact .inr hmade
  · exact .inl (hbelow hmem)

theorem short_of_subset {after stack : Stack} (h : after ⊆ stack) :
    ∀ element ∈ after, element ∈ stack ∨ element.length ≤ 32 :=
  fun _ helement => .inl (h helement)

end Stack

open Stack (MakesShort short_cons short_of_subset)

theorem ScriptNumber.length_ofBool_le (value : Bool) : (ofBool value).length ≤ 32 := by
  have hencode : (ofBool value).length ≤ 9 := length_encode_le (by cases value <;> decide)
  omega

theorem DigestOp.length_result_le (op : DigestOp) (element : Bytes) :
    (op.result element).length ≤ 32 := by
  cases op <;> simp [result, FixedBytes.length_eq]

theorem makesShort_verifyTop : MakesShort verifyTop := by
  intro stack after h
  cases stack with
  | nil => cases h
  | cons element below =>
      simp only [verifyTop] at h
      split_ifs at h
      cases h
      exact short_of_subset (List.subset_cons_self element _)

theorem pushNumber_short {value : Int} {below stack after : Stack}
    (h : pushNumber value below = some after) (hbelow : below ⊆ stack) :
    ∀ element ∈ after, element ∈ stack ∨ element.length ≤ 32 := by
  obtain ⟨hword, rfl⟩ := pushNumber_eq_some_iff.mp h
  rw [wordBound] at hword
  have hencode : (ScriptNumber.encode value).length ≤ 9 := ScriptNumber.length_encode_le (by omega)
  exact short_cons (by omega) hbelow

namespace StackOp

theorem makesShort_applyUnary (op : UnaryOp) : MakesShort (applyUnary op) := by
  intro stack after h
  obtain ⟨element, below, a, rfl, -, hpush⟩ := applyUnary_eq_some_iff.mp h
  exact pushNumber_short hpush (List.subset_cons_self element below)

theorem makesShort_applyBinary (op : BinaryOp) : MakesShort (applyBinary op) := by
  intro stack after h
  obtain ⟨left, right, below, a, b, rfl, -, hpush⟩ := applyBinary_eq_some_iff.mp h
  exact pushNumber_short hpush (by grind)

theorem makesShort_applyWithin : MakesShort applyWithin := by
  intro stack after h
  match stack, h with
  | upper :: lower :: element :: below, h =>
      simp only [applyWithin, Option.bind_eq_bind, Option.bind_eq_some_iff] at h
      obtain ⟨max, -, min, -, x, -, hafter⟩ := h
      cases hafter
      exact short_cons (ScriptNumber.length_ofBool_le _) (by grind)

theorem makesShort_applyPick : MakesShort applyPick := by
  intro stack after h
  cases stack with
  | nil => cases h
  | cons element below =>
      simp only [applyPick, Option.bind_eq_bind, Option.bind_eq_some_iff] at h
      obtain ⟨depth, -, chosen, hchosen, hafter⟩ := h
      cases hafter
      have hmem : chosen ∈ below := List.mem_of_getElem? hchosen
      exact short_of_subset (List.cons_subset.mpr
        ⟨List.mem_cons_of_mem element hmem, List.subset_cons_self element below⟩)

theorem makesShort_applyRoll : MakesShort applyRoll := by
  intro stack after h
  cases stack with
  | nil => cases h
  | cons element below =>
      simp only [applyRoll, Option.bind_eq_bind, Option.bind_eq_some_iff] at h
      obtain ⟨depth, -, chosen, hchosen, hafter⟩ := h
      cases hafter
      have hmem : chosen ∈ below := List.mem_of_getElem? hchosen
      have hrest : below.eraseIdx depth ⊆ element :: below :=
        List.subset_cons_of_subset element List.eraseIdx_subset
      exact short_of_subset (List.cons_subset.mpr ⟨List.mem_cons_of_mem element hmem, hrest⟩)

-- The numbers that opcodes stand for are short, but not those that an operation may
-- stand for.
theorem makesShort_apply {op : StackOp} (hop : ∀ value, op = number value → value.natAbs ≤ 16) :
    MakesShort op.apply := by
  intro stack after h
  cases op with
  | number value =>
      cases h
      have hencode : (ScriptNumber.encode value).length ≤ 9 :=
        ScriptNumber.length_encode_le ((hop value rfl).trans_lt (by decide))
      exact short_cons (by omega) (List.Subset.refl stack)
  | verify => exact makesShort_verifyTop h
  | unary op => exact makesShort_applyUnary op h
  | binary op => exact makesShort_applyBinary op h
  | numEqualVerify => exact (makesShort_applyBinary .numEqual).bind makesShort_verifyTop h
  | within => exact makesShort_applyWithin h
  | pick => exact makesShort_applyPick h
  | roll => exact makesShort_applyRoll h
  | depth => exact pushNumber_short h (List.Subset.refl stack)
  | ifDup =>
      match stack, h with
      | a :: below, h =>
          simp only [apply, Option.some.injEq] at h
          subst h
          split_ifs <;> exact short_of_subset (by grind)
  | size =>
      cases stack with
      | nil => cases h
      | cons a below =>
          simp only [apply] at h
          exact pushNumber_short h (List.Subset.refl _)
  | equal =>
      match stack, h with
      | a :: b :: below, h =>
          cases h
          exact short_cons (ScriptNumber.length_ofBool_le _) (by grind)
  | equalVerify =>
      match stack, h with
      | a :: b :: below, h =>
          simp only [apply] at h
          split_ifs at h
          cases h
          exact short_of_subset (by grind)
  | digest op =>
      match stack, h with
      | a :: below, h =>
          cases h
          exact short_cons (op.length_result_le a) (by simp)
  -- The others drop, copy or move what is there.
  | nop | fail | drop2 | dup2 | dup3 | over2 | rot2 | swap2 | drop | dup | nip | copyOver | rot
  | swap | tuck =>
      rcases stack with _ | ⟨a, _ | ⟨b, _ | ⟨c, _ | ⟨d, _ | ⟨e, _ | ⟨f, below⟩⟩⟩⟩⟩⟩ <;>
        cases h <;> exact short_of_subset (by grind)

end StackOp

namespace SignatureOp

variable {z : Int}

theorem makesShort_applySingle : MakesShort (applySingle z) := by
  intro stack after h
  match stack, h with
  | key :: signature :: below, h =>
      cases h
      exact short_cons (ScriptNumber.length_ofBool_le _) (by grind)

theorem makesShort_applyMultiple : MakesShort (applyMultiple z) := by
  intro stack after h
  obtain ⟨below, dummy, signatures, m, keys, n, rfl, -, -, rfl⟩ := applyMultiple_eq_some_iff.mp h
  exact short_cons (ScriptNumber.length_ofBool_le _) (by grind)

theorem makesShort_apply (op : SignatureOp) : MakesShort (op.apply z) := by
  cases op with
  | checkSig => exact makesShort_applySingle
  | checkSigVerify => exact makesShort_applySingle.bind makesShort_verifyTop
  | checkMultisig => exact makesShort_applyMultiple
  | checkMultisigVerify => exact makesShort_applyMultiple.bind makesShort_verifyTop

end SignatureOp

theorem LockOp.makesShort_apply (fields : LockFields) (op : LockOp) :
    MakesShort (op.apply fields) := by
  intro stack after h
  obtain ⟨_, _, _, -, -, -, rfl⟩ := apply_eq_some_iff.mp h
  exact short_of_subset (List.Subset.refl after)

theorem TransferOp.subset_of_apply {op : TransferOp} {stack alt : Stack} {after : Stack × Stack}
    (h : op.apply stack alt = some after) :
    after.1 ⊆ stack ++ alt ∧ after.2 ⊆ stack ++ alt := by
  cases op with
  | toAlt =>
      match stack, h with
      | a :: below, h =>
          cases h
          exact ⟨by grind, by grind⟩
  | fromAlt =>
      match alt, h with
      | a :: below, h =>
          cases h
          exact ⟨by grind, by grind⟩

-- An opcode that stands for a number stands for one from -1 to 16.
theorem Opcode.natAbs_le_of_operation? {code : UInt8} {value : Int}
    (h : operation? code = some (.stack (.number value))) : value.natAbs ≤ 16 := by
  have hall : ∀ opcode ∈ all, opcode.operation.all fun operation =>
      match operation with
      | .stack (.number value) => value.natAbs ≤ 16
      | _ => true := by
    decide
  obtain ⟨opcode, hopcode, -, hoperation⟩ := exists_mem_of_operation? h
  have hnumber := hall opcode hopcode
  rw [hoperation] at hnumber
  exact of_decide_eq_true hnumber

namespace Machine

variable {setting : Setting} {item : Instruction} {m next : Machine}

-- No element is longer than a script may carry, and no push that is still to come.
structure Bounded (m : Machine) : Prop where
  stack : ∀ element ∈ m.stack, element.length ≤ maxElementLength
  alt : ∀ element ∈ m.alt, element.length ≤ maxElementLength
  program : m.program.Encodable

theorem Bounded.withStack {f : Stack → Option Stack} (h : m.Bounded) (hf : MakesShort f)
    (hwith : m.withStack (f m.stack) = some next) : next.Bounded := by
  obtain ⟨after, happly, rfl⟩ := Option.map_eq_some_iff.mp hwith
  refine ⟨fun element helement => ?_, h.alt, h.program⟩
  rcases hf happly element helement with hmem | hshort
  · exact h.stack element hmem
  · exact hshort.trans (by decide)

theorem Bounded.branch {wanted : Bool} (h : m.Bounded)
    (hbranch : m.operate setting (.branch wanted) = some next) : next.Bounded := by
  have hprogram := h.program.mono (operate_subset hbranch)
  rcases m with ⟨program, _ | ⟨element, below⟩, alt⟩
  · cases hbranch
  · obtain ⟨branches, -, hnext⟩ := Option.bind_eq_some_iff.mp hbranch
    cases hnext
    exact ⟨fun element helement => h.stack element (List.mem_cons_of_mem _ helement), h.alt, hprogram⟩

theorem Bounded.operate {code : UInt8} {operation : Operation} (h : m.Bounded)
    (hoperation : Opcode.operation? code = some operation)
    (hoperate : m.operate setting operation = some next) : next.Bounded := by
  cases operation with
  | stack op =>
      have hop : ∀ value, op = .number value → value.natAbs ≤ 16 := by
        rintro value rfl
        exact Opcode.natAbs_le_of_operation? hoperation
      exact h.withStack (StackOp.makesShort_apply hop) hoperate
  | branch wanted => exact h.branch hoperate
  | transfer op =>
      obtain ⟨after, happly, rfl⟩ := Option.map_eq_some_iff.mp hoperate
      obtain ⟨hstack, halt⟩ := TransferOp.subset_of_apply happly
      have hboth : ∀ element ∈ m.stack ++ m.alt, element.length ≤ maxElementLength :=
        List.forall_mem_append.mpr ⟨h.stack, h.alt⟩
      exact ⟨fun element helement => hboth element (hstack helement),
        fun element helement => hboth element (halt helement), h.program⟩
  | signature op => exact h.withStack (SignatureOp.makesShort_apply op) hoperate
  | lock op =>
      obtain ⟨fields, -, hwith⟩ := Option.bind_eq_some_iff.mp hoperate
      exact h.withStack (LockOp.makesShort_apply fields op) hwith

-- The size is checked where a script is read and nowhere else.
theorem Bounded.proceeds (h : m.Bounded) (hitem : Script.Encodable [item])
    (hproceeds : Proceeds setting item m next) : next.Bounded := by
  cases hproceeds with
  | @pushed _ data _ hpushed hcheck =>
      have hdata : data.length ≤ maxElementLength := by
        cases item with
        | push other =>
            cases hpushed
            exact hitem data List.mem_cons_self
        | op code =>
            have hnil : data = [] := by simp_all [Instruction.pushed?]
            rw [hnil]
            exact Nat.zero_le _
      exact ⟨List.forall_mem_cons.mpr ⟨hdata, h.stack⟩, h.alt, h.program⟩
  | committed hpushed hredeems hcheck hread =>
      exact ⟨h.stack, h.alt, Script.encodable_of_ofBytes hread⟩
  | operated hcode hoperation hoperate => exact h.operate hoperation hoperate

theorem Bounded.continues (h : m.Bounded) (hcontinues : Continues setting m next) :
    next.Bounded := by
  rcases m with ⟨_ | ⟨item, rest⟩, stack, alt⟩
  · exact absurd hcontinues not_continues_nil
  · have hitem : Script.Encodable [item] := h.program.mono (by simp)
    have hrest : Bounded ⟨rest, stack, alt⟩ := ⟨h.stack, h.alt, h.program.mono (by simp)⟩
    exact hrest.proceeds hitem (continues_cons_iff.mp hcontinues)

theorem Bounded.reaches (h : m.Bounded) (hreaches : Reaches setting m next) : next.Bounded := by
  induction hreaches with
  | refl => exact h
  | tail _ hcontinues ih => exact ih.continues hcontinues

end Machine

namespace Script

theorem bounded_start {script : Script} (h : script.Encodable) : script.start.Bounded where
  stack := List.forall_mem_nil _
  alt := List.forall_mem_nil _
  program := h

-- A run keeps to the size that its script keeps to, although no operation checks it.
theorem bounded_of_reaches {script : Script} (h : script.Encodable) (hash : Int)
    (fields : Option LockFields) {m : Machine}
    (hreaches : Machine.Reaches ⟨hash, fields, true⟩ script.start m) : m.Bounded :=
  (bounded_start h).reaches hreaches

-- The longest element there may be on one stack, and a committed script in the program.
theorem bounded_of_reaches_committed :
    ∃ (script : Script) (m : Machine),
      script = .push (List.replicate 520 0) :: .op 107 :: .push [Opcode.dup] ::
        payToScriptHash (hash160 [Opcode.dup]) ∧
      script.Encodable ∧ Machine.Reaches ⟨0, none, true⟩ script.start m ∧
      m.alt = [List.replicate 520 0] ∧ m.program = [.op Opcode.dup] ∧ m.Bounded := by
  let script : Script := .push (List.replicate 520 0) :: .op 107 :: .push [Opcode.dup] ::
    payToScriptHash (hash160 [Opcode.dup])
  have hencodable : script.Encodable := by
    intro data hdata
    simp only [script, payToScriptHash, List.mem_cons, Instruction.push.injEq, reduceCtorEq,
      List.not_mem_nil, or_false, false_or] at hdata
    rcases hdata with rfl | rfl | rfl
    · rw [List.length_replicate, maxElementLength]
    · decide
    · rw [FixedBytes.length_eq]
      decide
  have hdup : ItemForm.Sequence [.op Opcode.dup] ([Opcode.dup] ++ []) :=
    .cons (.op (.inr (by decide))) .nil
  have hread : ofBytes [Opcode.dup] = .ok [.op Opcode.dup] := ofBytes_eq_ok_iff.mpr hdup
  have hcheck : scriptHash? (payToScriptHash (hash160 [Opcode.dup])) =
      some (hash160 [Opcode.dup]) := scriptHash?_eq_some_iff.mpr rfl
  have hreaches : Machine.Reaches ⟨0, none, true⟩ script.start
      ⟨[.op Opcode.dup], [], [List.replicate 520 0]⟩ := by
    refine .cons (.pushed rfl fun _ => rfl) ?_
    refine .cons (.operated (by decide) (by decide : _ = some (.transfer .toAlt)) rfl) ?_
    exact .cons (.committed rfl rfl hcheck hread) .refl
  exact ⟨script, _, rfl, hencodable, hreaches, rfl, rfl,
    bounded_of_reaches hencodable 0 none hreaches⟩

end Script

end BitcoinSpend
