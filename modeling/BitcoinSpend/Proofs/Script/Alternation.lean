import BitcoinSpend.Proofs.Script.Structured

namespace BitcoinSpend

namespace Instruction

theorem ordinary_iff {item : Instruction} :
    item.Ordinary ↔
      (∀ wanted, item ≠ opening wanted) ∧ item ≠ op Opcode.otherwise ∧ item ≠ op Opcode.endIf := by
  rw [Bool.forall_bool]
  simp only [Ordinary, opening, List.mem_cons, List.not_mem_nil, or_false, not_or]
  tauto

theorem opens_eq_true_iff {item : Instruction} :
    item.opens = true ↔ ∃ wanted, item = opening wanted := by
  rw [Bool.exists_bool, or_comm]
  exact decide_eq_true_iff

theorem Ordinary.opens_eq_false {item : Instruction} (h : item.Ordinary) : item.opens = false := by
  rw [← Bool.not_eq_true, opens_eq_true_iff, not_exists]
  exact (ordinary_iff.mp h).1

theorem Ordinary.closes_eq_false {item : Instruction} (h : item.Ordinary) : item.closes = false :=
  decide_eq_false (ordinary_iff.mp h).2.2

theorem opening_or_ordinary (item : Instruction) :
    (∃ wanted, item = opening wanted) ∨ item = op Opcode.otherwise ∨ item = op Opcode.endIf ∨
      item.Ordinary := by
  rw [ordinary_iff, ← not_exists]
  tauto

end Instruction

namespace Script

-- Every conditional of the script is closed in it. Whether an OP_ELSE may stand
-- outside of them is said by `divided`.
inductive Closed : (divided : Bool) → Script → Prop where
  | nil {divided : Bool} : Closed divided []
  | ordinary {divided : Bool} {item : Instruction} {rest : Script} (hitem : item.Ordinary)
      (hrest : Closed divided rest) : Closed divided (item :: rest)
  | otherwise {rest : Script} (hrest : Closed true rest) :
      Closed true (.op Opcode.otherwise :: rest)
  | conditional {divided : Bool} (wanted : Bool) {body rest : Script} (hbody : Closed true body)
      (hrest : Closed divided rest) :
      Closed divided (.opening wanted :: (body ++ .op Opcode.endIf :: rest))

open Branches

theorem Closed.passesFrom {divided : Bool} {script : Script} (h : Closed divided script) :
    PassesFrom divided.toNat script := by
  induction h with
  | nil => exact passesFrom_nil.mono (Nat.zero_le _)
  | ordinary hitem _ ih => exact ((passesFrom_ordinary hitem).mono (Nat.zero_le _)).append ih
  | otherwise _ ih => exact passesFrom_otherwise.append ih
  | conditional wanted _ _ ihBody ihRest =>
      have hwhole := ((ihBody.conditional wanted).mono (Nat.zero_le _)).append ihRest
      simpa using hwhole

-- The segments that follow an OP_ELSE each.
def dividedBy (first : Script) (others : List Script) : Script :=
  first ++ others.flatMap (.op Opcode.otherwise :: ·)

theorem Closed.exists_segments {divided : Bool} {script : Script} (h : Closed divided script) :
    ∃ first others, (∀ segment ∈ first :: others, Closed false segment) ∧
      script = dividedBy first others := by
  induction h with
  | nil => exact ⟨[], [], by simp [Closed.nil], rfl⟩
  | @ordinary _ item rest hitem _ ih =>
      obtain ⟨first, others, hsegments, rfl⟩ := ih
      rw [List.forall_mem_cons] at hsegments
      exact ⟨item :: first, others,
        List.forall_mem_cons.mpr ⟨hsegments.1.ordinary hitem, hsegments.2⟩, rfl⟩
  | otherwise _ ih =>
      obtain ⟨first, others, hsegments, rfl⟩ := ih
      exact ⟨[], first :: others, List.forall_mem_cons.mpr ⟨.nil, hsegments⟩, rfl⟩
  | @conditional _ wanted body rest hbody _ _ ih =>
      obtain ⟨first, others, hsegments, rfl⟩ := ih
      rw [List.forall_mem_cons] at hsegments
      have hfirst := Closed.conditional wanted hbody hsegments.1
      refine ⟨_, others, List.forall_mem_cons.mpr ⟨hfirst, hsegments.2⟩, ?_⟩
      simp [dividedBy]

-- Putting an item in front changes by one what the prefixes open or close.
theorem ClosesAtMost.cons {depth depth' : Nat} {item : Instruction} {items : Script}
    (h : ClosesAtMost depth' items)
    (hd : depth' + (if item.closes then 1 else 0) ≤ depth + (if item.opens then 1 else 0)) :
    ClosesAtMost depth (item :: items) := by
  intro taken ht
  rcases taken with _ | ⟨head, taken⟩
  · exact Nat.zero_le _
  · obtain ⟨rfl, hprefix⟩ := List.cons_prefix_cons.mp ((List.mem_inits _ _).mp ht)
    have hi := h taken ((List.mem_inits _ _).mpr hprefix)
    simp only [List.countP_cons]
    omega

theorem closesAtMost_nil (depth : Nat) : ClosesAtMost depth [] := by
  intro taken ht
  rw [List.prefix_nil.mp ((List.mem_inits _ _).mp ht)]
  exact Nat.zero_le _

-- A program that closes more than `depth` conditionals which it did not open closes the
-- innermost of them after a part in which all others are closed.
theorem exists_closed_of_not_closesAtMost {depth : Nat} (program : Script)
    (h : ¬ ClosesAtMost depth program) :
    ∃ body rest, Closed true body ∧ program = body ++ .op Opcode.endIf :: rest ∧
      ∀ outer, depth = outer + 1 → ¬ ClosesAtMost outer rest := by
  match program with
  | [] => exact absurd (closesAtMost_nil depth) h
  | item :: items =>
      rcases item.opening_or_ordinary with ⟨wanted, rfl⟩ | rfl | rfl | hitem
      · have hinner : ¬ ClosesAtMost (depth + 1) items := fun hitems =>
          h (hitems.cons (by cases wanted <;> exact Nat.le_refl _))
        obtain ⟨body, rest, hbody, rfl, hrest⟩ := exists_closed_of_not_closesAtMost items hinner
        obtain ⟨body', rest', hbody', rfl, hrest'⟩ :=
          exists_closed_of_not_closesAtMost rest (hrest depth rfl)
        exact ⟨_, rest', .conditional wanted hbody hbody', by simp, hrest'⟩
      · have hitems : ¬ ClosesAtMost depth items := fun hitems => h (hitems.cons (Nat.le_refl _))
        obtain ⟨body, rest, hbody, rfl, hrest⟩ := exists_closed_of_not_closesAtMost items hitems
        exact ⟨_, rest, hbody.otherwise, rfl, hrest⟩
      · refine ⟨[], items, .nil, rfl, ?_⟩
        rintro outer rfl hitems
        exact h (hitems.cons (Nat.le_refl _))
      · have hitems : ¬ ClosesAtMost depth items := fun hitems =>
          h (hitems.cons (by rw [hitem.opens_eq_false, hitem.closes_eq_false]))
        obtain ⟨body, rest, hbody, rfl, hrest⟩ := exists_closed_of_not_closesAtMost items hitems
        exact ⟨_, rest, hbody.ordinary hitem, rfl, hrest⟩
termination_by program.length

-- Every second segment, the first one being taken or not. This is how an OP_ELSE would
-- turn the choice of branches around each time.
def alternating : Bool → List Script → Script
  | _, [] => []
  | taken, segment :: segments => (if taken then segment else []) ++ alternating (!taken) segments

theorem flatten_eq_alternating_of_eq_nil {taken : Bool} {segments : List Script}
    (h : alternating (!taken) segments = []) : segments.flatten = alternating taken segments := by
  induction segments generalizing taken with
  | nil => rfl
  | cons segment segments ih =>
      rw [alternating, List.append_eq_nil_iff] at h
      rw [List.flatten_cons, alternating, ih h.2]
      cases taken with
      | false =>
          have hsegment : segment = [] := h.1
          rw [hsegment]
          rfl
      | true => rfl

theorem length_flatten_eq (segments : List Script) (taken : Bool) :
    segments.flatten.length =
      (alternating taken segments).length + (alternating (!taken) segments).length := by
  induction segments generalizing taken with
  | nil => rfl
  | cons segment segments ih =>
      have hrest := ih (!taken)
      cases taken <;> simp [alternating] at hrest ⊢ <;> omega

-- Taking all segments is taking every second one if the others are empty.
theorem flatten_eq_alternating_iff (taken : Bool) (segments : List Script) :
    segments.flatten = alternating taken segments ↔ alternating (!taken) segments = [] := by
  constructor
  · intro h
    have hlength := length_flatten_eq segments taken
    rw [h] at hlength
    exact List.length_eq_zero_iff.mp (by omega)
  · exact flatten_eq_alternating_of_eq_nil

end Script

open Script

-- What follows the opening of a conditional: the segments that its own OP_ELSEs divide it into,
-- in which others may be nested, and what stands behind its OP_ENDIF.
structure Conditional where
  first : Script
  others : List Script
  rest : Script
  closed : ∀ segment ∈ first :: others, Closed false segment

namespace Conditional

def flatten (conditional : Conditional) : Script :=
  dividedBy conditional.first conditional.others ++ .op Opcode.endIf :: conditional.rest

open Branches in
theorem split_others {others : List Script} (h : ∀ segment ∈ others, Closed false segment)
    (inSecond : Bool) (rest : Script) :
    split 0 inSecond (others.flatMap (.op Opcode.otherwise :: ·) ++ .op Opcode.endIf :: rest) =
      some ⟨[], others.flatten, rest⟩ := by
  induction others generalizing inSecond with
  | nil => exact (split_endIf 0 inSecond rest).trans (if_pos rfl)
  | cons segment others ih =>
      rw [List.forall_mem_cons] at h
      rw [List.flatMap_cons, List.cons_append, List.cons_append, List.append_assoc, split_otherwise,
        if_pos rfl, h.1.passesFrom 0 true _ (Nat.le_refl 0), ih h.2]
      rfl

-- From the second segment on all of them are one branch.
theorem split_flatten (conditional : Conditional) :
    Branches.split 0 false conditional.flatten =
      some ⟨conditional.first, conditional.others.flatten, conditional.rest⟩ := by
  obtain ⟨first, others, rest, hclosed⟩ := conditional
  rw [List.forall_mem_cons] at hclosed
  rw [flatten, dividedBy, List.append_assoc, hclosed.1.passesFrom 0 false _ (Nat.le_refl 0),
    split_others hclosed.2]
  simp [Branches.prepend]

-- Every program in which the conditional has its OP_ENDIF.
theorem exists_flatten_eq_iff {program : Script} :
    (∃ conditional : Conditional, conditional.flatten = program) ↔ ¬ ClosesAtMost 0 program := by
  constructor
  · rintro ⟨conditional, rfl⟩ hcloses
    have hsplit := conditional.split_flatten
    rw [Branches.split_eq_none false hcloses] at hsplit
    cases hsplit
  · intro hcloses
    obtain ⟨body, rest, hbody, rfl, -⟩ := exists_closed_of_not_closesAtMost program hcloses
    obtain ⟨first, others, hclosed, rfl⟩ := hbody.exists_segments
    exact ⟨⟨first, others, rest, hclosed⟩, rfl⟩

theorem step_opening (setting : Setting) (wanted : Bool) (conditional : Conditional)
    (element : Bytes) (below alt : Stack) :
    Machine.step setting (.opening wanted) ⟨conditional.flatten, element :: below, alt⟩ =
      .ok ⟨(if ScriptNumber.truth element = wanted then conditional.first
        else conditional.others.flatten) ++ conditional.rest, below, alt⟩ := by
  have hcode : (if wanted then Opcode.ifTrue else Opcode.ifFalse) ≠ 0 := by
    cases wanted <;> decide
  rw [Instruction.opening, Machine.step_op setting hcode (Opcode.operation?_opening wanted),
    Machine.operate]
  simp only [Machine.branch, split_flatten]
  by_cases htruth : ScriptNumber.truth element = wanted <;> simp [Branches.resume, htruth]

-- A program that closes the conditional goes on with its first segment or with all the others.
-- Only the first OP_ELSE turns the choice around, and so it comes to every second segment
-- exactly when the third, the fifth and so on are empty.
theorem step_opening_alternating_iff (setting : Setting) (wanted : Bool) {program : Script}
    (h : ¬ ClosesAtMost 0 program) (element : Bytes) (below alt : Stack) :
    (∃ conditional : Conditional, conditional.flatten = program) ∧
    ∀ conditional : Conditional, conditional.flatten = program →
      Machine.step setting (.opening wanted) ⟨program, element :: below, alt⟩ =
        .ok ⟨(if ScriptNumber.truth element = wanted then conditional.first
          else conditional.others.flatten) ++ conditional.rest, below, alt⟩ ∧
      (Machine.step setting (.opening wanted) ⟨program, element :: below, alt⟩ =
          .ok ⟨alternating (ScriptNumber.truth element = wanted)
            (conditional.first :: conditional.others) ++ conditional.rest, below, alt⟩ ↔
        alternating false conditional.others = []) := by
  refine ⟨exists_flatten_eq_iff.mpr h, ?_⟩
  rintro conditional rfl
  have hstep := step_opening setting wanted conditional element below alt
  refine ⟨hstep, ?_⟩
  rw [hstep]
  simp only [Except.ok.injEq, Machine.mk.injEq, and_true, List.append_cancel_right_eq]
  by_cases htruth : ScriptNumber.truth element = wanted
  · simp [htruth, alternating]
  · simpa [htruth, alternating] using flatten_eq_alternating_iff true conditional.others

-- The second segment has a conditional in it, and the third is empty.
theorem step_opening_alternating_iff_nested :
    ¬ ClosesAtMost 0 [.op 81, .op Opcode.otherwise, .op Opcode.ifFalse, .op 82,
        .op Opcode.otherwise, .op Opcode.endIf, .op Opcode.otherwise, .op Opcode.endIf, .op 83] ∧
      Machine.step ⟨0, none, true⟩ (.opening true) ⟨[.op 81, .op Opcode.otherwise,
        .op Opcode.ifFalse, .op 82, .op Opcode.otherwise, .op Opcode.endIf, .op Opcode.otherwise,
        .op Opcode.endIf, .op 83], [[]], []⟩ =
          .ok ⟨[.op Opcode.ifFalse, .op 82, .op Opcode.otherwise, .op Opcode.endIf, .op 83],
            [], []⟩ := by
  have hbody : Closed true [.op 82, .op Opcode.otherwise] :=
    .ordinary (by decide) (.otherwise .nil)
  have hclosed : ∀ segment ∈ [[.op 81], [.op Opcode.ifFalse, .op 82, .op Opcode.otherwise,
      .op Opcode.endIf], []], Closed false segment := by
    rw [List.forall_mem_cons, List.forall_mem_cons, List.forall_mem_singleton]
    exact ⟨.ordinary (by decide) .nil, .conditional false hbody .nil, .nil⟩
  let conditional : Conditional :=
    ⟨[.op 81], [[.op Opcode.ifFalse, .op 82, .op Opcode.otherwise, .op Opcode.endIf], []],
      [.op 83], hclosed⟩
  have hends : ¬ ClosesAtMost 0 conditional.flatten := exists_flatten_eq_iff.mp ⟨conditional, rfl⟩
  obtain ⟨-, hall⟩ := step_opening_alternating_iff ⟨0, none, true⟩ true hends [] [] []
  exact ⟨hends, (hall conditional rfl).2.mpr rfl⟩

-- The third segment of `IF 1 ELSE 2 ELSE 3 ENDIF` is left out when the first is taken.
theorem not_forall_step_opening_alternating :
    ¬ ∀ (setting : Setting) (wanted : Bool) (conditional : Conditional) (element : Bytes)
        (below alt : Stack),
      Machine.step setting (.opening wanted) ⟨conditional.flatten, element :: below, alt⟩ =
        .ok ⟨alternating (ScriptNumber.truth element = wanted)
          (conditional.first :: conditional.others) ++ conditional.rest, below, alt⟩ := by
  intro h
  have hclosed : ∀ segment ∈ [[.op 81], [.op 82], [.op 83]], Closed false segment := by
    rw [List.forall_mem_cons, List.forall_mem_cons, List.forall_mem_singleton]
    exact ⟨.ordinary (by decide) .nil, .ordinary (by decide) .nil, .ordinary (by decide) .nil⟩
  let conditional : Conditional := ⟨[.op 81], [[.op 82], [.op 83]], [], hclosed⟩
  have hstep := h ⟨0, none, true⟩ true conditional [1] [] []
  rw [step_opening] at hstep
  change (.ok ⟨[.op 81], [], []⟩ : Except Stop Machine) = .ok ⟨[.op 81, .op 83], [], []⟩ at hstep
  cases hstep

end Conditional

end BitcoinSpend
