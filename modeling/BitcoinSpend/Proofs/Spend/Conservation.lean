import BitcoinSpend.Proofs.Script.Isolation
import BitcoinSpend.Proofs.Script.Multisig
import BitcoinSpend.Proofs.Spend.Sighash
import Mathlib.Algebra.BigOperators.Ring.Finset

namespace BitcoinSpend

-- What the output that an outpoint names holds, if it names one.
def Resolver.amount (resolver : Resolver) (outpoint : Outpoint) : Nat :=
  match resolver outpoint with
  | .ok output => output.amount.toNat
  | .error _ => 0

theorem allM_eq_true_iff {α : Type} {test : α → Except Error Bool} {items : List α} :
    items.allM test = .ok true ↔ ∀ item ∈ items, test item = .ok true := by
  induction items with
  | nil => simp [List.allM, pure, Except.pure]
  | cons item items ih =>
      rw [List.allM, bind_eq_ok_iff, List.forall_mem_cons, ← ih]
      constructor
      · rintro ⟨verdict, hitem, hitems⟩
        cases verdict with
        | true => exact ⟨hitem, hitems⟩
        | false => cases hitems
      · rintro ⟨hitem, hitems⟩
        exact ⟨true, hitem, hitems⟩

namespace Transaction

variable {tx : Transaction} {resolver : Resolver}

-- The outputs that a transaction spends, in the order of its inputs.
def outpoints (tx : Transaction) : List Outpoint :=
  tx.inputs.map Input.previous

-- What the outputs hold that a transaction spends, each counted once.
def distinctAmount (tx : Transaction) (resolver : Resolver) : Nat :=
  ∑ outpoint ∈ tx.outpoints.toFinset, resolver.amount outpoint

theorem totalAmount_spent {inputs : List Input} {spent : List Output}
    (h : List.Forall₂ (fun input output => resolver input.previous = .ok output) inputs spent) :
    totalAmount spent = ((inputs.map Input.previous).map resolver.amount).sum := by
  induction h with
  | nil => rfl
  | @cons input output inputs spent hspent _ ih =>
      have hamount : resolver.amount input.previous = output.amount.toNat := by
        rw [Resolver.amount, hspent]
      rw [totalAmount, List.map_cons, List.map_cons, List.sum_cons, ih, hamount]

theorem fee_eq_ok_iff {fee : Int} :
    tx.fee resolver = .ok fee ↔
      (∀ outpoint ∈ tx.outpoints, ∃ output, resolver outpoint = .ok output) ∧
        fee = ((tx.outpoints.map resolver.amount).sum : Int) - totalAmount tx.outputs := by
  rw [Transaction.fee, bind_eq_ok_iff, outpoints, List.forall_mem_map]
  constructor
  · rintro ⟨spent, hspent, hfee⟩
    refine ⟨exists_mapM_eq_ok_iff.mp ⟨spent, hspent⟩, ?_⟩
    cases hfee
    rw [totalAmount_spent (mapM_eq_ok_iff.mp hspent)]
  · rintro ⟨hresolve, rfl⟩
    obtain ⟨spent, hspent⟩ := exists_mapM_eq_ok_iff.mpr hresolve
    refine ⟨spent, hspent, ?_⟩
    rw [totalAmount_spent (mapM_eq_ok_iff.mp hspent)]
    rfl

theorem verify_eq_true_iff :
    tx.verify resolver = .ok true ↔
      (∃ fee, tx.fee resolver = .ok fee ∧ 0 ≤ fee) ∧
        ∀ index < tx.inputs.length, tx.verifyInput index resolver = .ok true := by
  rw [verify, bind_eq_ok_iff]
  constructor
  · rintro ⟨fee, hfee, hverdict⟩
    by_cases hnegative : fee < 0
    · rw [if_pos hnegative] at hverdict
      cases hverdict
    · rw [if_neg hnegative] at hverdict
      have hinputs := allM_eq_true_iff.mp hverdict
      exact ⟨⟨fee, hfee, Int.not_lt.mp hnegative⟩, fun index hindex =>
        hinputs index (List.mem_range.mpr hindex)⟩
  · rintro ⟨⟨fee, hfee, hnonneg⟩, hinputs⟩
    refine ⟨fee, hfee, ?_⟩
    rw [if_neg (Int.not_lt.mpr hnonneg)]
    exact allM_eq_true_iff.mpr fun index hindex => hinputs index (List.mem_range.mp hindex)

theorem sum_amount_eq_sum_count (tx : Transaction) (resolver : Resolver) :
    (tx.outpoints.map resolver.amount).sum =
      ∑ outpoint ∈ tx.outpoints.toFinset,
        tx.outpoints.count outpoint * resolver.amount outpoint := by
  rw [Finset.sum_list_map_count]
  rfl

-- Any number of inputs that spend one output, which everyone may spend and which
-- holds one, and a new output that holds as many.
def openSpend (count : Nat) : Transaction :=
  ⟨1, List.replicate count ⟨⟨noOutpoint.txid, 0⟩, [], 0⟩, [⟨UInt64.ofNat count, []⟩], 0, .main⟩

def openResolver : Resolver := fun _ => .ok ⟨1, [.push [1]]⟩

theorem verifyInput_openSpend {count index : Nat} (hindex : index < count) :
    (openSpend count).verifyInput index openResolver = .ok true := by
  have hinput : (openSpend count).inputs[index]? = some ⟨⟨noOutpoint.txid, 0⟩, [], 0⟩ := by
    rw [openSpend, List.getElem?_replicate, if_pos hindex]
  have hlocking : Script.Encodable [.push [1]] := by
    intro data hdata
    cases List.mem_singleton.mp hdata
    decide
  have houtputs : ∀ output ∈ (openSpend count).outputs, output.locking.Encodable := by
    intro output houtput
    rw [List.mem_singleton.mp houtput]
    exact Script.encodable_nil
  obtain ⟨z, hz⟩ : ∃ z, (openSpend count).sighash index sighashAll none openResolver = .ok z :=
    exists_sighash hinput (.inr ⟨rfl, _, rfl, rfl⟩) hlocking houtputs
  have hrun : ∀ fields, Script.evaluate [.push [1]] z fields = .ok true := by
    intro fields
    rw [Script.evaluate, Script.start, Machine.run_of_step rfl, Machine.run_nil]
    rfl
  simp only [verifyInput, verifyInputWith, hinput]
  change (openSpend count).runInput index _ [.push [1]] none openResolver = _
  rw [runInput, hz]
  exact hrun _

theorem verify_openSpend {count : Nat} (hcount : count < 2 ^ 64) :
    (openSpend count).verify openResolver = .ok true := by
  have hspent : ((openSpend count).outpoints.map openResolver.amount).sum = count := by
    simp [openSpend, outpoints, openResolver, Resolver.amount]
  have hcreated : totalAmount (openSpend count).outputs = count := by
    rw [openSpend, totalAmount, totalAmount, UInt64.toNat_ofNat_of_lt' hcount]
    rfl
  refine verify_eq_true_iff.mpr ⟨⟨0, fee_eq_ok_iff.mpr ⟨fun _ _ => ⟨_, rfl⟩, ?_⟩, le_refl 0⟩, ?_⟩
  · rw [hspent, hcreated, Int.sub_self]
  · intro index hindex
    rw [openSpend, List.length_replicate] at hindex
    exact verifyInput_openSpend hindex

-- An output counts as often as there are inputs that spend it.
theorem totalAmount_le_of_verify (h : tx.verify resolver = .ok true) :
    (∀ outpoint ∈ tx.outpoints, ∃ output, resolver outpoint = .ok output) ∧
      totalAmount tx.outputs ≤ ∑ outpoint ∈ tx.outpoints.toFinset,
        tx.outpoints.count outpoint * resolver.amount outpoint ∧
      (tx.outpoints.Nodup → totalAmount tx.outputs ≤ tx.distinctAmount resolver) := by
  obtain ⟨⟨fee, hfee, hnonneg⟩, -⟩ := verify_eq_true_iff.mp h
  obtain ⟨hresolve, rfl⟩ := fee_eq_ok_iff.mp hfee
  have hle : totalAmount tx.outputs ≤ (tx.outpoints.map resolver.amount).sum := by
    omega
  rw [sum_amount_eq_sum_count] at hle
  refine ⟨hresolve, hle, fun hnodup => hle.trans_eq ?_⟩
  apply Finset.sum_congr rfl
  intro outpoint houtpoint
  rw [List.count_eq_one_of_mem hnodup (List.mem_toFinset.mp houtpoint), Nat.one_mul]

theorem totalAmount_le_of_verify_openSpend :
    (openSpend 1).verify openResolver = .ok true ∧ (openSpend 1).outpoints.Nodup ∧
      totalAmount (openSpend 1).outputs ≤ (openSpend 1).distinctAmount openResolver ∧
      (openSpend 2).verify openResolver = .ok true ∧
      totalAmount (openSpend 2).outputs ≤ ∑ outpoint ∈ (openSpend 2).outpoints.toFinset,
        (openSpend 2).outpoints.count outpoint * openResolver.amount outpoint := by
  have hone : (openSpend 1).verify openResolver = .ok true := verify_openSpend (by decide)
  have htwo : (openSpend 2).verify openResolver = .ok true := verify_openSpend (by decide)
  have hnodup : (openSpend 1).outpoints.Nodup := List.nodup_singleton _
  exact ⟨hone, hnodup, (totalAmount_le_of_verify hone).2.2 hnodup, htwo,
    (totalAmount_le_of_verify htwo).2.1⟩

-- Two inputs that spend the same output are verified one by one, and the fee has
-- its amount twice.
theorem not_forall_totalAmount_le_distinctAmount :
    ¬ ∀ (tx : Transaction) (resolver : Resolver), tx.verify resolver = .ok true →
      totalAmount tx.outputs ≤ tx.distinctAmount resolver := by
  intro h
  have hle := h (openSpend 2) openResolver (verify_openSpend (by decide))
  have hdistinct : (openSpend 2).distinctAmount openResolver = 1 := by
    simp [openSpend, distinctAmount, outpoints, openResolver, Resolver.amount]
  have hcreated : totalAmount (openSpend 2).outputs = 2 := rfl
  omega

end Transaction

end BitcoinSpend
