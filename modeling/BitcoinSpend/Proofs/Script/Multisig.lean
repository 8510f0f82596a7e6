import BitcoinSpend.Script.SignatureOp
import Mathlib.Data.List.Forall2
import Mathlib.Data.List.NodupEquivFin

namespace BitcoinSpend

section Order

variable {α β : Type} {verifies : α → β → Bool}

-- What a walk that skips keys gives up is never needed: a signature that the
-- first key verifies may as well be assigned to it.
theorem matchesInOrder_iff {keys : List α} {signatures : List β} :
    matchesInOrder verifies keys signatures = true ↔
      List.SublistForall₂ (fun signature key => verifies key signature = true) signatures keys := by
  induction keys generalizing signatures with
  | nil =>
      cases signatures with
      | nil => exact ⟨fun _ => .nil, fun _ => rfl⟩
      | cons signature signatures =>
          constructor
          · intro h
            cases h
          · intro h
            cases h
  | cons key keys ih =>
      cases signatures with
      | nil => exact ⟨fun _ => .nil, fun _ => rfl⟩
      | cons signature signatures =>
          rw [matchesInOrder]
          split_ifs with hv
          · rw [ih]
            constructor
            · exact .cons hv
            · intro h
              cases h with
              | cons _ h => exact h
              | cons_right h =>
                  obtain ⟨chosen, hchosen, hsub⟩ := List.sublistForall₂_iff.mp h
                  cases hchosen with
                  | cons _ hrest =>
                      exact List.sublistForall₂_iff.mpr
                        ⟨_, hrest, (List.sublist_cons_self _ _).trans hsub⟩
          · rw [ih]
            constructor
            · exact .cons_right
            · intro h
              cases h with
              | cons h' _ => exact absurd h' hv
              | cons_right h => exact h

end Order

section Assignment

variable {α β : Type} {R : α → β → Prop}

theorem sublistForall₂_reverse_iff {xs : List α} {ys : List β} :
    List.SublistForall₂ R xs.reverse ys.reverse ↔ List.SublistForall₂ R xs ys := by
  simp only [List.sublistForall₂_iff]
  constructor
  · rintro ⟨chosen, hchosen, hsub⟩
    refine ⟨chosen.reverse, ?_, List.reverse_sublist.mp (by simpa using hsub)⟩
    exact List.forall₂_reverse_iff.mp (by simpa using hchosen)
  · rintro ⟨chosen, hchosen, hsub⟩
    exact ⟨chosen.reverse, List.forall₂_reverse_iff.mpr hchosen, hsub.reverse⟩

-- An assignment as positions that increase strictly.
theorem sublistForall₂_iff_exists_strictMono {xs : List α} {ys : List β} :
    List.SublistForall₂ R xs ys ↔
      ∃ f : Fin xs.length → Fin ys.length, StrictMono f ∧ ∀ i, R xs[i] ys[f i] := by
  rw [List.sublistForall₂_iff]
  constructor
  · rintro ⟨chosen, hchosen, hsub⟩
    obtain ⟨f, hf⟩ := List.sublist_iff_exists_fin_orderEmbedding_get_eq.mp hsub
    have hlength := hchosen.length_eq
    refine ⟨fun i => f (i.cast hlength), fun i j hij => f.strictMono hij, fun i => ?_⟩
    have hi : R xs[i] (chosen.get (i.cast hlength)) :=
      (List.forall₂_iff_get.mp hchosen).2 i i.isLt (hlength ▸ i.isLt)
    rwa [hf (i.cast hlength)] at hi
  · rintro ⟨f, hf, hR⟩
    let chosen := List.ofFn fun i => ys[f i]
    have hlength : chosen.length = xs.length := List.length_ofFn
    refine ⟨chosen, List.forall₂_iff_get.mpr ⟨hlength.symm, fun i hi _ => ?_⟩, ?_⟩
    · simpa [chosen] using hR ⟨i, hi⟩
    · have hmono : StrictMono fun i : Fin chosen.length => f (i.cast hlength) :=
        fun i j hij => hf hij
      refine List.sublist_iff_exists_fin_orderEmbedding_get_eq.mpr
        ⟨.ofStrictMono _ hmono, fun i => ?_⟩
      simp only [chosen, List.get_eq_getElem, List.getElem_ofFn]
      rfl

end Assignment

section Parts

variable {ε α β : Type} {f : α → Except ε β}

theorem mapM_eq_ok_iff {xs : List α} {ys : List β} :
    xs.mapM f = .ok ys ↔ List.Forall₂ (fun x y => f x = .ok y) xs ys := by
  induction xs generalizing ys with
  | nil => simp [pure, Except.pure, eq_comm]
  | cons x xs ih =>
      rw [List.mapM_cons, List.forall₂_cons_left_iff]
      cases hx : f x with
      | error cause => simp [bind, Except.bind]
      | ok y =>
          cases hr : xs.mapM f with
          | error cause => simp [hr, bind, Except.bind, ← ih]
          | ok rest => simp [hr, bind, Except.bind, pure, Except.pure, ← ih, eq_comm]

theorem exists_mapM_eq_ok_iff {xs : List α} :
    (∃ ys, xs.mapM f = .ok ys) ↔ ∀ x ∈ xs, ∃ y, f x = .ok y := by
  simp only [mapM_eq_ok_iff]
  induction xs with
  | nil => simp
  | cons x xs ih =>
      simp only [List.forall₂_cons_left_iff, List.forall_mem_cons, ← ih]
      constructor
      · rintro ⟨-, y, ys, hy, hys, -⟩
        exact ⟨⟨y, hy⟩, ys, hys⟩
      · rintro ⟨⟨y, hy⟩, ys, hys⟩
        exact ⟨y :: ys, y, ys, hy, hys, rfl⟩

end Parts

namespace SignatureOp

-- Every key and every signature can be read, and each signature has a key of
-- its own that verifies it, in the order of the keys.
def ThresholdMet (z : Int) (keys signatures : List Bytes) : Prop :=
  (∀ key ∈ keys, ∃ point, Secp256k1.ofSec key = .ok point) ∧
    (∀ signature ∈ signatures, ∃ sigma, Signature.ofDer signature.dropLast = .ok sigma) ∧
    ∃ f : Fin signatures.length → Fin keys.length, StrictMono f ∧ ∀ i, ∃ point sigma,
      Secp256k1.ofSec keys[f i] = .ok point ∧
        Signature.ofDer signatures[i].dropLast = .ok sigma ∧ sigma.verifies point z = true

theorem thresholdMet_iff {z : Int} {keys signatures : List Bytes} :
    ThresholdMet z keys signatures ↔
      (∀ key ∈ keys, ∃ point, Secp256k1.ofSec key = .ok point) ∧
        (∀ signature ∈ signatures, ∃ sigma, elementSignature signature = .ok sigma) ∧
        List.SublistForall₂ (fun signature key => singleValid z key signature = true)
          signatures keys := by
  simp only [ThresholdMet, elementSignature_eq_ok_iff, sublistForall₂_iff_exists_strictMono,
    singleValid_iff]

theorem thresholdMet_reverse_iff {z : Int} {keys signatures : List Bytes} :
    ThresholdMet z keys.reverse signatures.reverse ↔ ThresholdMet z keys signatures := by
  simp only [thresholdMet_iff, List.mem_reverse, sublistForall₂_reverse_iff]

theorem matchesInOrder_verifies {z : Int} {keys signatures : List Bytes}
    {points : List Secp256k1.Point} {sigmas : List Signature}
    (hkeys : List.Forall₂ (fun key point => Secp256k1.ofSec key = .ok point) keys points)
    (hsignatures : List.Forall₂ (fun signature sigma => elementSignature signature = .ok sigma)
      signatures sigmas) :
    matchesInOrder (fun point (sigma : Signature) => sigma.verifies point z) points sigmas =
      matchesInOrder (singleValid z) keys signatures := by
  induction hkeys generalizing signatures sigmas with
  | nil => cases hsignatures <;> rfl
  | cons hkey _ ih =>
      cases hsignatures with
      | nil => rfl
      | cons hsignature hrest =>
          simp only [matchesInOrder, singleValid, hkey, hsignature, ih hrest,
            ih (.cons hsignature hrest)]

theorem multipleValid_iff {z : Int} {keys signatures : List Bytes} :
    multipleValid z keys signatures = true ↔ ThresholdMet z keys signatures := by
  rw [thresholdMet_iff, ← exists_mapM_eq_ok_iff, ← exists_mapM_eq_ok_iff, ← matchesInOrder_iff,
    multipleValid]
  cases hkeys : keys.mapM Secp256k1.ofSec with
  | error cause => simp
  | ok points =>
      cases hsignatures : signatures.mapM elementSignature with
      | error cause => simp
      | ok sigmas =>
          simp only [Except.ok.injEq, exists_eq', true_and]
          rw [matchesInOrder_verifies (mapM_eq_ok_iff.mp hkeys) (mapM_eq_ok_iff.mp hsignatures)]

theorem popCounted_eq_some_iff {stack below : Stack} {elements : List Bytes} :
    popCounted stack = some (elements, below) ↔
      ∃ count, stack = count :: (elements ++ below) ∧
        ScriptNumber.decode count = some (elements.length : Int) ∧ below ≠ [] := by
  cases stack with
  | nil => simp [popCounted]
  | cons count rest =>
      simp only [popCounted, Option.bind_eq_bind, Option.bind_eq_some_iff,
        ScriptNumber.decodeCount_eq_some_iff]
      constructor
      · rintro ⟨size, hd, h⟩
        split at h
        next hlt =>
          cases h
          refine ⟨count, by rw [List.take_append_drop], ?_, ?_⟩
          · rw [hd, List.length_take, Nat.min_eq_left (Nat.le_of_lt hlt)]
          · rw [ne_eq, List.drop_eq_nil_iff]
            omega
        next => cases h
      · rintro ⟨_, he, hd, hne⟩
        cases he
        refine ⟨elements.length, hd, ?_⟩
        have hpos := List.length_pos_iff.mpr hne
        rw [if_pos (by rw [List.length_append]; omega)]
        simp

-- Both lists come off top first.
theorem applyMultiple_eq_some_iff {z : Int} {stack after : Stack} :
    applyMultiple z stack = some after ↔
      ∃ base dummy signatures m keys n,
        stack = n :: (keys ++ m :: (signatures ++ dummy :: base)) ∧
          ScriptNumber.decode n = some (keys.length : Int) ∧
          ScriptNumber.decode m = some (signatures.length : Int) ∧
          after = ScriptNumber.ofBool (multipleValid z keys signatures) :: base := by
  simp only [applyMultiple, Option.bind_eq_bind, Option.bind_eq_some_iff, Prod.exists,
    popCounted_eq_some_iff]
  constructor
  · rintro ⟨keys, _, ⟨n, rfl, hn, -⟩, signatures, below, ⟨m, rfl, hm, hne⟩, h⟩
    cases h
    obtain ⟨dummy, base, rfl⟩ := List.exists_cons_of_ne_nil hne
    exact ⟨base, dummy, signatures, m, keys, n, rfl, hn, hm, rfl⟩
  · rintro ⟨base, dummy, signatures, m, keys, n, rfl, hn, hm, rfl⟩
    exact ⟨keys, _, ⟨n, rfl, hn, by simp⟩, signatures, _, ⟨m, rfl, hm, by simp⟩, rfl⟩

-- With both counts known, only the signatures are left to be cut off.
theorem applyMultiple_counted_iff {z : Int} {n m : Bytes} {keys : List Bytes} {count : Nat}
    {stack after : Stack} (hn : ScriptNumber.decode n = some (keys.length : Int))
    (hm : ScriptNumber.decode m = some (count : Int)) :
    applyMultiple z (n :: (keys ++ m :: stack)) = some after ↔
      ∃ signatures dummy base, stack = signatures ++ dummy :: base ∧ signatures.length = count ∧
        after = ScriptNumber.ofBool (multipleValid z keys signatures) :: base := by
  rw [applyMultiple_eq_some_iff]
  constructor
  · rintro ⟨base, dummy, signatures, m', keys', n', hstack, hn', hm', rfl⟩
    injection hstack with hhead htail
    rw [← hhead, hn, Option.some.injEq, Int.natCast_inj] at hn'
    obtain ⟨rfl, hbelow⟩ := List.append_inj htail hn'
    injection hbelow with hhead hstack
    rw [← hhead, hm, Option.some.injEq, Int.natCast_inj] at hm'
    exact ⟨signatures, dummy, base, hstack, hm'.symm, rfl⟩
  · rintro ⟨signatures, dummy, base, rfl, rfl, rfl⟩
    exact ⟨base, dummy, signatures, m, keys, n, rfl, hn, hm, rfl⟩

-- The stack is listed from the bottom up. Whether a key comes before another is
-- the same seen from either end, so the walk from the top loses no assignment.
theorem apply_checkMultisig_eq_some_iff (z : Int) (stack after : Stack) :
    checkMultisig.apply z stack = some after ↔
      ∃ (base : List Bytes) (dummy : Bytes) (signatures : List Bytes) (m : Bytes)
          (keys : List Bytes) (n result : Bytes),
        stack.reverse = base ++ [dummy] ++ signatures ++ [m] ++ keys ++ [n] ∧
          ScriptNumber.decode n = some (keys.length : Int) ∧
          ScriptNumber.decode m = some (signatures.length : Int) ∧
          after.reverse = base ++ [result] ∧
          (ThresholdMet z keys signatures → result = ScriptNumber.encode 1) ∧
          (¬ ThresholdMet z keys signatures → result = ScriptNumber.encode 0) := by
  have hresult : ∀ (keys signatures : List Bytes) (result : Bytes),
      ((ThresholdMet z keys signatures → result = ScriptNumber.encode 1) ∧
        (¬ ThresholdMet z keys signatures → result = ScriptNumber.encode 0)) ↔
      result = ScriptNumber.ofBool (multipleValid z keys.reverse signatures.reverse) := by
    intro keys signatures result
    rw [← thresholdMet_reverse_iff, ← multipleValid_iff]
    cases multipleValid z keys.reverse signatures.reverse <;> simp [ScriptNumber.ofBool]
  change applyMultiple z stack = some after ↔ _
  simp only [applyMultiple_eq_some_iff, hresult]
  constructor
  · rintro ⟨base, dummy, signatures, m, keys, n, rfl, hn, hm, rfl⟩
    refine ⟨base.reverse, dummy, signatures.reverse, m, keys.reverse, n, _, ?_, ?_, ?_, ?_, rfl⟩
    · simp
    · simpa using hn
    · simpa using hm
    · simp
  · rintro ⟨base, dummy, signatures, m, keys, n, result, hstack, hn, hm, hafter, rfl⟩
    refine ⟨base.reverse, dummy, signatures.reverse, m, keys.reverse, n, ?_, ?_, ?_, ?_⟩
    · rw [← List.reverse_reverse stack, hstack]
      simp
    · simpa using hn
    · simpa using hm
    · rw [← List.reverse_reverse after, hafter]
      simp

end SignatureOp

end BitcoinSpend
