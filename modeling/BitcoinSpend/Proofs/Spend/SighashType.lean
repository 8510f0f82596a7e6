import BitcoinSpend.Proofs.Script.Multisig
import BitcoinSpend.Proofs.Spend.Signing

namespace BitcoinSpend

-- The same element but for its last byte, which in a signature is the sighash type.
def Retyped (element other : Bytes) : Prop :=
  ∃ type, other = element.dropLast ++ [type]

theorem elementSignature_eq (element : Bytes) :
    elementSignature element = Signature.ofDer element.dropLast := by
  cases element <;> rfl

theorem Retyped.elementSignature_eq {element other : Bytes} (h : Retyped element other) :
    elementSignature other = elementSignature element := by
  obtain ⟨type, rfl⟩ := h
  rw [BitcoinSpend.elementSignature_eq, BitcoinSpend.elementSignature_eq, List.dropLast_concat]

namespace SignatureOp

variable {z : Int} {signatures others : List Bytes}

theorem singleValid_of_retyped (key : Bytes) {signature other : Bytes}
    (h : Retyped signature other) : singleValid z key other = singleValid z key signature := by
  rw [singleValid, singleValid, h.elementSignature_eq]

theorem multipleValid_of_retyped (keys : List Bytes) (h : List.Forall₂ Retyped signatures others) :
    multipleValid z keys others = multipleValid z keys signatures := by
  have hread : others.mapM elementSignature = signatures.mapM elementSignature := by
    induction h with
    | nil => rfl
    | cons hfirst _ ih => rw [List.mapM_cons, List.mapM_cons, hfirst.elementSignature_eq, ih]
  rw [multipleValid, multipleValid, hread]

-- With both counts known, only the extra element can be missing.
theorem applyMultiple_counted {n m : Bytes} {keys : List Bytes}
    (hn : ScriptNumber.decode n = some (keys.length : Int))
    (hm : ScriptNumber.decode m = some (signatures.length : Int)) (below : Stack) :
    applyMultiple z (n :: (keys ++ m :: (signatures ++ below))) =
      below.tail?.map fun base => ScriptNumber.ofBool (multipleValid z keys signatures) :: base := by
  apply Option.ext
  intro after
  rw [applyMultiple_counted_iff hn hm, Option.map_eq_some_iff]
  constructor
  · rintro ⟨taken, dummy, base, hstack, hlength, rfl⟩
    obtain ⟨rfl, rfl⟩ := List.append_inj hstack hlength.symm
    exact ⟨base, rfl, rfl⟩
  · rintro ⟨base, htail, rfl⟩
    obtain ⟨dummy, rfl⟩ : ∃ dummy, below = dummy :: base := by
      cases below with
      | nil => cases htail
      | cons dummy rest => cases htail; exact ⟨dummy, rfl⟩
    exact ⟨signatures, dummy, base, rfl, rfl, rfl⟩

-- What an operation takes off the stack before the signatures, and the signatures.
inductive Takes (op : SignatureOp) : List Bytes → List Bytes → Prop
  | single (key signature : Bytes) : op = checkSig ∨ op = checkSigVerify →
      Takes op [key] [signature]
  | multiple {n m : Bytes} {keys signatures : List Bytes} :
      op = checkMultisig ∨ op = checkMultisigVerify →
      ScriptNumber.decode n = some (keys.length : Int) →
      ScriptNumber.decode m = some (signatures.length : Int) →
      Takes op (n :: (keys ++ [m])) signatures

theorem Takes.apply_of_retyped {op : SignatureOp} {above : List Bytes}
    (h : op.Takes above signatures) (hothers : List.Forall₂ Retyped signatures others)
    (below : Stack) :
    op.apply z (above ++ others ++ below) = op.apply z (above ++ signatures ++ below) := by
  cases h with
  | single key signature hop =>
      obtain ⟨other, _, hother, hrest, rfl⟩ := List.forall₂_cons_left_iff.mp hothers
      cases hrest
      have hsingle : applySingle z ([key] ++ [other] ++ below) =
          applySingle z ([key] ++ [signature] ++ below) := by
        simp only [List.cons_append, List.nil_append, applySingle, singleValid_of_retyped key hother]
      rcases hop with rfl | rfl
      · exact hsingle
      · exact congrArg (·.bind verifyTop) hsingle
  | @multiple n m keys _ hop hn hm =>
      have hm' : ScriptNumber.decode m = some (others.length : Int) := by
        rw [hm, hothers.length_eq]
      have hmultiple : applyMultiple z (n :: (keys ++ [m]) ++ others ++ below) =
          applyMultiple z (n :: (keys ++ [m]) ++ signatures ++ below) := by
        simp only [List.cons_append, List.append_assoc, List.nil_append]
        rw [applyMultiple_counted hn hm, applyMultiple_counted hn hm',
          multipleValid_of_retyped keys hothers]
      rcases hop with rfl | rfl
      · exact hmultiple
      · exact congrArg (·.bind verifyTop) hmultiple

end SignatureOp

namespace Transaction

variable {tx : Transaction} {index : Nat} {input : Input} {spent : Output} {resolver : Resolver}
  {hash : FixedBytes 20}

theorem verifyInput_keyHash_pushes (hinput : tx.inputs[index]? = some input)
    (hspent : resolver input.previous = .ok spent)
    (hlocking : spent.locking = Script.payToKeyHash hash) (signature key : Bytes) :
    (tx.setUnlocking index ([signature, key].map .push)).verifyInput index resolver =
      (tx.sighash index sighashAll none resolver).map fun z =>
        decide (hash160 key = hash) && SignatureOp.singleValid z key signature := by
  have hinput' := getElem?_setUnlocking hinput ([signature, key].map .push)
  have hsighash := sighash_setUnlocking tx index index ([signature, key].map .push) sighashAll none
    resolver
  cases hz : tx.sighash index sighashAll none resolver with
  | error cause =>
      have hnone : (Script.payToKeyHash hash).scriptHash? = none := rfl
      simp only [verifyInput, verifyInputWith, hinput', hspent, hlocking, hnone, runInput, hsighash,
        hz, bind, Except.bind]
      rfl
  | ok z =>
      have hrun : ∀ fields, (Script.start ([signature, key].map .push)).run ⟨z, fields, false⟩ =
          .ok ([key, signature], []) :=
        fun fields => Machine.run_pushes_plain ⟨z, fields, true⟩ _ [] []
      rw [verifyInput_of_keyHash hinput' hspent hlocking (hsighash.trans hz),
        Script.evaluate_append_sealed (Script.sealed_payToKeyHash hash), hrun]
      simp only [Machine.run_payToKeyHash_cons, Machine.run_checkSig_cons, Except.map]
      by_cases hkey : hash160 key = hash
      · simp [hkey, Script.verdict, ScriptNumber.ofBool_eq_nil_iff]
      · simp [hkey, Script.verdict]

-- Signatures count whatever their sighash type is, although they all sign the one hash
-- of the one type that is supported.
theorem sighashType_irrelevant (hinput : tx.inputs[index]? = some input)
    (hspent : resolver input.previous = .ok spent)
    (hlocking : spent.locking = Script.payToKeyHash hash) :
    (∀ (op : SignatureOp) (z : Int) (above signatures others : List Bytes) (below : Stack),
      op.Takes above signatures → List.Forall₂ Retyped signatures others →
        op.apply z (above ++ others ++ below) = op.apply z (above ++ signatures ++ below)) ∧
    ∀ key signature other : Bytes, Retyped signature other →
      (tx.setUnlocking index ([other, key].map .push)).verifyInput index resolver =
        (tx.setUnlocking index ([signature, key].map .push)).verifyInput index resolver := by
  constructor
  · intro op z above signatures others below htakes hothers
    exact htakes.apply_of_retyped hothers below
  · intro key signature other hother
    rw [verifyInput_keyHash_pushes hinput hspent hlocking,
      verifyInput_keyHash_pushes hinput hspent hlocking]
    simp only [SignatureOp.singleValid_of_retyped key hother]

theorem sighashType_irrelevant_type_two :
    ∃ (tx : Transaction) (input : Input) (spent : Output) (resolver : Resolver)
      (key signature other n : Bytes) (z : Int),
      tx.inputs[0]? = some input ∧ resolver input.previous = .ok spent ∧
      spent.locking = Script.payToKeyHash (hash160 key) ∧
      signature.getLast? = some 1 ∧ other.getLast? = some 2 ∧ Retyped signature other ∧
      (tx.setUnlocking 0 ([signature, key].map .push)).verifyInput 0 resolver = .ok true ∧
      (tx.setUnlocking 0 ([other, key].map .push)).verifyInput 0 resolver = .ok true ∧
      SignatureOp.checkMultisig.Takes [n, key, n] [signature] ∧
      SignatureOp.checkMultisig.apply z [n, key, n, other, []] =
        SignatureOp.checkMultisig.apply z [n, key, n, signature, []] := by
  let key : PrivateKey := ⟨1⟩
  have hsecret : key.secret % Secp256k1.order ≠ 0 := by decide
  let sec := Secp256k1.sec true key.point
  let spent : Output := ⟨2, Script.payToKeyHash (hash160 sec)⟩
  let tx : Transaction := ⟨1, [⟨noOutpoint, [], 0⟩], [], 0, .main⟩
  obtain ⟨z, hz⟩ : ∃ z, tx.sighash 0 sighashAll none (fun _ => .ok spent) = .ok z :=
    exists_sighash (by rfl) (.inr ⟨rfl, spent, rfl, rfl⟩) (Script.encodable_payToKeyHash _)
      (List.forall_mem_nil _)
  obtain ⟨draws, signature, hsign⟩ := Signature.exists_sign hsecret z
  have hretyped : Retyped (signature.der ++ [1]) (signature.der ++ [2]) :=
    ⟨2, by rw [List.dropLast_concat]⟩
  have hverify : (tx.setUnlocking 0 ([signature.der ++ [1], sec].map .push)).verifyInput 0
      (fun _ => .ok spent) = .ok true := by
    rw [verifyInput_keyHash_pushes (by rfl) (by rfl) (by rfl), hz]
    have hvalid := SignatureOp.singleValid_der hsecret hsign 1
    simp [Except.map, hvalid, sec]
  have hone : ScriptNumber.decode [1] = some 1 := by decide
  have htakes : SignatureOp.checkMultisig.Takes ([1] :: ([sec] ++ [[1]])) [signature.der ++ [1]] :=
    .multiple (.inl rfl) hone hone
  obtain ⟨happly, hspend⟩ := @sighashType_irrelevant tx 0 _ _ (fun _ => .ok spent) _ rfl rfl rfl
  refine ⟨tx, _, spent, fun _ => .ok spent, sec, _, _, [1], z, rfl, rfl, rfl,
    List.getLast?_concat, List.getLast?_concat, hretyped, hverify, ?_, htakes, ?_⟩
  · rw [hspend sec _ _ hretyped]
    exact hverify
  · exact happly _ z _ _ _ [[]] htakes (.cons hretyped .nil)

theorem not_forall_getLast?_of_checkSig :
    ¬ ∀ (z : Int) (key signature : Bytes) (below : Stack),
      SignatureOp.checkSig.apply z (key :: signature :: below) =
          some (ScriptNumber.encode 1 :: below) →
        signature.getLast? = some sighashAll.toUInt8 := by
  intro h
  let key : PrivateKey := ⟨2⟩
  have hsecret : key.secret % Secp256k1.order ≠ 0 := by decide
  obtain ⟨draws, signature, hsign⟩ := Signature.exists_sign hsecret 7
  have hvalid := SignatureOp.singleValid_der hsecret hsign 2
  have happly : SignatureOp.checkSig.apply 7
      (Secp256k1.sec true key.point :: (signature.der ++ [2]) :: []) =
        some (ScriptNumber.encode 1 :: []) := by
    rw [SignatureOp.apply, SignatureOp.applySingle, hvalid]
    rfl
  have htype := h _ _ _ _ happly
  rw [List.getLast?_concat] at htype
  cases htype

end Transaction

end BitcoinSpend
