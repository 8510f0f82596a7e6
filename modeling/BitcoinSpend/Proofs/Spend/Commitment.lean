import BitcoinSpend.Proofs.Spend.Sighash
import BitcoinSpend.Proofs.Wire.Unique

namespace BitcoinSpend

theorem Script.bytes_nil : Script.bytes [] = .ok [] :=
  rfl

namespace Transaction

variable {tx tx' : Transaction} {index index' : Nat} {signed signed' : Script}

-- The unlocking scripts that stand in the signed forms for the inputs at a place.
theorem alike_of_signingForm (h : (tx.signingForm index signed).Alike
    (tx'.signingForm index' signed')) :
    tx.inputs.length = tx'.inputs.length ∧ ∀ i (hi : i < tx.inputs.length)
      (hi' : i < tx'.inputs.length), tx.inputs[i].previous = tx'.inputs[i].previous ∧
        tx.inputs[i].sequence = tx'.inputs[i].sequence ∧
        Script.Alike (if i = index then signed else []) (if i = index' then signed' else []) := by
  obtain ⟨hlength, hget⟩ := List.forall₂_iff_get.mp h.inputs
  simp only [signingForm, List.length_mapIdx, List.get_eq_getElem, List.getElem_mapIdx]
    at hlength hget
  exact ⟨hlength, fun i hi hi' =>
    ⟨(hget i hi hi').previous, (hget i hi hi').sequence, (hget i hi hi').unlocking⟩⟩

-- The place of the signed input shows in the one script that is not empty.
theorem alike_signed_of_signingForm (hindex : index < tx.inputs.length)
    (hindex' : index' < tx'.inputs.length)
    (h : (tx.signingForm index signed).Alike (tx'.signingForm index' signed')) :
    ∃ body, signed.bytes = .ok body ∧ signed'.bytes = .ok body ∧ (body ≠ [] → index = index') := by
  obtain ⟨hlength, hinputs⟩ := alike_of_signingForm h
  obtain ⟨-, -, body, hbody, hbody'⟩ := hinputs index hindex (hlength ▸ hindex)
  obtain ⟨-, -, other, hother, hother'⟩ := hinputs index' (hlength ▸ hindex') hindex'
  rw [if_pos rfl] at hbody hother'
  by_cases hi : index = index'
  · rw [if_pos hi] at hbody'
    exact ⟨body, hbody, hbody', fun _ => hi⟩
  · rw [if_neg hi, Script.bytes_nil] at hbody'
    rw [if_neg (Ne.symm hi), Script.bytes_nil] at hother
    cases hbody'
    cases hother
    exact ⟨[], hbody, hother', fun hne => absurd rfl hne⟩

-- What is hashed for a signature fixes all of the transaction but its network
-- and its unlocking scripts, and the script and the place that the signature
-- is for.
theorem alike_of_sighashPreimage {redeem redeem' : Option Script} {resolver resolver' : Resolver}
    {preimage : Bytes} (h : tx.sighashPreimage index sighashAll redeem resolver = .ok preimage)
    (h' : tx'.sighashPreimage index' sighashAll redeem' resolver' = .ok preimage)
    (hlength : preimage.Addressable) :
    tx.version = tx'.version ∧ tx.locktime = tx'.locktime ∧
      List.Forall₂ (fun input input' =>
        input.previous = input'.previous ∧ input.sequence = input'.sequence) tx.inputs tx'.inputs ∧
      List.Forall₂ Output.Alike tx.outputs tx'.outputs ∧
      ∃ input input' signed signed' body,
        tx.inputs[index]? = some input ∧ tx'.inputs[index']? = some input' ∧
        input.signedScript redeem resolver = .ok signed ∧
        input'.signedScript redeem' resolver' = .ok signed' ∧
        signed.bytes = .ok body ∧ signed'.bytes = .ok body ∧ (body ≠ [] → index = index') := by
  obtain ⟨-, input, signed, form, hinput, hsigned, hform, rfl⟩ := sighashPreimage_eq_ok_iff.mp h
  obtain ⟨-, input', signed', form', hinput', hsigned', hform', heq⟩ :=
    sighashPreimage_eq_ok_iff.mp h'
  rw [List.append_cancel_right heq] at hlength hform
  have halike := alike_of_bytes hlength.of_append_left hform hform'
  obtain ⟨hindex, -⟩ := List.getElem?_eq_some_iff.mp hinput
  obtain ⟨hindex', -⟩ := List.getElem?_eq_some_iff.mp hinput'
  obtain ⟨hinputLength, hinputs⟩ := alike_of_signingForm halike
  obtain ⟨body, hbody, hbody', hplace⟩ := alike_signed_of_signingForm hindex hindex' halike
  refine ⟨halike.version, halike.locktime, ?_, halike.outputs, input, input', signed, signed', body,
    hinput, hinput', hsigned, hsigned', hbody, hbody', hplace⟩
  refine List.forall₂_iff_get.mpr ⟨hinputLength, fun i hi hi' => ?_⟩
  obtain ⟨hprevious, hsequence, -⟩ := hinputs i hi hi'
  exact ⟨hprevious, hsequence⟩

-- Two networks, two unlocking scripts, two forms of the empty push, and the
-- signed script committed to once and found by the resolver once.
theorem alike_of_sighashPreimage_empty_push :
    ∃ (tx tx' : Transaction) (resolver : Resolver) (preimage : Bytes),
      tx.inputs ≠ tx'.inputs ∧ tx.outputs ≠ tx'.outputs ∧
      tx.sighashPreimage 0 sighashAll (some [.push []]) resolver = .ok preimage ∧
      tx'.sighashPreimage 0 sighashAll none resolver = .ok preimage ∧ preimage.Addressable ∧
      tx.version = tx'.version ∧ tx.locktime = tx'.locktime ∧
      List.Forall₂ Output.Alike tx.outputs tx'.outputs := by
  let tx : Transaction :=
    ⟨1, [⟨noOutpoint, [.op Opcode.dup], 0⟩], [⟨7, [.push []]⟩], 0, .main⟩
  let tx' : Transaction := ⟨1, [⟨noOutpoint, [], 0⟩], [⟨7, [.op 0]⟩], 0, .test⟩
  let resolver : Resolver := fun _ => .ok ⟨9, [.op 0]⟩
  obtain ⟨preimage, h, h', hlength⟩ : ∃ preimage,
      tx.sighashPreimage 0 sighashAll (some [.push []]) resolver = .ok preimage ∧
      tx'.sighashPreimage 0 sighashAll none resolver = .ok preimage ∧ preimage.Addressable := by
    refine ⟨_, rfl, rfl, ?_⟩
    rw [Bytes.Addressable]
    decide
  obtain ⟨hversion, hlocktime, -, houtputs, -⟩ := alike_of_sighashPreimage h h' hlength
  exact ⟨tx, tx', resolver, preimage, by decide, by decide, h, h', hlength, hversion, hlocktime,
    houtputs⟩

end Transaction

end BitcoinSpend
