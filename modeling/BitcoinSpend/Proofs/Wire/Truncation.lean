import BitcoinSpend.Proofs.Wire.Shortest

namespace BitcoinSpend

-- What is reported of an input that ends too early.
inductive Error.Shortage : Error → Prop
  | part (part : TransactionPart) : Shortage (.transaction (.truncated part))
  | length : Shortage (.script .missingLength)
  | opcode : Shortage (.script .missingOpcode)
  | pushLength (code : UInt8) : Shortage (.script (.missingPushLength code))
  | data (length : Nat) : Shortage (.script (.missingData length))

namespace Reader

variable {α β : Type} {read : Reader α} {form : Form α}

-- Where the whole input can be read, all that is wrong with a front part of it
-- is that it ends too early.
def FailsShort (read : Reader α) : Prop :=
  ∀ ⦃front back value rest cause⦄, read (front ++ back) = .ok (value, rest) →
    read front = .error cause → cause.Shortage

-- What is read does not hang on what follows it.
theorem Accepts.append (h : read.Accepts form) {front left : Bytes} {value : α}
    (hread : read front = .ok (value, left)) (back : Bytes) :
    read (front ++ back) = .ok (value, left ++ back) := by
  obtain ⟨bytes, hbytes, rfl⟩ := (h _ _ _).mp hread
  exact (h _ _ _).mpr ⟨bytes, hbytes, List.append_assoc _ _ _⟩

theorem failsShort_pure (value : α) : FailsShort (pure value) := by
  intro front back other rest cause _ hfront
  cases hfront

theorem FailsShort.bind {next : α → Reader β} (h : read.FailsShort) (haccepts : read.Accepts form)
    (hnext : ∀ value, (next value).FailsShort) : FailsShort (read >>= next) := by
  intro front back result rest cause hwhole hfront
  change (read (front ++ back) >>= fun pair => next pair.1 pair.2) = _ at hwhole
  change (read front >>= fun pair => next pair.1 pair.2) = _ at hfront
  obtain ⟨⟨value, middle⟩, hread, hwhole⟩ := bind_eq_ok_iff.mp hwhole
  cases hpart : read front with
  | error other =>
      rw [hpart] at hfront
      cases hfront
      exact h hread hpart
  | ok pair =>
      have hsame := haccepts.append hpart back
      rw [hread] at hsame
      rw [hpart] at hfront
      cases hsame
      exact hnext _ hwhole hfront

theorem failsShort_orElse {read : Bytes → Option (α × Bytes)} {error : Error}
    (h : error.Shortage) : FailsShort (orElse read error) := by
  intro front back value rest cause _ hfront
  rw [orElse] at hfront
  split at hfront
  · cases hfront
    exact h
  · cases hfront

theorem FailsShort.many (h : read.FailsShort) (haccepts : read.Accepts form) (count : Nat) :
    FailsShort (many read count) := by
  induction count with
  | zero => exact failsShort_pure []
  | succ count ih =>
      exact h.bind haccepts fun first => ih.bind (haccepts.many count) fun rest =>
        failsShort_pure (first :: rest)

theorem FailsShort.unless {condition : Prop} [Decidable condition] {error : Error}
    {next : Unit → Reader α} (h : read.FailsShort) :
    FailsShort (if condition then throw error >>= next else read) := by
  split_ifs with hcondition
  · intro front back value rest cause hwhole _
    cases hwhole
  · exact h

end Reader

namespace Instruction

theorem failsShort_readData (length : Nat) : Reader.FailsShort (readData length) := by
  intro front back item rest cause hwhole hfront
  obtain ⟨data, -, -, hlong, -⟩ := readData_eq_ok_iff.mp hwhole
  rw [readData, if_neg (Nat.not_lt.mpr hlong)] at hfront
  split at hfront
  · cases hfront
    exact .data length
  · cases hfront

theorem failsShort_take? (size : Nat) {error : Error} (h : error.Shortage) :
    Reader.FailsShort fun input =>
      match Bytes.take? size input with
      | none => (.error error : Except Error (Instruction × Bytes))
      | some (length, rest) => readData (Bytes.toNatLE length) rest := by
  intro front back item rest cause hwhole hfront
  beta_reduce at hwhole hfront
  split at hfront
  · cases hfront
    exact h
  next length left htake =>
    obtain ⟨rfl, hlength⟩ := Bytes.take?_eq_some_iff.mp htake
    rw [List.append_assoc, Bytes.take?_eq_some_iff.mpr ⟨rfl, hlength⟩] at hwhole
    exact failsShort_readData _ hwhole hfront

theorem failsShort_read : Reader.FailsShort read := by
  intro front back item rest cause hwhole hfront
  cases front with
  | nil =>
      cases hfront
      exact .opcode
  | cons code front =>
      simp only [List.cons_append, read] at hwhole hfront
      split_ifs at hwhole hfront
      · exact failsShort_readData _ hwhole hfront
      · exact failsShort_take? 1 (.pushLength code) hwhole hfront
      · exact failsShort_take? 2 (.pushLength code) hwhole hfront

end Instruction

namespace Script

-- The lengths of the front part add up as those of the whole do, so that it is
-- no mismatch of them that stops the reader.
theorem failsShort_readItems (declared consumed : Nat) :
    Reader.FailsShort (readItems declared consumed) := by
  intro front back script rest cause hwhole hfront
  fun_induction readItems declared consumed front generalizing script rest with
  | case1 consumed front hlt other hread =>
      cases hfront
      cases hwholeRead : Instruction.read (front ++ back) with
      | error _ =>
          rw [readItems_of_read_error hlt hwholeRead] at hwhole
          cases hwhole
      | ok pair => exact Instruction.failsShort_read hwholeRead hread
  | case2 consumed front hlt item left hread _ htail ih =>
      cases hfront
      have hwholeRead := Instruction.accepts_read.append hread back
      have hconsumed : (front ++ back).length - (left ++ back).length =
          front.length - left.length := by
        rw [List.length_append, List.length_append, Nat.add_sub_add_right]
      rw [readItems_of_read hlt hwholeRead, hconsumed] at hwhole
      cases hwholeTail :
          readItems declared (consumed + (front.length - left.length)) (left ++ back) with
      | error _ =>
          rw [hwholeTail] at hwhole
          cases hwhole
      | ok tail => exact ih hwholeTail htail
  | case3 => cases hfront
  | case4 => cases hfront
  | case5 consumed front hlt hne =>
      rw [readItems, if_neg hlt, if_neg hne] at hwhole
      cases hwhole

theorem failsShort_read : Reader.FailsShort Script.read :=
  (Reader.failsShort_orElse .length).bind
    (Reader.accepts_orElse fun _ _ _ => readVarInt_eq_some_iff) fun length =>
      failsShort_readItems length 0

end Script

namespace TransactionPart

theorem failsShort_orTruncated {α : Type} (part : TransactionPart)
    (read : Bytes → Option (α × Bytes)) : Reader.FailsShort (part.orTruncated read) :=
  Reader.failsShort_orElse (.part part)

theorem failsShort_readWord (part : TransactionPart) : Reader.FailsShort part.readWord :=
  (part.failsShort_orTruncated _).bind (Reader.accepts_integer part 4) fun _ =>
    Reader.failsShort_pure _

end TransactionPart

theorem Input.failsShort_read : Reader.FailsShort Input.read :=
  (TransactionPart.failsShort_orTruncated _ _).bind (TransactionPart.accepts_txid _) fun _ =>
    (TransactionPart.failsShort_readWord _).bind (Reader.accepts_word _) fun _ =>
      Script.failsShort_read.bind Script.accepts_read fun _ =>
        (TransactionPart.failsShort_readWord _).bind (Reader.accepts_word _) fun _ =>
          Reader.failsShort_pure _

theorem Output.failsShort_read : Reader.FailsShort Output.read :=
  (TransactionPart.failsShort_orTruncated _ _).bind (Reader.accepts_integer _ 8) fun _ =>
    Script.failsShort_read.bind Script.accepts_read fun _ => Reader.failsShort_pure _

namespace Transaction

theorem failsShort_read (network : Network) : Reader.FailsShort (Transaction.read network) :=
  (TransactionPart.failsShort_readWord _).bind (Reader.accepts_word _) fun _ =>
    (TransactionPart.failsShort_orTruncated _ _).bind (TransactionPart.accepts_count _) fun count =>
      Reader.FailsShort.unless
        ((Input.failsShort_read.many Input.accepts_read count).bind (Input.accepts_read.many count)
          fun _ => (TransactionPart.failsShort_orTruncated _ _).bind
            (TransactionPart.accepts_count _) fun count =>
              (Output.failsShort_read.many Output.accepts_read count).bind
                (Output.accepts_read.many count) fun _ =>
                  (TransactionPart.failsShort_readWord _).bind (Reader.accepts_word _) fun _ =>
                    Reader.failsShort_pure _)

-- A transaction says where it ends: what stops before that is too short, and what
-- goes on after it has bytes left over.
theorem ofBytes_self_delimiting {network : Network} {raw : Bytes} {tx : Transaction}
    (h : ofBytes network raw = .ok tx) (other : Network) :
    (∀ front, front <+: raw → front ≠ raw →
      ∃ cause, ofBytes other front = .error cause ∧ cause.Shortage) ∧
    (∀ whole, raw <+: whole → whole ≠ raw →
      ofBytes other whole = .error (.transaction (.trailingBytes (whole.length - raw.length)))) := by
  obtain ⟨hinputs, -, haccepted⟩ := ofBytes_eq_ok_iff.mp h
  have hother : ofBytes other raw = .ok { tx with network := other } :=
    ofBytes_eq_ok_iff.mpr ⟨hinputs, rfl, haccepted⟩
  have hread := ofBytes_eq_ok_iff_read.mp hother
  constructor
  · rintro front ⟨back, rfl⟩ hne
    cases hfront : read other front with
    | error cause =>
        exact ⟨cause, ofBytes_of_read_error hfront, failsShort_read other hread hfront⟩
    | ok pair =>
        have hwhole := (accepts_read other).append hfront back
        rw [hread] at hwhole
        have hrest : pair.2 ++ back = [] := (congrArg Prod.snd (Except.ok.inj hwhole)).symm
        rw [(List.append_eq_nil_iff.mp hrest).2, List.append_nil] at hne
        exact absurd rfl hne
  · rintro whole ⟨back, rfl⟩ hne
    have hback : back ≠ [] := by
      rintro rfl
      exact hne (List.append_nil raw)
    have hwhole := (accepts_read other).append hread back
    rw [ofBytes_of_read hwhole, List.nil_append, if_neg hback, List.length_append,
      Nat.add_sub_cancel_left]

-- The front part ends between the code of a push and its data.
theorem ofBytes_self_delimiting_cut_push :
    ofBytes .main (spendBytes [2, 1, 0xaa]) = .ok pushSpend ∧
      (spendBytes [2, 1, 0xaa]).take 43 <+: spendBytes [2, 1, 0xaa] ∧
      (spendBytes [2, 1, 0xaa]).take 43 ≠ spendBytes [2, 1, 0xaa] ∧
      (∃ cause, ofBytes .test ((spendBytes [2, 1, 0xaa]).take 43) = .error cause ∧
        cause.Shortage) ∧
      spendBytes [2, 1, 0xaa] <+: spendBytes [2, 1, 0xaa] ++ [0] ∧
      spendBytes [2, 1, 0xaa] ++ [0] ≠ spendBytes [2, 1, 0xaa] ∧
      ofBytes .test (spendBytes [2, 1, 0xaa] ++ [0]) = .error (.transaction (.trailingBytes 1)) := by
  have hread : ofBytes .main (spendBytes [2, 1, 0xaa]) = .ok pushSpend :=
    ofBytes_eq_ok_iff.mpr ⟨List.cons_ne_nil _ _, rfl,
      accepted_spendBytes (.direct (by decide) (by decide)) (by decide)⟩
  have hfront := List.take_prefix 43 (spendBytes [2, 1, 0xaa])
  have hcut : (spendBytes [2, 1, 0xaa]).take 43 ≠ spendBytes [2, 1, 0xaa] := by decide
  have hwhole := List.prefix_append (spendBytes [2, 1, 0xaa]) [0]
  have hlonger : spendBytes [2, 1, 0xaa] ++ [0] ≠ spendBytes [2, 1, 0xaa] := by decide
  obtain ⟨hshort, hlong⟩ := ofBytes_self_delimiting hread .test
  exact ⟨hread, hfront, hcut, hshort _ hfront hcut, hwhole, hlonger, hlong _ hwhole hlonger⟩

end Transaction

end BitcoinSpend
