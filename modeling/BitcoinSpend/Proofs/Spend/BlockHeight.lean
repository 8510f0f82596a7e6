import BitcoinSpend.Proofs.Script.Shortest
import BitcoinSpend.Proofs.Spend.Same
import BitcoinSpend.Proofs.Wire.RoundTrip

namespace BitcoinSpend

theorem Bytes.toNatLE_take (size : Nat) (bytes : Bytes) :
    toNatLE (bytes.take size) = toNatLE bytes % 256 ^ size := by
  induction size generalizing bytes with
  | zero => rw [List.take_zero, Nat.pow_zero, Nat.mod_one, toNatLE]
  | succ size ih =>
      cases bytes with
      | nil => rw [List.take_nil, toNatLE, Nat.zero_mod]
      | cons byte bytes =>
          have hbyte := byte.toNat_lt
          have hlow : (byte.toNat + 256 * toNatLE bytes) % 256 = byte.toNat := by omega
          have hhigh : (byte.toNat + 256 * toNatLE bytes) / 256 = toNatLE bytes := by omega
          have hpow : 256 ^ (size + 1) = 256 * 256 ^ size := Nat.pow_succ'
          rw [List.take_succ_cons, toNatLE, toNatLE, ih, hpow, Nat.mod_mul, hlow, hhigh]

-- A number that is not negative leaves the sign bit clear, so that its element is the number
-- itself, with the byte that keeps the sign apart or without.
theorem ScriptNumber.toNatLE_encode {value : Nat} (h : value < 0x8000000000000000) :
    Bytes.toNatLE (encode value) = value := by
  have hdecode : decode (encode value) = some (value : Int) := decode_encode h
  by_cases hzero : value = 0
  · rw [hzero, Nat.cast_zero, encode_zero, Bytes.toNatLE]
  · have hne : (value : Int) ≠ 0 := Int.natCast_ne_zero.mpr hzero
    rcases List.eq_nil_or_concat' (encode value) with hnil | ⟨low, top, hconcat⟩
    · rw [hnil] at hdecode
      cases hdecode
      exact absurd rfl hne
    · rw [hconcat] at hdecode
      rw [hconcat, toNatLE_of_decode_concat hdecode hne, if_neg (by omega)]
      rfl

namespace Transaction

variable {tx : Transaction} {input : Input} {rest : Script}

theorem coinbaseHeight_of_push {data : Bytes} (hinputs : tx.inputs = [input])
    (hprevious : input.previous = noOutpoint) (hunlocking : input.unlocking = .push data :: rest) :
    tx.coinbaseHeight = some (UInt32.ofNat (Bytes.toNatLE data)) := by
  have hinput : tx.coinbaseInput? = some input := by
    rw [coinbaseInput?, hinputs]
    exact if_pos hprevious
  have hfour : UInt32.ofNat (Bytes.toNatLE (data.take 4)) = UInt32.ofNat (Bytes.toNatLE data) := by
    rw [Bytes.toNatLE_take]
    exact UInt32.ofNat_mod_size
  rw [coinbaseHeight, hinput, ← hfour]
  simp [hunlocking, Instruction.pushed?]

theorem readable_push_encode (height : UInt32) :
    (Instruction.push (ScriptNumber.encode height.toNat)).Readable := by
  have hheight := height.toNat_lt
  have hlength : (ScriptNumber.encode height.toNat).length ≤ 4 + 1 :=
    ScriptNumber.length_encode_le (by rw [Int.natAbs_natCast]; omega)
  exact hlength.trans (by decide)

theorem readable_of_push_encode {height : UInt32} (hinputs : tx.inputs = [input])
    (hunlocking : input.unlocking = .push (ScriptNumber.encode height.toNat) :: rest)
    (hrest : rest.Readable) (houtputs : ∀ output ∈ tx.outputs, output.locking.Readable) :
    tx.Readable := by
  refine ⟨?_, houtputs⟩
  rw [hinputs, List.forall_mem_singleton, hunlocking]
  exact List.forall_mem_cons.mpr ⟨readable_push_encode height, hrest⟩

-- The network that it is read for is nowhere on the wire.
theorem Readable.readFrom_network {written : Bytes} (h : tx.Readable) (hinputs : tx.inputs ≠ [])
    (hbytes : tx.bytes = .ok written) (hlength : written.Addressable) (network : Network) :
    ({ tx with network := network } : Transaction).ReadFrom written :=
  Readable.readFrom h hinputs hbytes hlength

-- The height that a coinbase starts with is told from the transaction and from the bytes that
-- are written for it, though an empty push comes back as the opcode zero.
theorem coinbaseHeight_encode {height : UInt32} (hinputs : tx.inputs = [input])
    (hprevious : input.previous = noOutpoint)
    (hunlocking : input.unlocking = .push (ScriptNumber.encode height.toNat) :: rest) :
    tx.coinbaseHeight = some height ∧
      (rest.Readable → (∀ output ∈ tx.outputs, output.locking.Readable) →
        ∃ written, tx.bytes = .ok written ∧ (written.Addressable → ∀ network, ∃ again,
          (∀ suffix, (read network).run (written ++ suffix) = .ok (again, suffix)) ∧
            ofBytes network written = .ok again ∧ again.coinbaseHeight = some height)) := by
  have hheight : tx.coinbaseHeight = some height := by
    have hlt := height.toNat_lt
    rw [coinbaseHeight_of_push hinputs hprevious hunlocking,
      ScriptNumber.toNatLE_encode (by omega), UInt32.ofNat_toNat]
  refine ⟨hheight, ?_⟩
  intro hrest houtputs
  have hreadable := readable_of_push_encode hinputs hunlocking hrest houtputs
  have hne : tx.inputs ≠ [] := by
    rw [hinputs]
    exact List.cons_ne_nil input []
  obtain ⟨written, hbytes⟩ := hreadable.exists_bytes
  refine ⟨written, hbytes, ?_⟩
  intro hlength network
  obtain ⟨again, hsame, hread, hagain⟩ := hreadable.readFrom_network hne hbytes hlength network
  refine ⟨again, hread, hagain, ?_⟩
  rw [(Indistinguishable.of_same hsame).coinbaseHeight]
  exact hheight

-- The first height that takes a fifth byte, which keeps the sign apart.
def highInput : Input :=
  ⟨noOutpoint, [.push [0, 0, 0, 0x80, 0], .op 0x51], 0xffffffff⟩

def highCoinbase : Transaction :=
  ⟨1, [highInput], [⟨0, [.op 0x51]⟩], 0, .main⟩

def highCoinbaseBytes : Bytes :=
  [1, 0, 0, 0, 1] ++ List.replicate 32 0 ++ [0xff, 0xff, 0xff, 0xff, 7, 5, 0, 0, 0, 0x80, 0, 0x51] ++
    [0xff, 0xff, 0xff, 0xff, 1, 0, 0, 0, 0, 0, 0, 0, 0, 1, 0x51, 0, 0, 0, 0]

theorem coinbaseHeight_encode_signByte :
    highCoinbase.inputs = [highInput] ∧ highInput.previous = noOutpoint ∧
      highInput.unlocking =
        .push (ScriptNumber.encode (0x80000000 : UInt32).toNat) :: [.op 0x51] ∧
      highCoinbase.coinbaseHeight = some 0x80000000 ∧ Script.Readable [.op 0x51] ∧
      (∀ output ∈ highCoinbase.outputs, output.locking.Readable) ∧
      highCoinbase.bytes = .ok highCoinbaseBytes ∧ highCoinbaseBytes.Addressable ∧
      ∃ again, ofBytes .test highCoinbaseBytes = .ok again ∧
        again.coinbaseHeight = some 0x80000000 := by
  have hunlocking : highInput.unlocking =
      .push (ScriptNumber.encode (0x80000000 : UInt32).toNat) :: [.op 0x51] := by
    decide +kernel
  have hrest : Script.Readable [.op 0x51] := by
    simp [Script.Readable, Instruction.Readable]
  have houtputs : ∀ output ∈ highCoinbase.outputs, output.locking.Readable := by
    simpa [highCoinbase] using hrest
  have hlength : highCoinbaseBytes.Addressable := by
    rw [Bytes.Addressable]
    decide
  have hbytes : highCoinbase.bytes = .ok highCoinbaseBytes := by decide +kernel
  have hinputs : highCoinbase.inputs = [highInput] := rfl
  obtain ⟨hheight, hwritten⟩ := coinbaseHeight_encode hinputs rfl hunlocking
  obtain ⟨written, hwritten, hread⟩ := hwritten hrest houtputs
  rw [hbytes] at hwritten
  cases hwritten
  obtain ⟨again, -, hagain, hheight'⟩ := hread hlength .test
  exact ⟨hinputs, rfl, hunlocking, hheight, hrest, houtputs, hbytes, hlength, again, hagain, hheight'⟩

end Transaction

end BitcoinSpend
