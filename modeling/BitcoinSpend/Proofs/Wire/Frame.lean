import BitcoinSpend.Proofs.Script.Same
import BitcoinSpend.Proofs.Wire.RoundTrip
import BitcoinSpend.Proofs.Wire.Unique

namespace BitcoinSpend

-- A sequence of spellings is a list of spellings put together.
theorem Form.sequence_iff_flatten {α : Type} {form : Form α} {items : List α} {bytes : Bytes} :
    form.Sequence items bytes ↔ ∃ parts, List.Forall₂ form items parts ∧ bytes = parts.flatten := by
  constructor
  · intro h
    induction h with
    | nil => exact ⟨[], .nil, rfl⟩
    | @cons _ _ first _ hfirst _ ih =>
        obtain ⟨parts, hparts, rfl⟩ := ih
        exact ⟨first :: parts, .cons hfirst hparts, rfl⟩
  · rintro ⟨parts, hparts, rfl⟩
    induction hparts with
    | nil => exact .nil
    | cons hfirst _ ih => exact .cons hfirst ih

namespace Script

variable {script : Script} {raw : Bytes}

-- Behind its length a script ends where the length says, whatever stands there.
theorem read_count_append_iff {length body suffix rest : Bytes}
    (hcount : CountForm body.length length) :
    read.run (length ++ body ++ suffix) = .ok (script, rest) ↔
      ofBytes body = .ok script ∧ rest = suffix := by
  rw [StateT.run, accepts_read, ofBytes_eq_ok_iff]
  constructor
  · rintro ⟨_, ⟨length', body', hcount', hbody, rfl⟩, heq⟩
    rw [List.append_assoc, List.append_assoc] at heq
    obtain ⟨hlength, heq⟩ := CountForm.determines hcount hcount' heq
    obtain ⟨rfl, hrest⟩ := List.append_inj heq hlength
    exact ⟨hbody, hrest.symm⟩
  · rintro ⟨hbody, rfl⟩
    exact ⟨_, ⟨length, body, hcount, hbody, rfl⟩, rfl⟩

-- Reading accepts the instructions spelled one after the other and nothing else,
-- and a length in front confines it to the bytes that the length spans.
theorem ofBytes_eq_ok_iff_flatten (body : Bytes) :
    (∀ script, ofBytes body = .ok script ↔
      ∃ parts, List.Forall₂ ItemForm script parts ∧ body = parts.flatten) ∧
    (body.Addressable → ∀ suffix script rest,
      read.run (writeVarInt body.length ++ body ++ suffix) = .ok (script, rest) ↔
        ofBytes body = .ok script ∧ rest = suffix) := by
  constructor
  · intro script
    rw [ofBytes_eq_ok_iff, Form.sequence_iff_flatten]
  · intro hlength suffix script rest
    exact read_count_append_iff (.of_writeVarInt hlength)

-- A push that runs past the end of its frame is refused, although the bytes that
-- follow the frame would complete it.
theorem ofBytes_eq_ok_iff_flatten_straddling_push :
    ofBytes [1, 0xaa] = .ok [.push [0xaa]] ∧ Bytes.Addressable [1, 0xaa] ∧
      read.run (writeVarInt 2 ++ [1, 0xaa] ++ [0xbb]) = .ok ([.push [0xaa]], [0xbb]) ∧
      ofBytes [2, 0xaa] = .error (.script (.missingData 2)) ∧ Bytes.Addressable [2, 0xaa] ∧
      ∀ script rest, read.run (writeVarInt 2 ++ [2, 0xaa] ++ [0xbb]) ≠ .ok (script, rest) := by
  have hspelled : ItemForm (.push [0xaa]) [1, 0xaa] := .direct (by decide) (by decide)
  have hread := ((ofBytes_eq_ok_iff_flatten [1, 0xaa]).1 [.push [0xaa]]).mpr
    ⟨[[1, 0xaa]], .cons hspelled .nil, rfl⟩
  have herror : ofBytes [2, 0xaa] = .error (.script (.missingData 2)) := by
    rw [ofBytes, readItems_of_read_error (by decide) rfl]
    rfl
  have hlength : Bytes.Addressable [1, 0xaa] := by
    rw [Bytes.Addressable]
    decide
  have hlength' : Bytes.Addressable [2, 0xaa] := by
    rw [Bytes.Addressable]
    decide
  refine ⟨hread, hlength, ?_, herror, hlength', fun script rest hframed => ?_⟩
  · exact ((ofBytes_eq_ok_iff_flatten [1, 0xaa]).2 hlength [0xbb] _ _).mpr ⟨hread, rfl⟩
  · have hok := (((ofBytes_eq_ok_iff_flatten [2, 0xaa]).2 hlength' [0xbb] _ _).mp hframed).1
    rw [herror] at hok
    cases hok

theorem readable_normal (script : Script) : script.normal.Readable ↔ script.Readable := by
  have hitem : ∀ item : Instruction, item.normal.Readable ↔ item.Readable := fun item =>
    iff_of_eq (Instruction.apply_normal Instruction.Readable (by simp [Instruction.Readable]) item)
  simp [Readable, normal, hitem]

theorem readable_of_same {other : Script} (h : other.same script) (hother : other.Readable) :
    script.Readable := by
  rw [← readable_normal, ← (same_iff other script).mp h, readable_normal]
  exact hother

-- The bytes are read as the script, and what is written for it is, whatever
-- follows that.
def ReadFrom (script : Script) (raw : Bytes) : Prop :=
  ∃ again : Script, again.same script ∧ ofBytes raw = .ok again ∧
    (raw.Addressable → ∃ written, script.write = .ok written ∧
      ∀ suffix, read.run (written ++ suffix) = .ok (again, suffix))

theorem Readable.readFrom (h : script.Readable) (hraw : script.bytes = .ok raw) :
    script.ReadFrom raw := by
  have hitems : Spelling.written.item.Sequence script raw := by
    rw [bytes_eq_writeAll] at hraw
    exact Form.writeAll_eq_ok_iff.mp hraw
  obtain ⟨again, hsame, -, hagain⟩ :=
    hitems.exists_isEqv fun item hitem _ => (h item hitem).exists_same_write
  have hread := ofBytes_eq_ok_iff.mpr hagain
  refine ⟨again, hsame, hread, fun hlength => ⟨_, write_of_bytes hraw, fun suffix => ?_⟩⟩
  exact (read_count_append_iff (.of_writeVarInt hlength)).mpr ⟨hread, rfl⟩

theorem ReadFrom.readable (h : script.ReadFrom raw) : script.Readable := by
  obtain ⟨again, hsame, hread, -⟩ := h
  exact readable_of_same hsame (readable_of_ofBytes hread)

theorem readable_iff : script.Readable ↔
    script.Encodable ∧ ∀ code, .op code ∈ script → ¬ (1 ≤ code ∧ code ≤ 77) := by
  constructor
  · intro h
    exact ⟨h.encodable, fun code hcode => h (.op code) hcode⟩
  · rintro ⟨hencodable, hcodes⟩ item hitem
    cases item with
    | op code => exact hcodes code hitem
    | push data => exact hencodable data hitem

-- A script is written unless a push is too long, and what is written is read back
-- as the script unless an opcode announces data.
theorem readFrom_iff (script : Script) :
    ((∃ raw, script.bytes = .ok raw) ↔ script.Encodable) ∧
    ∀ raw, script.bytes = .ok raw →
      (script.ReadFrom raw ↔ ∀ code, .op code ∈ script → ¬ (1 ≤ code ∧ code ≤ 77)) := by
  constructor
  · exact ⟨fun ⟨_, hraw⟩ => encodable_of_bytes hraw, Encodable.exists_bytes⟩
  · intro raw hraw
    constructor
    · intro h
      exact (readable_iff.mp h.readable).2
    · intro hcodes
      exact (readable_iff.mpr ⟨encodable_of_bytes hraw, hcodes⟩).readFrom hraw

-- A push between an empty push and the first opcode that announces no data.
def betweenPushAndOp (data : Bytes) : Script :=
  [.push [], .push data, .op 78]

theorem bytes_betweenPushAndOp {data : Bytes} (h : data.length = 256) :
    (betweenPushAndOp data).bytes = .ok ([0, 77, 0, 1] ++ data ++ [78]) := by
  simp [betweenPushAndOp, bytes, Instruction.write, h, maxElementLength, Bytes.ofNatLE, bind,
    Except.bind, pure, Except.pure]

-- The length of the data is the first that takes two bytes.
theorem readFrom_iff_betweenPushAndOp :
    (betweenPushAndOp (List.replicate 256 0xaa)).bytes =
        .ok ([0, 77, 0, 1] ++ List.replicate 256 0xaa ++ [78]) ∧
      (betweenPushAndOp (List.replicate 256 0xaa)).Encodable ∧
      (∀ code, .op code ∈ betweenPushAndOp (List.replicate 256 0xaa) → ¬ (1 ≤ code ∧ code ≤ 77)) ∧
      (betweenPushAndOp (List.replicate 256 0xaa)).ReadFrom
        ([0, 77, 0, 1] ++ List.replicate 256 0xaa ++ [78]) := by
  have hbytes := bytes_betweenPushAndOp (List.length_replicate (n := 256) (a := 0xaa))
  have hcodes : ∀ code, .op code ∈ betweenPushAndOp (List.replicate 256 0xaa) →
      ¬ (1 ≤ code ∧ code ≤ 77) := by
    simp [betweenPushAndOp, -List.reduceReplicate]
  obtain ⟨hencodable, hread⟩ := readFrom_iff (betweenPushAndOp (List.replicate 256 0xaa))
  exact ⟨hbytes, hencodable.mp ⟨_, hbytes⟩, hcodes, (hread _ hbytes).mpr hcodes⟩

end Script

end BitcoinSpend
