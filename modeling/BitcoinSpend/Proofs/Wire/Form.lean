import BitcoinSpend.Proofs.Wire.Integer
import BitcoinSpend.Transaction.Codec
import Mathlib.Tactic.SplitIfs

namespace BitcoinSpend

-- A form relates values to the byte strings they are spelled by.
abbrev Form (α : Type) := α → Bytes → Prop

namespace Form

variable {α : Type}

-- One item after the other, with nothing in between.
inductive Sequence (form : Form α) : Form (List α)
  | nil : Sequence form [] []
  | cons {item : α} {items : List α} {first rest : Bytes} :
      form item first → Sequence form items rest → Sequence form (item :: items) (first ++ rest)

end Form

namespace Reader

variable {α β : Type} {read : Reader α} {form form' : Form α}

-- The reader takes exactly the spellings of the form off the front of its input.
def Accepts (read : Reader α) (form : Form α) : Prop :=
  ∀ input value rest, read input = .ok (value, rest) ↔
    ∃ bytes, form value bytes ∧ input = bytes ++ rest

theorem Accepts.congr (h : read.Accepts form)
    (hforms : ∀ value bytes, form value bytes ↔ form' value bytes) : read.Accepts form' := by
  intro input value rest
  simp only [h input value rest, hforms]

theorem accepts_pure (value : α) :
    Accepts (pure value) fun other bytes => other = value ∧ bytes = [] := by
  intro input other rest
  change (.ok (value, input) : Except Error _) = .ok (other, rest) ↔ _
  constructor
  · intro h
    cases h
    exact ⟨[], ⟨rfl, rfl⟩, rfl⟩
  · rintro ⟨_, ⟨rfl, rfl⟩, rfl⟩
    rfl

theorem Accepts.bind {next : α → Reader β} {forms : α → Form β} (h : read.Accepts form)
    (hnext : ∀ value, (next value).Accepts (forms value)) :
    Accepts (read >>= next) fun result bytes => ∃ value first second,
      form value first ∧ forms value result second ∧ bytes = first ++ second := by
  intro input result rest
  change (read input >>= fun pair => next pair.1 pair.2) = _ ↔ _
  constructor
  · intro hr
    cases hread : read input with
    | error cause =>
        rw [hread] at hr
        cases hr
    | ok pair =>
        rcases pair with ⟨value, middle⟩
        rw [hread] at hr
        obtain ⟨first, hfirst, rfl⟩ := (h _ _ _).mp hread
        obtain ⟨second, hsecond, rfl⟩ := (hnext value _ _ _).mp hr
        exact ⟨_, ⟨value, first, second, hfirst, hsecond, rfl⟩, (List.append_assoc _ _ _).symm⟩
  · rintro ⟨_, ⟨value, first, second, hfirst, hsecond, rfl⟩, rfl⟩
    rw [List.append_assoc, (h _ _ _).mpr ⟨first, hfirst, rfl⟩]
    exact (hnext value _ _ _).mpr ⟨second, hsecond, rfl⟩

theorem accepts_orElse {read : Bytes → Option (α × Bytes)} {error : Error}
    (h : ∀ input value rest, read input = some (value, rest) ↔
      ∃ bytes, form value bytes ∧ input = bytes ++ rest) :
    Accepts (orElse read error) form := by
  intro input value rest
  rw [← h, orElse]
  cases read input with
  | none => simp
  | some result => simp

theorem Accepts.many (h : read.Accepts form) (count : Nat) :
    Accepts (many read count) fun items bytes =>
      items.length = count ∧ form.Sequence items bytes := by
  induction count with
  | zero =>
      refine (accepts_pure []).congr fun items bytes => ?_
      constructor
      · rintro ⟨rfl, rfl⟩
        exact ⟨rfl, .nil⟩
      · rintro ⟨hlength, hitems⟩
        cases hitems with
        | nil => exact ⟨rfl, rfl⟩
        | cons => cases hlength
  | succ count ih =>
      refine (h.bind fun first => ih.bind fun rest => accepts_pure (first :: rest)).congr
        fun items bytes => ?_
      constructor
      · rintro ⟨item, first, _, hfirst, ⟨items, rest, _, ⟨rfl, hrest⟩, ⟨rfl, rfl⟩, rfl⟩, rfl⟩
        rw [List.append_nil]
        exact ⟨rfl, .cons hfirst hrest⟩
      · rintro ⟨hlength, hitems⟩
        cases hitems with
        | nil => cases hlength
        | cons hfirst hrest =>
            refine ⟨_, _, _, hfirst, ⟨_, _, [], ⟨Nat.succ.inj hlength, hrest⟩, ⟨rfl, rfl⟩, ?_⟩, rfl⟩
            rw [List.append_nil]

end Reader

-- The forms of a count: in the first byte alone, or in as many bytes after it
-- as it says.
inductive CountForm : Form Nat
  | byte {count : Nat} : count < 0xfd → CountForm count (writeInteger 1 count)
  | two {count : Nat} : count < 0x10000 → CountForm count (0xfd :: writeInteger 2 count)
  | four {count : Nat} : count < 0x100000000 → CountForm count (0xfe :: writeInteger 4 count)
  | eight {count : Nat} : count < 0x10000000000000000 →
      CountForm count (0xff :: writeInteger 8 count)

theorem readVarInt_eq_some_iff {input rest : Bytes} {count : Nat} :
    readVarInt input = some (count, rest) ↔
      ∃ bytes, CountForm count bytes ∧ input = bytes ++ rest := by
  constructor
  · intro h
    cases input with
    | nil => cases h
    | cons first input =>
        rw [readVarInt] at h
        split_ifs at h with h2 h4 h8
        · obtain ⟨hlt, rfl⟩ := readInteger_eq_some_iff.mp h
          exact ⟨_, .two hlt, by rw [h2]; rfl⟩
        · obtain ⟨hlt, rfl⟩ := readInteger_eq_some_iff.mp h
          exact ⟨_, .four hlt, by rw [h4]; rfl⟩
        · obtain ⟨hlt, rfl⟩ := readInteger_eq_some_iff.mp h
          exact ⟨_, .eight hlt, by rw [h8]; rfl⟩
        · cases h
          have hbyte : first.toNat < 0xfd := by
            have hfirst := first.toNat_lt
            simp only [← UInt8.toNat_inj, UInt8.reduceToNat] at h2 h4 h8
            omega
          exact ⟨_, .byte hbyte, by simp [writeInteger, Bytes.ofNatLE]⟩
  · rintro ⟨bytes, hbytes, rfl⟩
    cases hbytes with
    | byte hlt =>
        have hvalue : (UInt8.ofNat count).toNat = count := by
          rw [UInt8.toNat_ofNat']
          omega
        change readVarInt (UInt8.ofNat count :: rest) = _
        rw [readVarInt, if_neg, if_neg, if_neg, hvalue]
        all_goals
          simp only [← UInt8.toNat_inj, hvalue, UInt8.reduceToNat]
          omega
    | two hlt =>
        change readInteger 2 (writeInteger 2 count ++ rest) = _
        exact readInteger_eq_some_iff.mpr ⟨hlt, rfl⟩
    | four hlt =>
        change readInteger 4 (writeInteger 4 count ++ rest) = _
        exact readInteger_eq_some_iff.mpr ⟨hlt, rfl⟩
    | eight hlt =>
        change readInteger 8 (writeInteger 8 count ++ rest) = _
        exact readInteger_eq_some_iff.mpr ⟨hlt, rfl⟩

-- The forms of an instruction. Data is spelled behind its length, which the
-- first byte holds itself or leaves to the one or two bytes after it.
inductive ItemForm : Form Instruction
  | op {code : UInt8} : code = 0 ∨ 78 ≤ code → ItemForm (.op code) [code]
  | direct {data : Bytes} : 1 ≤ data.length → data.length ≤ 75 →
      ItemForm (.push data) (UInt8.ofNat data.length :: data)
  | one {data : Bytes} : data.length ≤ 255 →
      ItemForm (.push data) (76 :: (Bytes.ofNatLE 1 data.length ++ data))
  | two {data : Bytes} : data.length ≤ maxElementLength →
      ItemForm (.push data) (77 :: (Bytes.ofNatLE 2 data.length ++ data))

theorem ItemForm.ne_nil {item : Instruction} {bytes : Bytes} (h : ItemForm item bytes) :
    bytes ≠ [] := by
  cases h <;> exact List.cons_ne_nil _ _

-- What can be read: no opcode that announces data, and no data that is too long.
def Instruction.Readable : Instruction → Prop
  | op code => ¬ (1 ≤ code ∧ code ≤ 77)
  | push data => data.length ≤ maxElementLength

theorem ItemForm.readable {item : Instruction} {bytes : Bytes} (h : ItemForm item bytes) :
    item.Readable := by
  cases h with
  | op hcode =>
      rw [Instruction.Readable]
      grind
  | direct _ hle => exact Nat.le_trans hle (by decide)
  | one hle => exact Nat.le_trans hle (by decide)
  | two hle => exact hle

namespace Instruction

theorem readData_eq_ok_iff {length : Nat} {input rest : Bytes} {item : Instruction} :
    readData length input = .ok (item, rest) ↔
      ∃ data, item = .push data ∧ data.length = length ∧ length ≤ maxElementLength ∧
        input = data ++ rest := by
  unfold readData
  constructor
  · intro h
    split_ifs at h with hlong
    split at h
    · cases h
    next data rest' ht =>
      cases h
      obtain ⟨rfl, hlength⟩ := Bytes.take?_eq_some_iff.mp ht
      exact ⟨data, rfl, hlength, Nat.le_of_not_lt hlong, rfl⟩
  · rintro ⟨data, rfl, hlength, hlong, rfl⟩
    rw [if_neg (Nat.not_lt.mpr hlong), Bytes.take?_eq_some_iff.mpr ⟨rfl, hlength⟩]

-- The two readings that take the length from the bytes after the code differ in
-- how many those are.
theorem readData_take?_iff (error : Error) {size : Nat} {input rest : Bytes} {item : Instruction} :
    (match Bytes.take? size input with
      | none => (.error error : Except Error (Instruction × Bytes))
      | some (length, rest) => readData (Bytes.toNatLE length) rest) = .ok (item, rest) ↔
      ∃ data, item = .push data ∧ data.length < 256 ^ size ∧ data.length ≤ maxElementLength ∧
        input = Bytes.ofNatLE size data.length ++ data ++ rest := by
  constructor
  · intro h
    split at h
    · cases h
    next length rest' ht =>
      obtain ⟨rfl, hsize⟩ := Bytes.take?_eq_some_iff.mp ht
      obtain ⟨data, rfl, hlength, hlong, rfl⟩ := readData_eq_ok_iff.mp h
      have hlt := Bytes.toNatLE_lt length
      rw [hsize] at hlt
      refine ⟨data, rfl, hlength ▸ hlt, hlength ▸ hlong, ?_⟩
      rw [hlength, ← hsize, Bytes.ofNatLE_toNatLE, List.append_assoc]
  · rintro ⟨data, rfl, hlt, hlong, rfl⟩
    rw [List.append_assoc, Bytes.take?_eq_some_iff.mpr ⟨rfl, Bytes.length_ofNatLE _ _⟩]
    simp only [Bytes.toNatLE_ofNatLE, Nat.mod_eq_of_lt hlt]
    exact readData_eq_ok_iff.mpr ⟨data, rfl, rfl, hlong, rfl⟩

theorem accepts_read : Reader.Accepts read ItemForm := by
  intro input item rest
  constructor
  · intro h
    cases input with
    | nil => cases h
    | cons code input =>
        simp only [read] at h
        split_ifs at h with hdirect hone htwo
        · obtain ⟨data, rfl, hlength, -, rfl⟩ := readData_eq_ok_iff.mp h
          obtain ⟨hpos, hle⟩ := hdirect
          simp only [UInt8.le_iff_toNat_le, UInt8.reduceToNat] at hpos hle
          refine ⟨_, .direct (by omega) (by omega), ?_⟩
          rw [hlength, UInt8.ofNat_toNat, List.cons_append]
        · obtain ⟨data, rfl, hlt, -, rfl⟩ := (readData_take?_iff _).mp h
          exact ⟨_, .one (Nat.le_of_lt_succ hlt), by rw [hone]; rfl⟩
        · obtain ⟨data, rfl, -, hlong, rfl⟩ := (readData_take?_iff _).mp h
          exact ⟨_, .two hlong, by rw [htwo]; rfl⟩
        · cases h
          exact ⟨_, .op (by grind), rfl⟩
  · rintro ⟨bytes, hbytes, rfl⟩
    cases hbytes with
    | @op code h =>
        rw [List.cons_append, read, if_neg (by grind), if_neg (by grind), if_neg (by grind)]
        rfl
    | @direct data hpos hle =>
        have hvalue : (UInt8.ofNat data.length).toNat = data.length := by
          rw [UInt8.toNat_ofNat']
          omega
        have hcode : 1 ≤ UInt8.ofNat data.length ∧ UInt8.ofNat data.length ≤ 75 := by
          rw [UInt8.le_iff_toNat_le, UInt8.le_iff_toNat_le, hvalue]
          exact ⟨hpos, hle⟩
        rw [List.cons_append, read, if_pos hcode, hvalue]
        exact readData_eq_ok_iff.mpr ⟨data, rfl, rfl, Nat.le_trans hle (by decide), rfl⟩
    | @one data hle =>
        have hlt : data.length < 256 ^ 1 := Nat.lt_succ_of_le hle
        have hlong : data.length ≤ maxElementLength := Nat.le_trans hle (by decide)
        rw [List.cons_append, read, if_neg (by decide), if_pos rfl]
        exact (readData_take?_iff (.script (.missingPushLength 76))).mpr
          ⟨data, rfl, hlt, hlong, rfl⟩
    | @two data hle =>
        have hlt : data.length < 256 ^ 2 := Nat.lt_of_le_of_lt hle (by decide)
        rw [List.cons_append, read, if_neg (by decide), if_neg (by decide), if_pos rfl]
        exact (readData_take?_iff (.script (.missingPushLength 77))).mpr
          ⟨data, rfl, hlt, hle, rfl⟩

end Instruction

namespace Script

theorem readItems_eq_ok_iff {declared consumed : Nat} {input rest : Bytes} {items : Script} :
    readItems declared consumed input = .ok (items, rest) ↔
      ∃ body, ItemForm.Sequence items body ∧ consumed + body.length = declared ∧
        input = body ++ rest := by
  constructor
  · intro h
    fun_induction readItems declared consumed input generalizing items rest with
    | case1 => cases h
    | case2 => simp_all
    | case3 =>
        rename_i item after hr tail rest' ht ih
        cases h
        obtain ⟨first, hfirst, rfl⟩ := (Instruction.accepts_read _ _ _).mp hr
        obtain ⟨body, hbody, hlength, rfl⟩ := ih ht
        refine ⟨first ++ body, .cons hfirst hbody, ?_, (List.append_assoc _ _ _).symm⟩
        simp only [List.length_append] at hlength ⊢
        omega
    | case4 =>
        cases h
        exact ⟨[], .nil, rfl, rfl⟩
    | case5 => cases h
  · rintro ⟨body, hbody, hlength, rfl⟩
    induction hbody generalizing consumed with
    | nil =>
        rw [← hlength]
        exact readItems_self consumed rest
    | @cons item items first body hfirst _ ih =>
        have hpos := List.length_pos_iff.mpr hfirst.ne_nil
        have hread : Instruction.read (first ++ (body ++ rest)) = .ok (item, body ++ rest) :=
          (Instruction.accepts_read _ _ _).mpr ⟨first, hfirst, rfl⟩
        have hconsumed :
            (first ++ (body ++ rest)).length - (body ++ rest).length = first.length := by
          rw [List.length_append, Nat.add_sub_cancel]
        rw [List.length_append] at hlength
        rw [List.append_assoc, readItems_of_read (by omega) hread, hconsumed, ih (by omega)]
        rfl

theorem ofBytes_eq_ok_iff {input : Bytes} {script : Script} :
    ofBytes input = .ok script ↔ ItemForm.Sequence script input := by
  have hread : ofBytes input = .ok script ↔
      ∃ rest, readItems input.length 0 input = .ok (script, rest) := by
    rw [ofBytes]
    cases readItems input.length 0 input with
    | error cause => simp [bind, Except.bind]
    | ok pair => simp [bind, Except.bind, pure, Except.pure, Prod.ext_iff]
  rw [hread]
  constructor
  · rintro ⟨rest, h⟩
    obtain ⟨body, hbody, hlength, hinput⟩ := readItems_eq_ok_iff.mp h
    have hrest : rest = [] := by
      have hl := congrArg List.length hinput
      rw [List.length_append] at hl
      exact List.length_eq_zero_iff.mp (by omega)
    rw [hinput, hrest, List.append_nil]
    exact hbody
  · intro h
    exact ⟨[], readItems_eq_ok_iff.mpr ⟨input, h, Nat.zero_add _, (List.append_nil _).symm⟩⟩

theorem exists_bytes_ofBytes {script : Script}
    (h : ∀ item ∈ script, ∃ written, item.write = .ok written ∧ ItemForm item written) :
    ∃ raw, script.bytes = .ok raw ∧ ofBytes raw = .ok script := by
  suffices hraw : ∃ raw, script.bytes = .ok raw ∧ ItemForm.Sequence script raw by
    obtain ⟨raw, hbytes, hform⟩ := hraw
    exact ⟨raw, hbytes, ofBytes_eq_ok_iff.mpr hform⟩
  induction script with
  | nil => exact ⟨[], rfl, .nil⟩
  | cons item items ih =>
      obtain ⟨⟨first, hfirst, hform⟩, hitems⟩ := List.forall_mem_cons.mp h
      obtain ⟨rest, hrest, hforms⟩ := ih hitems
      exact ⟨first ++ rest, by rw [bytes, hfirst, hrest]; rfl, .cons hform hforms⟩

end Script

end BitcoinSpend
