import BitcoinSpend.Proofs.Script.Shortest

namespace BitcoinSpend

namespace ScriptNumber

-- A number that an element stands for.
def IsNumber (value : Int) : Prop :=
  ∃ element, decode element = some value

theorem isNumber_iff {value : Int} : IsNumber value ↔ -wordBound < value ∧ value < wordBound := by
  have hbound : value.natAbs < 0x8000000000000000 ↔ -wordBound < value ∧ value < wordBound := by
    rw [wordBound]
    omega
  rw [← hbound]
  constructor
  · rintro ⟨element, h⟩
    exact natAbs_lt_of_decode h
  · intro h
    exact ⟨encode value, decode_encode h⟩

theorem decode_encode_of_isNumber {value : Int} (h : IsNumber value) :
    decode (encode value) = some value := by
  obtain ⟨element, helement⟩ := h
  exact decode_encode (natAbs_lt_of_decode helement)

-- The words are the numbers and one more, below them all.
theorem isWord_iff {value : Int} :
    -wordBound ≤ value ∧ value < wordBound ↔ IsNumber value ∨ value = -wordBound := by
  rw [isNumber_iff, wordBound]
  omega

-- Its magnitude takes all bits of eight bytes, and the sign takes a ninth.
theorem encode_lowest : encode (-wordBound) = [0, 0, 0, 0, 0, 0, 0, 0x80, 0x80] := by
  simp [encode, Bytes.minimalLE, digits, wordBound]

theorem decode_encode_lowest : decode (encode (-wordBound)) = none := by
  rw [encode_lowest]
  rfl

end ScriptNumber

open ScriptNumber (IsNumber encode decode)

-- The numbers on a stack in the order in which they were pushed, and what lies below.
def Stack.Holds (stack : Stack) (values : List Int) (below : Stack) : Prop :=
  ∃ elements : List Bytes, elements.map decode = values.map some ∧ stack = elements.reverse ++ below

theorem Stack.Holds.isNumber {stack below : Stack} {values : List Int}
    (h : stack.Holds values below) : ∀ value ∈ values, IsNumber value := by
  obtain ⟨elements, hdecode, -⟩ := h
  intro value hvalue
  have hmem : some value ∈ elements.map decode := hdecode ▸ List.mem_map_of_mem hvalue
  obtain ⟨element, -, helement⟩ := List.mem_map.mp hmem
  exact ⟨element, helement⟩

theorem Stack.holds_singleton_iff {stack below : Stack} {a : Int} :
    stack.Holds [a] below ↔ ∃ element, decode element = some a ∧ stack = element :: below := by
  constructor
  · rintro ⟨elements, hdecode, rfl⟩
    obtain ⟨element, rfl, ha⟩ := List.map_eq_singleton_iff.mp hdecode
    exact ⟨element, ha, rfl⟩
  · rintro ⟨element, ha, rfl⟩
    exact ⟨[element], by rw [List.map_singleton, ha]; rfl, rfl⟩

theorem Stack.holds_pair_iff {stack below : Stack} {a b : Int} :
    stack.Holds [a, b] below ↔ ∃ left right, decode left = some a ∧ decode right = some b ∧
      stack = right :: left :: below := by
  constructor
  · rintro ⟨elements, hdecode, rfl⟩
    obtain ⟨left, elements, rfl, ha, hrest⟩ := List.map_eq_cons_iff.mp hdecode
    obtain ⟨right, rfl, hb⟩ := List.map_eq_singleton_iff.mp hrest
    exact ⟨left, right, ha, hb, rfl⟩
  · rintro ⟨left, right, ha, hb, rfl⟩
    exact ⟨[left, right], by simp [ha, hb], rfl⟩

namespace StackOp

-- What arithmetic makes of its operands, in the order in which they were pushed.
inductive Computes : StackOp → List Int → Int → Prop where
  | add1 (a : Int) : Computes (.unary .add1) [a] (a + 1)
  | sub1 (a : Int) : Computes (.unary .sub1) [a] (a - 1)
  | negate (a : Int) : Computes (.unary .negate) [a] (-a)
  | abs (a : Int) : Computes (.unary .abs) [a] |a|
  | add (a b : Int) : Computes (.binary .add) [a, b] (a + b)
  | sub (a b : Int) : Computes (.binary .sub) [a, b] (a - b)
  | mul (a b : Int) : Computes (.binary .mul) [a, b] (a * b)
  | min (a b : Int) : Computes (.binary .min) [a, b] (min a b)
  | max (a b : Int) : Computes (.binary .max) [a, b] (max a b)

-- Arithmetic whose result is not a truth value.
def IsArithmetic (op : StackOp) : Prop :=
  ∃ values result, op.Computes values result

-- OP_1ADD, OP_1SUB, OP_NEGATE, OP_ABS, OP_ADD, OP_SUB, OP_MUL, OP_MIN and OP_MAX.
def arithmeticCodes : List UInt8 :=
  [139, 140, 143, 144, 147, 148, 149, 163, 164]

theorem exists_isArithmetic {code : UInt8} (hcode : code ∈ arithmeticCodes) :
    ∃ op : StackOp, Opcode.operation? code = some (.stack op) ∧ op.IsArithmetic := by
  simp only [arithmeticCodes, List.mem_cons, List.not_mem_nil, or_false] at hcode
  rcases hcode with rfl | rfl | rfl | rfl | rfl | rfl | rfl | rfl | rfl
  exacts [⟨_, rfl, _, _, .add1 0⟩, ⟨_, rfl, _, _, .sub1 0⟩, ⟨_, rfl, _, _, .negate 0⟩,
    ⟨_, rfl, _, _, .abs 0⟩, ⟨_, rfl, _, _, .add 0 0⟩, ⟨_, rfl, _, _, .sub 0 0⟩,
    ⟨_, rfl, _, _, .mul 0 0⟩, ⟨_, rfl, _, _, .min 0 0⟩, ⟨_, rfl, _, _, .max 0 0⟩]

theorem result_abs (a : Int) : UnaryOp.abs.result a = |a| :=
  (Int.abs_eq_natAbs a).symm

theorem result_min (a b : Int) : BinaryOp.min.result a b = min a b :=
  (min_def a b).symm

theorem result_max (a b : Int) : BinaryOp.max.result a b = max a b :=
  (max_def a b).symm

theorem computes_unary_iff {op : UnaryOp} (hop : IsArithmetic (.unary op)) {values : List Int}
    {result : Int} :
    Computes (.unary op) values result ↔ ∃ a, values = [a] ∧ result = op.result a := by
  constructor
  · intro h
    cases h with
    | abs a => exact ⟨a, rfl, (result_abs a).symm⟩
    | add1 a | sub1 a | negate a => exact ⟨a, rfl, rfl⟩
  · rintro ⟨a, rfl, rfl⟩
    obtain ⟨_, _, h⟩ := hop
    cases h with
    | add1 => exact .add1 a
    | sub1 => exact .sub1 a
    | negate => exact .negate a
    | abs => rw [result_abs]; exact .abs a

theorem computes_binary_iff {op : BinaryOp} (hop : IsArithmetic (.binary op)) {values : List Int}
    {result : Int} :
    Computes (.binary op) values result ↔ ∃ a b, values = [a, b] ∧ result = op.result a b := by
  constructor
  · intro h
    cases h with
    | min a b => exact ⟨a, b, rfl, (result_min a b).symm⟩
    | max a b => exact ⟨a, b, rfl, (result_max a b).symm⟩
    | add a b | sub a b | mul a b => exact ⟨a, b, rfl, rfl⟩
  · rintro ⟨a, b, rfl, rfl⟩
    obtain ⟨_, _, h⟩ := hop
    cases h with
    | add => exact .add a b
    | sub => exact .sub a b
    | mul => exact .mul a b
    | min => rw [result_min]; exact .min a b
    | max => rw [result_max]; exact .max a b

theorem IsArithmetic.unary_or_binary {op : StackOp} (hop : op.IsArithmetic) :
    (∃ operation, op = .unary operation) ∨ ∃ operation, op = .binary operation := by
  obtain ⟨_, _, h⟩ := hop
  cases h with
  | add1 | sub1 | negate | abs => exact .inl ⟨_, rfl⟩
  | add | sub | mul | min | max => exact .inr ⟨_, rfl⟩

theorem IsArithmetic.apply_eq_some_iff {op : StackOp} (hop : op.IsArithmetic)
    {stack after : Stack} :
    op.apply stack = some after ↔ ∃ values result below,
      stack.Holds values below ∧ op.Computes values result ∧
        (IsNumber result ∨ result = -wordBound) ∧ after = encode result :: below := by
  simp only [← ScriptNumber.isWord_iff, ← pushNumber_eq_some_iff]
  rcases hop.unary_or_binary with ⟨op, rfl⟩ | ⟨op, rfl⟩
  · simp only [apply, applyUnary_eq_some_iff, computes_unary_iff hop]
    constructor
    · rintro ⟨element, below, a, rfl, ha, hpush⟩
      exact ⟨[a], _, below, Stack.holds_singleton_iff.mpr ⟨element, ha, rfl⟩, ⟨a, rfl, rfl⟩, hpush⟩
    · rintro ⟨_, _, below, hholds, ⟨a, rfl, rfl⟩, hpush⟩
      obtain ⟨element, ha, rfl⟩ := Stack.holds_singleton_iff.mp hholds
      exact ⟨element, below, a, rfl, ha, hpush⟩
  · simp only [apply, applyBinary_eq_some_iff, computes_binary_iff hop]
    constructor
    · rintro ⟨left, right, below, a, b, rfl, ⟨ha, hb⟩, hpush⟩
      exact ⟨[a, b], _, below, Stack.holds_pair_iff.mpr ⟨left, right, ha, hb, rfl⟩,
        ⟨a, b, rfl, rfl⟩, hpush⟩
    · rintro ⟨_, _, below, hholds, ⟨a, b, rfl, rfl⟩, hpush⟩
      obtain ⟨left, right, ha, hb, rfl⟩ := Stack.holds_pair_iff.mp hholds
      exact ⟨left, right, below, a, b, rfl, ⟨ha, hb⟩, hpush⟩

-- The operations that come to the lowest word from numbers.
def overflowing : List StackOp :=
  [.unary .sub1, .binary .add, .binary .sub, .binary .mul]

theorem mem_overflowing_of_computes {op : StackOp} {values : List Int}
    (hvalues : ∀ value ∈ values, IsNumber value) (h : op.Computes values (-wordBound)) :
    op ∈ overflowing := by
  simp only [ScriptNumber.isNumber_iff] at hvalues
  generalize hresult : -wordBound = result at h
  cases h with
  | sub1 | add | sub | mul => decide
  | add1 a =>
      have ha := hvalues a (by simp)
      omega
  | negate a =>
      have ha := hvalues a (by simp)
      omega
  | abs a =>
      have ha := hvalues a (by simp)
      have hnonneg := abs_nonneg a
      have hpos : 0 < wordBound := by decide
      omega
  | min a b =>
      have ha := hvalues a (by simp)
      have hb := hvalues b (by simp)
      omega
  | max a b =>
      have ha := hvalues a (by simp)
      have hb := hvalues b (by simp)
      omega

-- Every one of them does.
theorem exists_computes_lowest {op : StackOp} (hop : op ∈ overflowing) :
    ∃ values, (∀ value ∈ values, IsNumber value) ∧ op.Computes values (-wordBound) := by
  simp only [ScriptNumber.isNumber_iff]
  simp only [overflowing, List.mem_cons, List.not_mem_nil, or_false] at hop
  rcases hop with rfl | rfl | rfl | rfl
  · exact ⟨[1 - wordBound], by decide, .sub1 (1 - wordBound)⟩
  · exact ⟨[1 - wordBound, -1], by decide, .add (1 - wordBound) (-1)⟩
  · exact ⟨[1 - wordBound, 1], by decide, .sub (1 - wordBound) 1⟩
  · exact ⟨[-2 ^ 62, 2], by decide, .mul (-2 ^ 62) 2⟩

theorem exists_holds {values : List Int} (h : ∀ value ∈ values, IsNumber value) (below : Stack) :
    ∃ stack : Stack, stack.Holds values below := by
  refine ⟨(values.map encode).reverse ++ below, values.map encode, ?_, rfl⟩
  rw [List.map_map]
  exact List.map_congr_left fun value hvalue =>
    ScriptNumber.decode_encode_of_isNumber (h value hvalue)

-- An operation leaves what is not a number if it comes to the lowest word.
theorem IsArithmetic.exists_not_number_iff {op : StackOp} (hop : op.IsArithmetic) :
    (∃ (stack : Stack) (made : Bytes) (below : Stack),
      op.apply stack = some (made :: below) ∧ decode made = none) ↔ op ∈ overflowing := by
  constructor
  · rintro ⟨stack, made, below, happly, hmade⟩
    obtain ⟨values, result, _, hholds, hcomputes, hword, hafter⟩ :=
      hop.apply_eq_some_iff.mp happly
    cases hafter
    have hlowest : result = -wordBound := by
      refine hword.resolve_left fun hnumber => ?_
      rw [ScriptNumber.decode_encode_of_isNumber hnumber] at hmade
      cases hmade
    exact mem_overflowing_of_computes hholds.isNumber (hlowest ▸ hcomputes)
  · intro hmem
    obtain ⟨values, hvalues, hcomputes⟩ := exists_computes_lowest hmem
    obtain ⟨stack, hholds⟩ := exists_holds hvalues []
    refine ⟨stack, encode (-wordBound), [], ?_, ScriptNumber.decode_encode_lowest⟩
    exact hop.apply_eq_some_iff.mpr ⟨values, _, [], hholds, hcomputes, .inr rfl, rfl⟩

-- Arithmetic replaces its operands by the exact result. A signed word holds one number
-- more than an element, and that one is written as an element that is not a number.
theorem apply_arithmetic {code : UInt8} (hcode : code ∈ arithmeticCodes) :
    ∃ op : StackOp, Opcode.operation? code = some (.stack op) ∧
      (∀ stack after : Stack, op.apply stack = some after ↔ ∃ values result below,
        stack.Holds values below ∧ op.Computes values result ∧
          (IsNumber result ∨ result = -wordBound) ∧ after = encode result :: below) ∧
      (∀ result, IsNumber result → decode (encode result) = some result) ∧
      decode (encode (-wordBound)) = none ∧
      ((∃ (stack : Stack) (made : Bytes) (below : Stack),
        op.apply stack = some (made :: below) ∧ decode made = none) ↔ op ∈ overflowing) := by
  obtain ⟨op, hoperation, hop⟩ := exists_isArithmetic hcode
  refine ⟨op, hoperation, ?_, ?_, ScriptNumber.decode_encode_lowest, hop.exists_not_number_iff⟩
  · intro stack after
    exact hop.apply_eq_some_iff
  · intro result
    exact ScriptNumber.decode_encode_of_isNumber

-- A product that is the lowest word, over an element that stays.
theorem apply_arithmetic_lowest_product :
    149 ∈ arithmeticCodes ∧ ∃ op : StackOp, Opcode.operation? 149 = some (.stack op) ∧
      op.apply [[0x02], [0, 0, 0, 0, 0, 0, 0, 0xc0], [0x07]] =
        some [[0, 0, 0, 0, 0, 0, 0, 0x80, 0x80], [0x07]] := by
  have hcode : 149 ∈ arithmeticCodes := by decide
  have hholds : Stack.Holds [[0x02], [0, 0, 0, 0, 0, 0, 0, 0xc0], [0x07]] [-2 ^ 62, 2] [[0x07]] :=
    Stack.holds_pair_iff.mpr ⟨_, _, by decide, by decide, rfl⟩
  obtain ⟨op, hoperation, happly, -⟩ := apply_arithmetic hcode
  refine ⟨hcode, op, hoperation, (happly _ _).mpr ?_⟩
  cases hoperation
  exact ⟨_, -wordBound, _, hholds, .mul (-2 ^ 62) 2, .inr rfl, by rw [ScriptNumber.encode_lowest]⟩

-- One less than the lowest number.
theorem not_forall_apply_arithmetic_exact :
    ¬ ∀ code ∈ arithmeticCodes, ∃ op : StackOp, Opcode.operation? code = some (.stack op) ∧
      ∀ stack after : Stack, op.apply stack = some after ↔ ∃ values result below made,
        stack.Holds values below ∧ op.Computes values result ∧
          decode made = some result ∧ after = made :: below := by
  intro h
  obtain ⟨op, hoperation, hexact⟩ := h 140 (by decide)
  cases hoperation
  have hop : IsArithmetic (.unary .sub1) := ⟨_, _, .sub1 0⟩
  have hholds : Stack.Holds [List.replicate 8 0xff] [1 - wordBound] [] :=
    Stack.holds_singleton_iff.mpr ⟨_, by decide, rfl⟩
  have happly : apply (.unary .sub1) [List.replicate 8 0xff] = some [encode (-wordBound)] :=
    hop.apply_eq_some_iff.mpr ⟨_, -wordBound, _, hholds, .sub1 (1 - wordBound), .inr rfl, rfl⟩
  obtain ⟨_, _, _, made, -, -, hmade, hafter⟩ := (hexact _ _).mp happly
  cases hafter
  rw [ScriptNumber.decode_encode_lowest] at hmade
  cases hmade

end StackOp

end BitcoinSpend
