import BitcoinSpend.Error

namespace BitcoinSpend

theorem bind_eq_ok_iff {ε α β : Type} {x : Except ε α} {f : α → Except ε β} {result : β} :
    (x >>= f) = .ok result ↔ ∃ value, x = .ok value ∧ f value = .ok result := by
  cases x with
  | error cause => simp [bind, Except.bind]
  | ok value => simp [bind, Except.bind]

theorem bind_eq_error_iff {ε α β : Type} {x : Except ε α} {f : α → Except ε β} {cause : ε} :
    (x >>= f) = .error cause ↔
      x = .error cause ∨ ∃ value, x = .ok value ∧ f value = .error cause := by
  cases x with
  | error other => simp [bind, Except.bind]
  | ok value => simp [bind, Except.bind]

-- What comes after and cannot fail adds no error.
theorem bind_pure_eq_error_iff {ε α β : Type} {x : Except ε α} {f : α → β} {cause : ε} :
    (x >>= fun value => pure (f value)) = .error cause ↔ x = .error cause := by
  cases x with
  | error other => simp [bind, Except.bind]
  | ok value => simp [bind, Except.bind, pure, Except.pure]

-- A check passes when its condition does not hold.
theorem unless_eq_ok_iff {ε α : Type} {condition : Prop} [Decidable condition] {error : ε}
    {next : PUnit → Except ε α} {result : α} :
    (if condition then throw error >>= next else next ⟨⟩) = .ok result ↔
      ¬ condition ∧ next ⟨⟩ = .ok result := by
  by_cases h : condition
  · rw [if_pos h]
    constructor
    · intro hthrown
      cases hthrown
    · rintro ⟨hnot, -⟩
      exact absurd h hnot
  · rw [if_neg h, and_iff_right h]

-- Takes a value off the front of the input.
abbrev Reader := StateT Bytes (Except Error)

namespace Reader

-- A reader that can only run out of input, with what to report then.
def orElse {α : Type} (read : Bytes → Option (α × Bytes)) (error : Error) : Reader α :=
  fun input =>
    match read input with
    | none => .error error
    | some result => .ok result

def many {α : Type} (read : Reader α) : (count : Nat) → Reader (List α)
  | 0 => pure []
  | count + 1 => do
      let first ← read
      let rest ← many read count
      return first :: rest

end Reader

end BitcoinSpend
