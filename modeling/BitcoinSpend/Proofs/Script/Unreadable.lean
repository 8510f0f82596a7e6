import BitcoinSpend.Proofs.Script.Isolation

namespace BitcoinSpend

namespace Instruction

end Instruction

namespace Script

end Script

namespace Branches

def items (branches : Branches) : Script :=
  branches.first ++ branches.second ++ branches.rest

theorem items_cons_subset (inSecond : Bool) (item : Instruction) (branches : Branches) :
    (branches.cons inSecond item).items ⊆ item :: branches.items := by
  intro other
  cases inSecond with
  | false => simp [cons, items]
  | true =>
      simp [cons, items]
      tauto

theorem items_split_subset {depth : Nat} {inSecond : Bool} {program : Script}
    {branches : Branches} (h : split depth inSecond program = some branches) :
    branches.items ⊆ program := by
  induction program generalizing depth inSecond branches with
  | nil => cases h
  | cons item rest ih =>
      have keep : ∀ {depth : Nat} {inSecond : Bool} {branches : Branches},
          (split depth inSecond rest).map (cons inSecond item) = some branches →
            branches.items ⊆ item :: rest := by
        intro depth inSecond branches h
        obtain ⟨inner, hinner, rfl⟩ := Option.map_eq_some_iff.mp h
        exact List.Subset.trans (items_cons_subset inSecond item inner)
          (List.cons_subset_cons item (ih hinner))
      rw [split] at h
      split_ifs at h
      · exact keep h
      · exact List.Subset.trans (ih h) (List.subset_cons_self item rest)
      · cases h
        simp [items]
      · exact keep h
      · exact keep h

theorem resume_subset (branches : Branches) (condition : Bool) :
    branches.resume condition ⊆ branches.items := by
  intro item
  cases condition <;> simp [resume, items] <;> tauto

end Branches

namespace Machine

theorem operate_subset {setting : Setting} {m next : Machine} {operation : Operation}
    (h : m.operate setting operation = some next) : next.program ⊆ m.program := by
  cases operation with
  | stack op =>
      obtain ⟨_, _, rfl⟩ := Option.map_eq_some_iff.mp h
      exact List.Subset.refl _
  | branch wanted =>
      simp only [operate, branch] at h
      split at h
      · cases h
      · obtain ⟨branches, hsplit, hnext⟩ := Option.bind_eq_some_iff.mp h
        cases hnext
        exact List.Subset.trans (Branches.resume_subset _ _) (Branches.items_split_subset hsplit)
  | transfer op =>
      obtain ⟨_, _, rfl⟩ := Option.map_eq_some_iff.mp h
      exact List.Subset.refl _
  | signature op =>
      obtain ⟨_, _, rfl⟩ := Option.map_eq_some_iff.mp h
      exact List.Subset.refl _
  | lock op =>
      obtain ⟨_, _, hlock⟩ := Option.bind_eq_some_iff.mp h
      obtain ⟨_, _, rfl⟩ := Option.map_eq_some_iff.mp hlock
      exact List.Subset.refl _

end Machine

namespace Script

end Script

end BitcoinSpend
