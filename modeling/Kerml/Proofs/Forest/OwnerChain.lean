import Kerml.Proofs.Forest.Preorder

/-!
# Chains of owners

In a well-formed forest the chain of a declaration ends at a root, and it holds all that the
declaration is within.
-/
namespace Kerml.Forest

variable {f g : Forest} {d o : ElementId}

/-- A chain is the same where all that is on it has the same owner. -/
theorem ownerChain_congr (h : ∀ e ∈ f.ownerChain d, g.owner e = f.owner e) :
    g.ownerChain d = f.ownerChain d := by
  induction hn : d.index using Nat.strongRecOn generalizing d with
  | _ n ih =>
    have howner : g.owner d = f.owner d := h d (by rw [ownerChain]; exact List.mem_cons_self)
    rw [ownerChain] at h
    rw [ownerChain, ownerChain, howner]
    cases ho : f.owner d with
    | none => rfl
    | some o =>
      by_cases hlt : o.index < d.index
      · simp only [hlt, dite_true]
        rw [ih o.index (hn ▸ hlt) _ rfl]
        intro e he
        exact h e (by simp [ho, hlt, he])
      · simp only [hlt, dite_false]

namespace WellFormed

/-- A chain without the bound that makes its definition end. -/
theorem ownerChain_eq (h : f.WellFormed) (d : ElementId) :
    f.ownerChain d = d :: ((f.owner d).map f.ownerChain).getD [] := by
  rw [ownerChain]
  cases ho : f.owner d with
  | none => rfl
  | some o => simp [h.owner_lt ho]

theorem mem_ownerChain_iff (h : f.WellFormed) : o ∈ f.ownerChain d ↔ f.Within d o := by
  induction hn : d.index using Nat.strongRecOn generalizing d with
  | _ n ih =>
    rw [h.ownerChain_eq, List.mem_cons]
    cases hd : f.owner d with
    | none =>
      refine ⟨?_, fun hw => Or.inl (eq_of_within_of_owner_none hw hd).symm⟩
      rintro (rfl | hmem)
      · exact .refl
      · cases hmem
    | some p =>
      have hp := ih p.index (hn ▸ h.owner_lt hd) (d := p) rfl
      rw [Option.map_some, Option.getD_some, hp]
      constructor
      · rintro (rfl | hw)
        · exact .refl
        · exact .head hd hw
      · intro hw
        rcases Relation.ReflTransGen.cases_head hw with rfl | ⟨q, hq, hqo⟩
        · exact Or.inl rfl
        · obtain rfl := Option.some.inj (hd.symm.trans hq)
          exact Or.inr hqo

theorem encloses_iff (h : f.WellFormed) : f.encloses o d ↔ f.Within d o := by
  rw [encloses, List.contains_iff_mem, h.mem_ownerChain_iff]

/-- For a known declaration it can be said what encloses it. -/
theorem exists_encloses? (h : f.WellFormed) (hd : f.contains d) (o : ElementId) :
    ∃ b, f.encloses? o d = some b ∧ (b ↔ f.Within d o) := by
  by_cases ho : o = d
  · refine ⟨true, by rw [encloses?, if_pos ho], fun _ => ?_, fun _ => rfl⟩
    rw [ho]
    exact .refl
  · exact ⟨f.encloses o d, by rw [encloses?, if_neg ho, if_pos hd], h.encloses_iff⟩

/-- What encloses a known declaration is known. -/
theorem contains_of_mem_ownerChain (h : f.WellFormed) (hd : f.contains d)
    (ho : o ∈ f.ownerChain d) : f.contains o := by
  have hle := h.index_le_of_within (h.mem_ownerChain_iff.1 ho)
  exact contains_iff.2 (Nat.lt_of_le_of_lt hle (contains_iff.1 hd))

end WellFormed
end Kerml.Forest
