/-! # Lists without their repetitions -/
namespace Kerml

variable {α κ : Type} [BEq κ]

/-- The list with only the first of the elements that share a key. -/
def distinctBy (key : α → κ) : List α → List α
  | [] => []
  | a :: rest => a :: (distinctBy key rest).filter fun b => !key a == key b

def distinct [BEq α] : List α → List α :=
  distinctBy id

theorem mem_of_mem_distinctBy {key : α → κ} {a : α} {as : List α} (h : a ∈ distinctBy key as) :
    a ∈ as := by
  induction as with
  | nil => simp [distinctBy] at h
  | cons b rest ih =>
    simp only [distinctBy, List.mem_cons, List.mem_filter] at h
    rcases h with h | h
    · simp [h]
    · simp [ih h.1]

theorem mem_of_mem_distinct [BEq α] {a : α} {as : List α} (h : a ∈ distinct as) : a ∈ as :=
  mem_of_mem_distinctBy h

end Kerml
