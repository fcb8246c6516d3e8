/-! # Handles of declarations -/
namespace Kerml

/-- A handle: the number of declarations that were made before. -/
structure ElementId where
  index : Nat
deriving DecidableEq, Repr, Inhabited

namespace ElementId

def text (d : ElementId) : String :=
  "#" ++ toString d.index

theorem eq_of_index {d e : ElementId} (h : d.index = e.index) : d = e := by
  cases d
  cases e
  exact congrArg mk h

end ElementId
end Kerml
