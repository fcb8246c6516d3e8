import Kerml.Specialization

/-! # A store of specializations that remembers the answers it gave -/
namespace Kerml

/-- Specializations together with the answers to the queries since the last change. -/
structure SpecializationStore where
  held : List Specialization := []
  answers : List (SpecializationKind × List Specialization) := []
deriving DecidableEq, Repr

namespace SpecializationStore

/-- Adds a specialization and says whether its general type was new. A change forgets the
answers. -/
def add (store : SpecializationStore) (s : Specialization) : Bool × SpecializationStore :=
  if store.held.any (·.general == s.general) then (false, store)
  else (true, { held := Specialization.record store.held s })

/-- Answers a query from memory, or finds the answer and remembers it. -/
def query (store : SpecializationStore) (q : SpecializationKind) :
    List Specialization × SpecializationStore :=
  match store.answers.lookup q with
  | some answer => (answer, store)
  | none =>
    let answer := Specialization.matching store.held q
    (answer, { store with answers := store.answers ++ [(q, answer)] })

def clear (_store : SpecializationStore) : SpecializationStore := {}

def toward? (store : SpecializationStore) (general : ElementId) : Option Specialization :=
  Specialization.toward? store.held general

def hasWritten (store : SpecializationStore) (q : SpecializationKind) : Bool :=
  Specialization.hasWritten store.held q

def answerCount (store : SpecializationStore) : Nat :=
  store.answers.length

end SpecializationStore
end Kerml
