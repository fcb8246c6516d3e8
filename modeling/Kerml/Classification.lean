import Kerml.Model

/-!
# Categories of types

The categories of a type are its own and those of every type it specializes, directly or not. One
depth-first walk derives them, and closes each cycle of specializations when it leaves the type
through which it entered the cycle.
-/
namespace Kerml

/-- A walk: what is remembered so far, and the entered types whose cycles are not closed, the last
one first. -/
structure Walk where
  memos : Column CategoryMemo
  path : List ElementId := []

namespace Walk

/-- How many entered types are below a type on the path. -/
def height (w : Walk) (d : ElementId) : Nat :=
  w.path.length - (w.path.idxOf d + 1)

def enter (w : Walk) (d : ElementId) : Walk where
  memos := w.memos.put d .inProgress
  path := d :: w.path

/-- Leaves the types above a height. They form a cycle and have the same categories. -/
def close (w : Walk) (height : Nat) (c : Categories) : Walk :=
  let count := w.path.length - height
  { memos := (w.path.take count).foldl (fun memos d => memos.put d (.done c)) w.memos
    path := w.path.drop count }

end Walk

/-- What a visit brings back: the categories it has gathered, and while the cycle of the visited
type is open, the least height on the path that is reached from it. -/
structure Visit where
  gathered : Categories
  reached : Option Nat := none

def Visit.join (v w : Visit) : Visit where
  gathered := v.gathered ∪ w.gathered
  reached :=
    match v.reached, w.reached with
    | some a, some b => some (min a b)
    | a, b => a.or b

namespace Model

def generalTypes (m : Model) (d : ElementId) : List ElementId :=
  (m.specializationsOf d .specialization).map (·.general)

/-- Visits a declaration. A type that is on the path already is not entered again. The first
argument bounds the length of the path. -/
def visit (m : Model) : Nat → Walk → ElementId → Walk × Visit
  | 0, w, _ => (w, ⟨∅, none⟩)
  | depth + 1, w, d =>
    if !m.isType d then (w, ⟨(m.metaclass d).categories, none⟩)
    else
      match w.memos.get d with
      | .done c => (w, ⟨c, none⟩)
      | .inProgress => (w, ⟨∅, some (w.height d)⟩)
      | .unknown =>
        let own := w.path.length
        let start : Walk × Visit := (w.enter d, ⟨(m.metaclass d).categories, some own⟩)
        let (w, v) := (m.generalTypes d).foldl (fun acc t =>
          let (w, u) := m.visit depth acc.1 t
          (w, acc.2.join u)) start
        if v.reached.any (· < own) then (w, v)
        else (w.close own v.gathered, ⟨v.gathered, none⟩)

/-- The categories of a declaration. The categories of every type that had to be visited are
remembered. -/
def askCategories (m : Model) (d : ElementId) : Categories × Model :=
  if m.contains d then
    let (w, v) := m.visit (m.size + 1) { memos := m.memos } d
    (v.gathered, { m with memos := w.memos })
  else (∅, m)

def askAllCategories (m : Model) : List Categories × Model :=
  m.ids.foldl (fun (answers, m) d => let (c, m) := m.askCategories d; (answers ++ [c], m)) ([], m)

def forgetCategories (m : Model) (d : ElementId) : Model :=
  { m with memos := m.memos.put d .unknown }

end Model
end Kerml
