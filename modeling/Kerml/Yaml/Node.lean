import Kerml.Yaml.Token.Reading

/-! # The nodes that YAML documents consist of -/
namespace Kerml.Yaml

/-- A scalar, and whether it is plain, or a mapping with its entries in order. -/
inductive Node
  | scalar (text : List Char) (isPlain : Bool)
  | mapping (entries : List (Node × Node))
deriving Repr

namespace Node

def missing : Node := scalar [] true

/-- The entries of a mapping. A missing node is an empty mapping. -/
def entries? : Node → Option (List (Node × Node))
  | mapping entries => some entries
  | scalar [] true => some []
  | scalar _ _ => none

def text? : Node → Option (List Char)
  | scalar text _ => some text
  | mapping _ => none

abbrev Rest (ts : List Token) := { rest : List Token // rest.length < ts.length }

abbrev RestOrAll (ts : List Token) := { rest : List Token // rest.length ≤ ts.length }

mutual

def read? (ts : List Token) : Option (Node × Rest ts) :=
  match ts with
  | .scalar text isPlain :: rest => some (scalar text isPlain, ⟨rest, by simp⟩)
  | .blockStart :: rest =>
    (readBlock? rest).map fun (entries, left) => (mapping entries, ⟨left.1, by
      have := left.2; simp only [List.length_cons]; omega⟩)
  | .flowStart :: rest =>
    (readFlow? rest).map fun (entries, left) => (mapping entries, ⟨left.1, by
      have := left.2; simp only [List.length_cons]; omega⟩)
  | _ => none
termination_by (ts.length, 0)

def readPart? (ends : List Token) (ts : List Token) : Option (Node × RestOrAll ts) :=
  if ts.head?.any ends.contains then some (missing, ⟨ts, Nat.le_refl _⟩)
  else (read? ts).map fun (n, left) => (n, ⟨left.1, Nat.le_of_lt left.2⟩)
termination_by (ts.length, 1)

/-- Reads the value of an entry, or nothing if no colon precedes it. -/
def readValue? (ends : List Token) (ts : List Token) : Option (Node × RestOrAll ts) :=
  match ts with
  | .value :: rest =>
    (readPart? ends rest).map fun (n, left) => (n, ⟨left.1, by
      have := left.2; simp only [List.length_cons]; omega⟩)
  | ts => some (missing, ⟨ts, Nat.le_refl _⟩)
termination_by (ts.length, 2)

def readBlock? (ts : List Token) : Option (List (Node × Node) × Rest ts) :=
  match ts with
  | .blockEnd :: rest => some ([], ⟨rest, by simp⟩)
  | .key :: rest => do
    let (key, afterKey) ← readPart? [.key, .value, .blockEnd] rest
    have := afterKey.2
    let (value, afterValue) ← readValue? [.key, .value, .blockEnd] afterKey.1
    have := afterValue.2
    let (more, left) ← readBlock? afterValue.1
    return ((key, value) :: more, ⟨left.1, by
      have := left.2; simp only [List.length_cons]; omega⟩)
  | _ => none
termination_by (ts.length, 0)
decreasing_by all_goals simp_wf; omega

def readFlow? (ts : List Token) : Option (List (Node × Node) × Rest ts) :=
  match ts with
  | .flowEnd :: rest => some ([], ⟨rest, by simp⟩)
  | .key :: rest => do
    let (key, afterKey) ← readPart? [.value, .comma, .flowEnd] rest
    have := afterKey.2
    let (value, afterValue) ← readValue? [.comma, .flowEnd] afterKey.1
    have := afterValue.2
    let (more, left) ← readFlowTail? afterValue.1
    return ((key, value) :: more, ⟨left.1, by
      have := left.2; simp only [List.length_cons]; omega⟩)
  | ts => do
    let (key, afterKey) ← read? ts
    have := afterKey.2
    let (more, left) ← readFlowTail? afterKey.1
    return ((key, missing) :: more, ⟨left.1, by have := left.2; omega⟩)
termination_by (ts.length, 3)

/-- Reads what follows an entry between braces: a comma and further entries, or the end. -/
def readFlowTail? (ts : List Token) : Option (List (Node × Node) × Rest ts) :=
  match ts with
  | .flowEnd :: rest => some ([], ⟨rest, by simp⟩)
  | .comma :: rest =>
    (readFlow? rest).map fun (more, left) => (more, ⟨left.1, by
      have := left.2; simp only [List.length_cons]; omega⟩)
  | _ => none
termination_by (ts.length, 0)

end

/-- The node of the only document. A document without a node has a missing one, and so has a text
without documents. -/
def ofTokens? (ts : List Token) : Option Node := do
  let (n, rest) ← match ts with
    | [] => some (missing, [])
    | .documentStart :: rest =>
      if rest.isEmpty then some (missing, [])
      else (readPart? [.documentStart, .documentEnd] rest).map fun (n, left) => (n, left.1)
    | ts => (read? ts).map fun (n, left) => (n, left.1)
  if rest.all (· == .documentEnd) then some n else none

def parse? (text : List Char) : Option Node :=
  (tokens? text).bind ofTokens?

end Node
end Kerml.Yaml
