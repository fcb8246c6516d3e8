import Kerml.Yaml.Character

/-! # Places in YAML text, and the gaps between the words of a scalar -/
namespace Kerml.Yaml

/-- The text with line breaks written in the same way, save those that are kept as they are. -/
def unifyBreaks : List Char → List Char
  | '\r' :: '\n' :: rest => '\n' :: unifyBreaks rest
  | c :: rest => (if c == '\r' || c == '\u0085' then '\n' else c) :: unifyBreaks rest
  | [] => []

structure Cursor where
  line : Nat := 0
  column : Nat := 0
  rest : List Char
deriving DecidableEq, Repr

def Cursor.skip (p : Cursor) (count : Nat) : Cursor :=
  { p with column := p.column + count, rest := p.rest.drop count }

/-- What separates two words of a scalar. -/
inductive Gap
  /-- Blanks on one line. -/
  | blanks (cs : List Char)
  /-- Line breaks, the first of which is left out when a backslash precedes it. -/
  | breaks (first : Option Char) (more : List Char)
deriving DecidableEq, Repr

namespace Gap

def empty : Gap := blanks []

def hasBreak : Gap → Bool
  | blanks _ => false
  | breaks _ _ => true

/-- The gap with one more blank or break. Blanks beside a break do not count. -/
def push (g : Gap) (c : Char) : Gap :=
  match g with
  | blanks cs => if isBreak c then breaks (some c) [] else blanks (cs ++ [c])
  | breaks first more => if isBreak c then breaks first (more ++ [c]) else g

/-- The text that a gap folds into: a single line break makes a space, and before others it is
dropped. A break of another kind is kept. -/
def text : Gap → List Char
  | blanks cs => cs
  | breaks (some '\n') [] => [' ']
  | breaks (some '\n') more => more
  | breaks first more => first.toList ++ more

end Gap

/-- What has been read of a scalar and where reading stands, with text put in front. -/
def putBefore (text : List Char) (read : List Char × Cursor) : List Char × Cursor :=
  (text ++ read.1, read.2)

end Kerml.Yaml
