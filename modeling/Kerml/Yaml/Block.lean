import Kerml.Yaml.Cursor
import Kerml.Yaml.Digits

/-!
# Reading block scalars

Indented lines under a header that tells whether they fold and what becomes of the line breaks at
their end.
-/
namespace Kerml.Yaml

structure Line where
  text : List Char
  ending : Option Char
deriving DecidableEq, Repr

def splitLines : List Char → List Line
  | [] => [⟨[], none⟩]
  | c :: rest =>
    if isBreak c then ⟨[], some c⟩ :: splitLines rest
    else
      match splitLines rest with
      | [] => [⟨[c], none⟩]
      | line :: more => { line with text := c :: line.text } :: more

def joinLines (ls : List Line) : List Char :=
  ls.flatMap fun l => l.text ++ l.ending.toList

/-- What becomes of the line breaks at the end of a block. -/
inductive Chomping
  /-- The first is kept. -/
  | clip
  /-- All are dropped. -/
  | strip
  /-- All are kept. -/
  | keep
deriving DecidableEq, Repr

structure BlockHeader where
  chomping : Chomping
  /-- The indentation below that of the surrounding mapping, if it is given. -/
  indent : Option Nat
deriving DecidableEq, Repr

def takeChomping : List Char → Option Chomping × List Char
  | '-' :: rest => (some .strip, rest)
  | '+' :: rest => (some .keep, rest)
  | s => (none, s)

/-- Takes the indentation off a header. It cannot be zero. -/
def takeIndent? : List Char → Option (Option Nat × List Char)
  | [] => some (none, [])
  | c :: rest =>
    if c == '0' then none
    else if c.isDigit then some (digitValue? c, rest)
    else some (none, c :: rest)

/-- Reads what follows the mark of a block on its line: the two settings in either order, and
perhaps a comment. -/
def blockHeader? (s : List Char) : Option BlockHeader := do
  let (first, s) := takeChomping s
  let (indent, s) ← takeIndent? s
  let (second, s) := if first.isSome then (first, s) else takeChomping s
  let s := s.dropWhile isBlank
  if s.isEmpty || s.head? == some '#' then
    return { chomping := second.getD .clip, indent }
  else none

def indentation (line : List Char) : Nat :=
  (line.takeWhile (· == ' ')).length

/-- The indentation of a block that does not give it: that of its first line with text, or of a
longer empty line before it, and no less than the given one. A tab cannot end it. -/
def blockIndent? (least : Nat) : List Line → Option Nat
  | [] => some least
  | l :: more =>
    let least := max least (indentation l.text)
    match l.text.drop (indentation l.text), l.ending with
    | [], some _ => blockIndent? least more
    | '\t' :: _, _ => none
    | _, _ => some least

/-- What stands between two lines of a block: the break that ended the first one and those of empty
lines. Folding joins lines by a space unless one of them starts with a blank. -/
def joint (folds : Bool) (ending : Option Char) (breaks : List Char) : List Char :=
  if folds && ending == some '\n' then (if breaks.isEmpty then [' '] else breaks)
  else ending.toList ++ breaks

def Chomping.apply (c : Chomping) (ending : Option Char) (breaks : List Char) : List Char :=
  match c with
  | clip => ending.toList
  | strip => []
  | keep => ending.toList ++ breaks

/-- Reads the lines of a block. `ending` and `breaks` come before them, and `afterBlank` says that
the last line with text started with a blank. A line that is indented less ends the block, and a tab
cannot indent one. -/
def blockLines? (folds : Bool) (chomping : Chomping) (indent : Nat) (ending : Option Char)
    (breaks : List Char) (afterBlank : Bool) (line : Nat) :
    List Line → Option (List Char × Cursor)
  | [] => some (chomping.apply ending breaks, ⟨line, 0, []⟩)
  | l :: more =>
    let spaces := min indent (indentation l.text)
    match l.text.drop spaces, l.ending with
    | [], some b =>
      blockLines? folds chomping indent ending (breaks ++ [b]) afterBlank (line + 1) more
    | [], none => some (chomping.apply ending breaks, ⟨line, spaces, []⟩)
    | c :: text, next =>
      if spaces < indent then
        if c == '\t' then none
        else
          some (chomping.apply ending breaks,
            ⟨line, spaces, joinLines ({ text := c :: text, ending := next } :: more)⟩)
      else
        (blockLines? folds chomping indent next [] (isBlank c) (line + 1) more).map
          (putBefore (joint (folds && !afterBlank && !isBlank c) ending breaks ++ c :: text))

/-- Reads a block scalar that starts at its mark. `least` is the least indentation of its lines. -/
def block? (least : Nat) (p : Cursor) : Option (List Char × Cursor) :=
  match p.rest with
  | [] => none
  | mark :: rest =>
    match splitLines rest with
    | [] => none
    | l :: more => do
      let header ← blockHeader? l.text
      let indent ← match header.indent with
        | some n => some (least - 1 + n)
        | none => blockIndent? (max 1 least) more
      blockLines? (mark == '>') header.chomping indent none [] false (p.line + 1) more

end Kerml.Yaml
