import Kerml.Yaml.Block
import Kerml.Yaml.Plain
import Kerml.Yaml.Quoted
import Kerml.Yaml.Token

/-!
# Reading tokens

A key is known by the colon after it only, so the place where one may have started is remembered
until its line ends. Sequences, anchors, tags and directives are refused.
-/
namespace Kerml.Yaml

/-- A place where the key of an entry may have started. -/
structure KeyStart where
  line : Nat
  column : Nat
  /-- Nothing but a key may stand at the place. -/
  isRequired : Bool
  /-- The number of tokens before the place. -/
  position : Nat
deriving DecidableEq, Repr

/-- Whether a colon at the given place would come too late for the key: on a later line or after
more than 1024 characters. -/
def KeyStart.isStale (k : KeyStart) (p : Cursor) : Bool :=
  k.line < p.line || k.column + 1024 < p.column

structure Scan where
  cursor : Cursor
  /-- The last token comes first. -/
  tokens : List Token := []
  /-- The columns of the block mappings that are open, the innermost first. -/
  indents : List Nat := []
  /-- Whether a key may start at the place. -/
  allowsKey : Bool := true
  /-- Where the key of an entry may have started. -/
  keyStart : Option KeyStart := none
  /-- The same for each of the mappings around the innermost braces. -/
  outerStarts : List (Option KeyStart) := []

namespace Scan

def inFlow (s : Scan) : Bool :=
  !s.outerStarts.isEmpty

def leastIndent (s : Scan) : Nat :=
  match s.indents with
  | [] => 0
  | column :: _ => column + 1

def emit (s : Scan) (t : Token) (count : Nat) : Scan :=
  { s with tokens := t :: s.tokens, cursor := s.cursor.skip count }

def insert (s : Scan) (position : Nat) (t : Token) : Scan :=
  let later := s.tokens.length - position
  { s with tokens := s.tokens.take later ++ t :: s.tokens.drop later }

/-- Opens a block mapping that starts after the given number of tokens, unless one is open in the
column. -/
def openBlock (s : Scan) (column position : Nat) : Scan :=
  if s.inFlow || s.indents.head?.any (column ≤ ·) then s
  else { s.insert position .blockStart with indents := column :: s.indents }

/-- Closes the block mappings whose columns satisfy a condition, up to the first that does not. -/
def closeBlocks (s : Scan) (closes : Nat → Bool) : Scan :=
  if s.inFlow then s
  else
    { s with
      tokens := (s.indents.takeWhile closes).map (fun _ => .blockEnd) ++ s.tokens
      indents := s.indents.dropWhile closes }

/-- Gives up that a key has started, unless it is required. -/
def dropKey? (s : Scan) : Option Scan :=
  if s.keyStart.any (·.isRequired) then none else some { s with keyStart := none }

/-- Remembers that a key may start at the place. One that stands in the column of a block mapping is
required. -/
def saveKey? (s : Scan) : Option Scan :=
  if s.allowsKey then do
    let s ← s.dropKey?
    let p := s.cursor
    let start : KeyStart :=
      { line := p.line
        column := p.column
        isRequired := !s.inFlow && s.indents.head? == some p.column
        position := s.tokens.length }
    return { s with keyStart := some start }
  else some s

def dropStale? (s : Scan) : Option Scan :=
  let isStale (k : KeyStart) := k.isStale s.cursor
  if (s.keyStart :: s.outerStarts).any (·.any fun k => k.isRequired && isStale k) then none
  else
    some { s with
      keyStart := s.keyStart.filter (!isStale ·)
      outerStarts := s.outerStarts.map (·.filter (!isStale ·)) }

/-- Skips white space, line breaks and comments, and a byte order mark at the start of a line. A tab
is skipped only where no key of a block mapping can start, as one can at the start of a line. -/
def skipGap (inFlow allowsKey inComment : Bool) (line column : Nat) : List Char → Bool × Cursor
  | [] => (allowsKey, ⟨line, column, []⟩)
  | c :: rest =>
    if isBreak c then skipGap inFlow (allowsKey || !inFlow) false (line + 1) 0 rest
    else if inComment || c == '#' then skipGap inFlow allowsKey true line (column + 1) rest
    else if c == ' ' || (c == '\t' && (inFlow || !allowsKey)) ||
        (column == 0 && isByteOrderMark c) then
      skipGap inFlow allowsKey false line (column + 1) rest
    else (allowsKey, ⟨line, column, c :: rest⟩)

/-- Goes to the next token. What is left of the text is no longer than before. -/
def settle? (s : Scan) : Option Scan :=
  let p := s.cursor
  let (allowsKey, cursor) := skipGap s.inFlow s.allowsKey false p.line p.column p.rest
  { s with allowsKey, cursor }.dropStale?.map fun (s : Scan) =>
    s.closeBlocks fun column => s.cursor.column < column

def marker? (s : Scan) (t : Token) : Option Scan :=
  (s.closeBlocks fun _ => true).dropKey?.map fun s => { s with allowsKey := false }.emit t 3

/-- Reads an opening brace, which may start a key itself. -/
def openFlow? (s : Scan) : Option Scan :=
  s.saveKey?.map fun s =>
    { s with
      allowsKey := true
      keyStart := none
      outerStarts := s.keyStart :: s.outerStarts }.emit .flowStart 1

def closeFlow? (s : Scan) : Option Scan :=
  match s.outerStarts with
  | [] => none
  | start :: outer =>
    s.dropKey?.map fun s =>
      { s with allowsKey := false, keyStart := start, outerStarts := outer }.emit .flowEnd 1

def comma? (s : Scan) : Option Scan :=
  s.dropKey?.map fun s => { s with allowsKey := true }.emit .comma 1

def key? (s : Scan) : Option Scan :=
  if !s.inFlow && !s.allowsKey then none
  else
    (s.openBlock s.cursor.column s.tokens.length).dropKey?.map fun s =>
      { s with allowsKey := !s.inFlow }.emit .key 1

/-- Reads the colon before a value. If a key may have started, it has. -/
def value? (s : Scan) : Option Scan :=
  match s.keyStart with
  | some k =>
    let s := (s.insert k.position .key).openBlock k.column k.position
    some ({ s with allowsKey := false, keyStart := none }.emit .value 1)
  | none =>
    if !s.inFlow && !s.allowsKey then none
    else
      let s := s.openBlock s.cursor.column s.tokens.length
      some ({ s with allowsKey := !s.inFlow }.emit .value 1)

def addScalar (s : Scan) (isPlain allowsKey : Bool) (read : List Char × Cursor) : Scan :=
  { s with tokens := .scalar read.1 isPlain :: s.tokens, cursor := read.2, allowsKey }

def scalar? (s : Scan) : Option Scan :=
  let p := s.cursor
  match p.rest with
  | [] => none
  | c :: _ =>
    if c == '\'' || c == '"' then do
      let s ← s.saveKey?
      (quoted? p).map (s.addScalar false false)
    else if startsPlain s.inFlow p.rest then do
      let s ← s.saveKey?
      let (endsLine, read) ← plain? s.inFlow s.leastIndent .empty p.line p.column p.rest
      some (s.addScalar true endsLine read)
    else if (c == '|' || c == '>') && !s.inFlow then do
      let s ← s.dropKey?
      (block? s.leastIndent p).map (s.addScalar false true)
    else none

def next? (s : Scan) : Option Scan :=
  let p := s.cursor
  match p.rest with
  | [] => none
  | c :: rest =>
    if p.column == 0 && startsMarker '-' p.rest then s.marker? .documentStart
    else if p.column == 0 && startsMarker '.' p.rest then s.marker? .documentEnd
    else if c == '\x7b' then s.openFlow?
    else if c == '\x7d' then s.closeFlow?
    else if c == ',' then s.comma?
    else if c == '?' && (s.inFlow || startsGap rest) then s.key?
    else if c == ':' && (s.inFlow || startsGap rest) then s.value?
    else s.scalar?

def finish? (s : Scan) : Option (List Token) :=
  (s.closeBlocks fun _ => true).dropKey?.map (·.tokens.reverse)

/-- Reads tokens to the end of the text. Each of them takes at least one character. -/
def run? (s : Scan) : Option (List Token) :=
  match s.settle? with
  | none => none
  | some settled =>
    if settled.cursor.rest.isEmpty then settled.finish?
    else
      match settled.next? with
      | none => none
      | some next =>
        if _h : next.cursor.rest.length < s.cursor.rest.length then next.run? else none
termination_by s.cursor.rest.length

end Scan

def tokens? (text : List Char) : Option (List Token) :=
  if text.all isReadable then Scan.run? { cursor := { rest := unifyBreaks text } } else none

end Kerml.Yaml
