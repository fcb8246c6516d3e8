import Kerml.Yaml.Character
import Kerml.Yaml.PlainValue

/-!
# Writing text as a YAML scalar in block context

It is plain where that cannot be misread, between quotes or as a literal block otherwise.
-/
namespace Kerml.Yaml

def hasBadStart : List Char → Bool
  | '-' :: '-' :: '-' :: _ => true
  | '.' :: '.' :: '.' :: _ => true
  | c :: rest => isIndicator c || ((c == '?' || c == ':' || c == '-') && startsGap rest)
  | [] => false

/-- Whether a later part of the text would end a plain scalar. The flag says that a gap comes before
the text. -/
def hasBadTail (afterGap : Bool) : List Char → Bool
  | [] => false
  | c :: rest =>
    (c == ':' && startsGap rest) || (c == '#' && afterGap) || hasBadTail (isGap c) rest

def hasPair (first second : Char → Bool) : List Char → Bool
  | [] => false
  | c :: rest => (first c && rest.head?.any second) || hasPair first second rest

def isSpaceOrBreak (c : Char) : Bool :=
  c == ' ' || isBreak c

inductive Style
  | plain
  | singleQuoted
  | doubleQuoted
  | literal
deriving DecidableEq, Repr

def needsEscapes (s : List Char) : Bool :=
  s.any (!isPrintable ·) || hasPair (· == ' ') isBreak s

def allowsPlain (s : List Char) : Bool :=
  !(hasBadStart s || hasBadTail true s || s.any isBreak || needsEscapes s ||
    s.head? == some ' ' || s.getLast? == some ' ')

def allowsSingle (s : List Char) : Bool :=
  !(needsEscapes s || hasPair isBreak (· == ' ') s)

def allowsLiteral (s : List Char) : Bool :=
  !(needsEscapes s || s.getLast? == some ' ')

/-- The style in which text is written: lines as a literal block, what could be misread between
quotes, all else plain, each as far as the text allows. -/
def styleOf (s : List Char) : Style :=
  if s.contains '\n' then
    if allowsLiteral s then .literal else .doubleQuoted
  else if !isValue s && allowsPlain s then .plain
  else if allowsSingle s then .singleQuoted
  else .doubleQuoted

def hexDigits : Nat → Nat → List Char
  | 0, _ => []
  | count + 1, n => hexDigits count (n / 16) ++ ["0123456789ABCDEF".toList.getD (n % 16) '0']

def escapeLetter? (c : Char) : Option Char :=
  match c.toNat with
  | 0x00 => some '0'
  | 0x07 => some 'a'
  | 0x08 => some 'b'
  | 0x09 => some 't'
  | 0x0A => some 'n'
  | 0x0B => some 'v'
  | 0x0C => some 'f'
  | 0x0D => some 'r'
  | 0x1B => some 'e'
  | 0x22 => some '"'
  | 0x5C => some '\\'
  | 0x85 => some 'N'
  | 0x2028 => some 'L'
  | 0x2029 => some 'P'
  | _ => none

def escapeChar (c : Char) : List Char :=
  match escapeLetter? c with
  | some letter => ['\\', letter]
  | none =>
    if isPrintable c then [c]
    else if c.toNat ≤ 0xFF then '\\' :: 'x' :: hexDigits 2 c.toNat
    else '\\' :: 'u' :: hexDigits 4 c.toNat

/-- Text between single quotes, with the closing one. A quote in it is written twice, and a line
that a break starts is indented. The flag says that the text is at such a start. -/
def singleQuotedTail (indent : List Char) (isFresh : Bool) : List Char → List Char
  | [] => (if isFresh then indent else []) ++ ['\'']
  | c :: rest =>
    if isBreak c then c :: singleQuotedTail indent true rest
    else
      (if isFresh then indent else []) ++ (if c == '\'' then ['\'', '\''] else [c]) ++
        singleQuotedTail indent false rest

/-- The lines of a literal block. Every line with text is indented, and the last one is ended. The
flag says that the text is at the start of a line. -/
def literalLines (indent : List Char) (isFresh : Bool) : List Char → List Char
  | [] => if isFresh then [] else ['\n']
  | c :: rest =>
    if isBreak c then c :: literalLines indent true rest
    else (if isFresh then indent else []) ++ c :: literalLines indent false rest

/-- How the end of a literal block is marked: a single line break at the end is the rule. -/
def chompingMark (s : List Char) : List Char :=
  match s.reverse with
  | last :: before =>
    if !isBreak last then ['-'] else if before.head?.all isBreak then ['+'] else []
  | [] => ['-']

/-- A literal block. Its indentation is told when the text starts with a space or a break. -/
def literalBlock (indent : List Char) (s : List Char) : List Char :=
  '|' :: ((if s.head?.any isSpaceOrBreak then ['2'] else []) ++ chompingMark s ++
    '\n' :: literalLines indent true s)

def scalarLine (indent : List Char) (s : List Char) : List Char :=
  match styleOf s with
  | .plain => s ++ ['\n']
  | .singleQuoted => '\'' :: (singleQuotedTail indent false s ++ ['\n'])
  | .doubleQuoted => '"' :: (s.flatMap escapeChar ++ ['"', '\n'])
  | .literal => literalBlock indent s

end Kerml.Yaml
