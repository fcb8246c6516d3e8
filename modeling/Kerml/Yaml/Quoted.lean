import Kerml.Yaml.Cursor
import Kerml.Yaml.Digits

/-!
# Reading scalars between quotes

Blanks and line breaks in them fold, and a document cannot end within one.
-/
namespace Kerml.Yaml

/-- Reads from a place between single quotes up to the closing one. A quote that is written twice is
text. -/
def singleQuoted? (gap : Gap) (line column : Nat) : List Char → Option (List Char × Cursor)
  | [] => none
  | '\'' :: '\'' :: rest =>
    (singleQuoted? .empty line (column + 2) rest).map (putBefore (gap.text ++ ['\'']))
  | '\'' :: rest => some (gap.text, ⟨line, column + 1, rest⟩)
  | c :: rest =>
    if isBreak c then singleQuoted? (gap.push c) (line + 1) 0 rest
    else if isBlank c then singleQuoted? (gap.push c) line (column + 1) rest
    else if column == 0 && startsSeparator (c :: rest) then none
    else (singleQuoted? .empty line (column + 1) rest).map (putBefore (gap.text ++ [c]))

def hexChar? (digits : List Char) : Option Char :=
  (number? 16 digits).bind fun n => if n.isValidChar then some (Char.ofNat n) else none

def escaped? : Char → Option Char
  | '0' => some '\x00'
  | 'a' => some '\x07'
  | 'b' => some '\x08'
  | 't' => some '\t'
  | '\t' => some '\t'
  | 'n' => some '\n'
  | 'v' => some '\x0b'
  | 'f' => some '\x0c'
  | 'r' => some '\r'
  | 'e' => some '\x1b'
  | ' ' => some ' '
  | '"' => some '"'
  | '/' => some '/'
  | '\\' => some '\\'
  | 'N' => some '\u0085'
  | '_' => some '\u00a0'
  | 'L' => some '\u2028'
  | 'P' => some '\u2029'
  | _ => none

/-- Reads from a place between double quotes up to the closing one. A line break after a backslash
is left out. -/
def doubleQuoted? (gap : Gap) (line column : Nat) : List Char → Option (List Char × Cursor)
  | [] => none
  | '"' :: rest => some (gap.text, ⟨line, column + 1, rest⟩)
  | '\\' :: 'x' :: a :: b :: rest => do
    let c ← hexChar? [a, b]
    (doubleQuoted? .empty line (column + 4) rest).map (putBefore (gap.text ++ [c]))
  | '\\' :: 'u' :: a :: b :: c :: d :: rest => do
    let c ← hexChar? [a, b, c, d]
    (doubleQuoted? .empty line (column + 6) rest).map (putBefore (gap.text ++ [c]))
  | '\\' :: 'U' :: a :: b :: c :: d :: e :: f :: g :: h :: rest => do
    let c ← hexChar? [a, b, c, d, e, f, g, h]
    (doubleQuoted? .empty line (column + 10) rest).map (putBefore (gap.text ++ [c]))
  | '\\' :: c :: rest =>
    if isBreak c then
      (doubleQuoted? (.breaks none []) (line + 1) 0 rest).map (putBefore gap.text)
    else do
      let c ← escaped? c
      (doubleQuoted? .empty line (column + 2) rest).map (putBefore (gap.text ++ [c]))
  | c :: rest =>
    if isBreak c then doubleQuoted? (gap.push c) (line + 1) 0 rest
    else if isBlank c then doubleQuoted? (gap.push c) line (column + 1) rest
    else if column == 0 && startsSeparator (c :: rest) then none
    else (doubleQuoted? .empty line (column + 1) rest).map (putBefore (gap.text ++ [c]))

def quoted? (p : Cursor) : Option (List Char × Cursor) :=
  match p.rest with
  | '\'' :: rest => singleQuoted? .empty p.line (p.column + 1) rest
  | '"' :: rest => doubleQuoted? .empty p.line (p.column + 1) rest
  | _ => none

end Kerml.Yaml
