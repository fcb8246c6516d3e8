import Kerml.Yaml.Cursor

/-!
# Reading plain scalars

They end where a mark, a comment or a lesser indentation ends them.
-/
namespace Kerml.Yaml

def startsPlain (inFlow : Bool) : List Char → Bool
  | [] => false
  | c :: rest =>
    if c == '-' then !startsGap rest
    else if c == '?' || c == ':' then !inFlow && !startsGap rest
    else !isGap c && !isIndicator c

/-- Whether a plain scalar ends before a text that starts with neither a blank nor a break and that
comes after a gap. Between braces its lines can be indented as they like. -/
def endsPlain (inFlow : Bool) (indent : Nat) (gap : Gap) (column : Nat) (text : List Char) : Bool :=
  (gap.hasBreak && !inFlow && column < indent) ||
  (column == 0 && startsSeparator text) ||
  match text with
  | [] => true
  | c :: rest =>
    (c == '#' && gap != .empty) || (c == ':' && startsGap rest) || (inFlow && isFlowMark c)

/-- Reads a plain scalar. The flag that is returned says that its last line is ended. -/
def plain? (inFlow : Bool) (indent : Nat) (gap : Gap) (line column : Nat) :
    List Char → Option (Bool × List Char × Cursor)
  | [] => some (gap.hasBreak, [], ⟨line, column, []⟩)
  | c :: rest =>
    if isBreak c then plain? inFlow indent (gap.push c) (line + 1) 0 rest
    else if isBlank c then
      if c == '\t' && gap.hasBreak && column < indent then none
      else plain? inFlow indent (gap.push c) line (column + 1) rest
    else if endsPlain inFlow indent gap column (c :: rest) then
      some (gap.hasBreak, [], ⟨line, column, c :: rest⟩)
    else if inFlow && c == ':' && rest.head?.any (fun d => d == '?' || isFlowMark d) then none
    else
      (plain? inFlow indent .empty line (column + 1) rest).map fun read =>
        (read.1, putBefore (gap.text ++ [c]) read.2)

end Kerml.Yaml
