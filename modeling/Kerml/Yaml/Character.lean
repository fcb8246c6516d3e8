/-! # Characters that YAML text treats in a way of their own -/
namespace Kerml.Yaml

def isBreak (c : Char) : Bool :=
  let n := c.toNat
  n == 0xA || n == 0xD || n == 0x85 || n == 0x2028 || n == 0x2029

def isBlank (c : Char) : Bool :=
  c == ' ' || c == '\t'

def isGap (c : Char) : Bool :=
  isBlank c || isBreak c

def startsGap : List Char → Bool
  | [] => true
  | c :: _ => isGap c

def isPrintable (c : Char) : Bool :=
  let n := c.toNat
  n == 0xA || (0x20 ≤ n && n ≤ 0x7E) || (0xA0 ≤ n && n ≤ 0xD7FF) ||
    (0xE000 ≤ n && n ≤ 0xFFFD && n != 0xFEFF) || 0x10000 ≤ n

/-- The mark that can precede the first character of a line. -/
def isByteOrderMark (c : Char) : Bool :=
  c.toNat == 0xFEFF

def isReadable (c : Char) : Bool :=
  isPrintable c || c == '\t' || c == '\r' || c == '\u0085' || isByteOrderMark c

def isFlowMark (c : Char) : Bool :=
  ",[]\x7b\x7d".toList.contains c

def isIndicator (c : Char) : Bool :=
  isFlowMark c || "#&*!|>'\"%@\x60".toList.contains c

/-- Whether a line that goes on like this starts with the marker made of the given character. -/
def startsMarker (c : Char) (line : List Char) : Bool :=
  line.take 3 == [c, c, c] && startsGap (line.drop 3)

def startsSeparator (line : List Char) : Bool :=
  startsMarker '-' line || startsMarker '.' line

end Kerml.Yaml
