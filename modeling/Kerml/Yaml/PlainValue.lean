import Kerml.Yaml.Digits

/-!
# Plain text that stands for something else than text

It stands for nothing, a truth value or a number.
-/
namespace Kerml.Yaml

def nullWords : List String :=
  ["", "~", "null", "Null", "NULL"]

def truthWords : List String :=
  ["true", "True", "TRUE", "false", "False", "FALSE"]

def limitWords : List String :=
  [".inf", ".Inf", ".INF", "+.inf", "+.Inf", "+.INF", "-.inf", "-.Inf", "-.INF",
   ".nan", ".NaN", ".NAN"]

def splitSign : List Char → Bool × List Char
  | '+' :: rest => (false, rest)
  | '-' :: rest => (true, rest)
  | s => (false, s)

def base? : Char → Option Nat
  | 'x' => some 16
  | 'o' => some 8
  | 'b' => some 2
  | _ => none

/-- Whether a text is a number of at most sixteen bytes that announces its base. -/
def isBasedNumber (s : List Char) : Bool :=
  match splitSign s with
  | (isNegative, '0' :: letter :: digits) =>
    ((base? letter).bind (number? · digits)).any fun n =>
      if isNegative then n ≤ Nat.pow 2 127 else n < Nat.pow 2 128
  | _ => false

def isZeroPadded (s : List Char) : Bool :=
  match (splitSign s).2 with
  | '0' :: digits => !digits.isEmpty && digits.all Char.isDigit
  | _ => false

/-- A number in decimal notation: its digits, and the power of ten by which they count. -/
structure Decimal where
  digits : Nat
  exponent : Int
deriving DecidableEq, Repr

/-- The power of ten that is written after a number. -/
def exponent? : List Char → Option Int
  | [] => some 0
  | c :: rest =>
    if c == 'e' || c == 'E' then
      (number? 10 (splitSign rest).2).map fun (n : Nat) =>
        if (splitSign rest).1 then -(n : Int) else (n : Int)
    else none

/-- Reads a number in decimal notation without a sign. A point needs digits on one side. -/
def decimal? (s : List Char) : Option Decimal := do
  let whole := s.takeWhile Char.isDigit
  let (part, rest) := match s.dropWhile Char.isDigit with
    | '.' :: rest => (rest.takeWhile Char.isDigit, rest.dropWhile Char.isDigit)
    | rest => ([], rest)
  let digits ← number? 10 (whole ++ part)
  let exponent ← exponent? rest
  return { digits, exponent := exponent - part.length }

/-- The least number that rounds to an infinite double. -/
def doubleLimit : Nat :=
  Nat.pow 2 1024 - Nat.pow 2 970

/-- Whether a number rounds to a finite double. Only for those as long as the limit its digits
count. -/
def Decimal.isFinite (d : Decimal) : Bool :=
  let places := (Nat.toDigits 10 d.digits).length + d.exponent
  d.digits == 0 || places < 309 ||
    (places == 309 &&
      d.digits * Nat.pow 10 d.exponent.toNat < doubleLimit * Nat.pow 10 (-d.exponent).toNat)

/-- Whether a text is a number. One that is too large for a double is text. -/
def isNumber (s : List Char) : Bool :=
  isBasedNumber s || isZeroPadded s || (decimal? (splitSign s).2).any Decimal.isFinite

def isValue (s : List Char) : Bool :=
  (nullWords ++ truthWords ++ limitWords).contains (String.ofList s) || isNumber s

end Kerml.Yaml
