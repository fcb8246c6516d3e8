/-! # JSON text between double quotes -/
namespace Kerml.Json

def hexDigit (n : Nat) : Char :=
  if n < 10 then Char.ofNat (0x30 + n) else Char.ofNat (0x57 + n)

def hexValue? (c : Char) : Option Nat :=
  if '0' ≤ c ∧ c ≤ '9' then some (c.toNat - 0x30)
  else if 'a' ≤ c ∧ c ≤ 'f' then some (c.toNat - 0x57)
  else if 'A' ≤ c ∧ c ≤ 'F' then some (c.toNat - 0x37)
  else none

def hexValue4? (a b c d : Char) : Option Nat := do
  return (((← hexValue? a) * 16 + (← hexValue? b)) * 16 + (← hexValue? c)) * 16 + (← hexValue? d)

/-- One character between quotes. Quotes, backslashes and control characters are escaped. -/
def encodeChar (c : Char) : List Char :=
  if c = '"' then ['\\', '"']
  else if c = '\\' then ['\\', '\\']
  else if c = '\n' then ['\\', 'n']
  else if c = '\r' then ['\\', 'r']
  else if c = '\t' then ['\\', 't']
  else if c = '\x08' then ['\\', 'b']
  else if c = '\x0c' then ['\\', 'f']
  else if c.toNat < 0x20 then
    ['\\', 'u', '0', '0', hexDigit (c.toNat / 16), hexDigit (c.toNat % 16)]
  else [c]

def encode (s : List Char) : List Char :=
  '"' :: (s.flatMap encodeChar ++ ['"'])

def escaped? : Char → Option Char
  | '"' => some '"'
  | '\\' => some '\\'
  | '/' => some '/'
  | 'n' => some '\n'
  | 'r' => some '\r'
  | 't' => some '\t'
  | 'b' => some '\x08'
  | 'f' => some '\x0c'
  | _ => none

def isHighSurrogate (n : Nat) : Bool :=
  0xD800 ≤ n && n < 0xDC00

def isLowSurrogate (n : Nat) : Bool :=
  0xDC00 ≤ n && n < 0xE000

def joinSurrogates (high low : Nat) : Char :=
  Char.ofNat (0x10000 + (high - 0xD800) * 0x400 + (low - 0xDC00))

/-- Reads text up to its closing quote and returns what follows. Control characters have to be
escaped, and surrogates have to come in pairs. -/
def decode? : List Char → Option (List Char × List Char)
  | [] => none
  | '"' :: rest => some ([], rest)
  | '\\' :: 'u' :: a :: b :: c :: d :: rest =>
    match hexValue4? a b c d with
    | none => none
    | some n =>
      if isHighSurrogate n then
        match rest with
        | '\\' :: 'u' :: a' :: b' :: c' :: d' :: rest' =>
          match hexValue4? a' b' c' d' with
          | none => none
          | some low =>
            if isLowSurrogate low then
              (decode? rest').map fun r => (joinSurrogates n low :: r.1, r.2)
            else none
        | _ => none
      else if isLowSurrogate n then none
      else (decode? rest).map fun r => (Char.ofNat n :: r.1, r.2)
  | '\\' :: c :: rest =>
    match escaped? c with
    | none => none
    | some x => (decode? rest).map fun r => (x :: r.1, r.2)
  | c :: rest =>
    if c.toNat < 0x20 then none else (decode? rest).map fun r => (c :: r.1, r.2)

theorem length_lt_of_decode? {s : List Char} {t : List Char × List Char} (h : decode? s = some t) :
    t.2.length < s.length := by
  fun_induction decode? s generalizing t <;>
    simp_all only [Option.map_eq_some_iff, Option.some.injEq, reduceCtorEq, List.length_cons]
  all_goals first
    | (obtain ⟨u, hu, rfl⟩ := h
       rename_i ih
       have := ih hu
       simp only
       omega)
    | (subst h; simp)

end Kerml.Json
