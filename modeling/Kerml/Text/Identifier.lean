import Kerml.Text.IdentifierStart
import Kerml.Text.IdentifierPart

/-! # Identifier characters after Unicode Standard Annex 31 -/
namespace Kerml.Text

/-- Whether a code point lies in one of the given ascending closed ranges. -/
def inRanges : List (Nat × Nat) → Nat → Bool
  | [], _ => false
  | (low, high) :: rest, n => low ≤ n && (n ≤ high || inRanges rest n)

/-- Whether an identifier can start with the character (`XID_Start`). -/
def isIdentifierStart (c : Char) : Bool :=
  if c.toNat < 0x80 then c.isAlpha else inRanges IdentifierStart.ranges c.toNat

/-- Whether an identifier can go on with the character (`XID_Continue`). -/
def isIdentifierPart (c : Char) : Bool :=
  if c.toNat < 0x80 then c.isAlphanum || c == '_'
  else inRanges IdentifierStart.ranges c.toNat || inRanges IdentifierPart.ranges c.toNat

theorem isIdentifierPart_of_start {c : Char} (h : isIdentifierStart c) : isIdentifierPart c := by
  unfold isIdentifierStart at h
  unfold isIdentifierPart
  split at h <;> simp_all [Char.isAlphanum]

end Kerml.Text
