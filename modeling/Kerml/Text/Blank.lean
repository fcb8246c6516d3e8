/-!
# White space

The characters with the Unicode property `White_Space`, and trimming them off.
-/
namespace Kerml.Text

/-- Whether a character has the Unicode property `White_Space`. -/
def isBlank (c : Char) : Bool :=
  let n := c.toNat
  (0x9 ≤ n && n ≤ 0xD) || n == 0x20 || n == 0x85 || n == 0xA0 || n == 0x1680 ||
    (0x2000 ≤ n && n ≤ 0x200A) || n == 0x2028 || n == 0x2029 || n == 0x202F || n == 0x205F ||
    n == 0x3000

def trimFront (s : List Char) : List Char :=
  s.dropWhile isBlank

def trimBack (s : List Char) : List Char :=
  (trimFront s.reverse).reverse

def trim (s : List Char) : List Char :=
  trimBack (trimFront s)

@[simp] theorem trim_nil : trim [] = [] := rfl

theorem trimFront_eq_nil_iff {s : List Char} : trimFront s = [] ↔ ∀ c ∈ s, isBlank c := by
  induction s with
  | nil => simp [trimFront]
  | cons c rest ih =>
    cases h : isBlank c <;> simp_all [trimFront]

theorem trim_eq_nil_iff {s : List Char} : trim s = [] ↔ ∀ c ∈ s, isBlank c := by
  induction s with
  | nil => simp
  | cons c rest ih =>
    cases h : isBlank c with
    | true =>
      have : trim (c :: rest) = trim rest := by simp [trim, trimFront, h]
      simp [this, ih, h]
    | false =>
      have : trim (c :: rest) ≠ [] := by
        simp only [trim, trimBack, trimFront, List.dropWhile_cons, h, ne_eq,
          List.reverse_eq_nil_iff]
        intro hnil
        have := trimFront_eq_nil_iff.1 hnil c (by simp)
        simp [h] at this
      simp [this, h]

end Kerml.Text
