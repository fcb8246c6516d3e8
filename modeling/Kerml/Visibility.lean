/-! # Visibility of members, imports and specializations, and who looks at them -/
namespace Kerml

inductive Visibility
  | pub
  | prot
  | priv
deriving DecidableEq, Repr, Inhabited

inductive Audience
  /-- The declaration itself and what it encloses. -/
  | owner
  /-- Declarations that specialize it. -/
  | heir
  /-- Everyone else. -/
  | outsider
deriving DecidableEq, Repr

namespace Visibility

def admits (v : Visibility) : Audience → Bool
  | .owner => true
  | .heir => v != priv
  | .outsider => v == pub

def keyword : Visibility → String
  | pub => "public"
  | prot => "protected"
  | priv => "private"

end Visibility
end Kerml
