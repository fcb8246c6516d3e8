import Kerml.Metaclass
import Kerml.Span
import Kerml.Visibility

/-! # Declarations as they are written down -/
namespace Kerml

structure Modifiers where
  isComposite : Bool := false
  isPortion : Bool := false
  isEnd : Bool := false
  isReadonly : Bool := false
  isDerived : Bool := false
deriving DecidableEq, Repr

namespace Modifiers

def code (m : Modifiers) : Nat :=
  m.isComposite.toNat + 2 * m.isPortion.toNat + 4 * m.isEnd.toNat + 8 * m.isReadonly.toNat +
    16 * m.isDerived.toNat

def isAny (m : Modifiers) : Bool :=
  m != {}

end Modifiers

structure Declaration where
  metaclass : Metaclass
  name : Option String := none
  shortName : Option String := none
  visibility : Visibility := .pub
  span : Option Span := none
  modifiers : Modifiers := {}
  isAbstract : Bool := false
deriving DecidableEq, Repr

end Kerml
