import Kerml.Lookup

/-!
# Names for unnamed features

Each takes the name of the first feature that it redefines.
-/
namespace Kerml.Model

/-- Whether a declaration is a feature without a name of its own and has not taken one. -/
def isNameless (m : Model) (d : ElementId) : Bool :=
  (m.metaclass d).isFeature && (m.effectiveName d).isNone

def redefinedName? (m : Model) (d : ElementId) : Option String :=
  ((m.specializationsOf d .redefinition).head?).bind fun s => m.effectiveName s.general

/-- Gives a nameless feature the name of what it redefines, if that has one by now. -/
def takeName (m : Model) (d : ElementId) : Model :=
  if m.isNameless d then
    match m.redefinedName? d with
    | none => m
    | some name =>
      { m with takenNames := m.takenNames.put d (some name) : Model }.forgetNames d
  else m

def namelessCount (m : Model) : Nat :=
  m.ids.countP m.isNameless

def takeNamesOnce (m : Model) (ds : List ElementId) : Model :=
  ds.foldl takeName m

/-- Lets the given declarations take names, again and again until none of them can take one. -/
def takeNames (m : Model) (ds : List ElementId) : Model :=
  let next := m.takeNamesOnce ds
  if _h : next.namelessCount < m.namelessCount then next.takeNames ds else next
termination_by m.namelessCount

end Kerml.Model
