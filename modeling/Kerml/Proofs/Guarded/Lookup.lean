import Kerml.Proofs.Guarded.Reading
import Kerml.Proofs.Lookup

/-! # Names without unknown handles -/
namespace Kerml.Guarded

def globals (m : Model) : Option (List ElementId) :=
  m.roots.flatMapM fun r => do
    let root ← m.facts? r
    return if root.effectiveName.isSome then [r] else root.members

def answersTo (m : Model) (d : ElementId) (name : String) : Option Bool := do
  return (← m.facts? d).answersTo name

def memberNamed (m : Model) (name : String) (d : ElementId) : Option (Option ElementId) := do
  (← m.facts? d).members.findM? (answersTo m · name)

def enclosing (m : Model) : Option ElementId → Option (List ElementId)
  | none => some []
  | some s => chain m s

def lookupLexical (m : Model) (site : Option ElementId) (name : String) :
    Option (Option ElementId) := do
  match ← (← enclosing m site).findSomeM? (memberNamed m name) with
  | some d => return some d
  | none => (← globals m).findM? (answersTo m · name)

def sees (m : Model) (site : Option ElementId) (d member : ElementId) : Option Bool := do
  return (← m.facts? member).visibility == .pub || (← enclosing m site).contains d

def descend (m : Model) (site : Option ElementId) (d : ElementId) : List String → Option Lookup
  | [] => some (.found d)
  | name :: rest => do
    match ← memberNamed m name d with
    | none => return .missing
    | some member =>
      if ← sees m site d member then descend m site member rest else return .hidden member

def lookup (m : Model) (site : Option ElementId) : List String → Option Lookup
  | [] => some .missing
  | name :: rest => do
    match ← lookupLexical m site name with
    | none => return .missing
    | some d => descend m site d rest

def find (m : Model) (text : String) : Option (Option ElementId) :=
  match QualifiedName.parse? text with
  | none => some none
  | some path => do return (← lookup m none path).found?

def importTarget (m : Model) (d : ElementId) (i : Import) : Option (Option ElementId) := do
  return (← lookup m (some d) i.path).found?

def qualifiedName (m : Model) (d : ElementId) : Option String := do
  let x ← m.facts? d
  match x.knownName with
  | some known => return known
  | none =>
    match x.owner with
    | some o =>
      if _h : o.index < d.index then
        return Model.qualify (← qualifiedName m o) x.effectiveName
      else none
    | none => return Model.qualify "" x.effectiveName
termination_by d.index

def askName (m : Model) (d : ElementId) : Option (String × Model) := do
  let name ← qualifiedName m d
  let knownNames ← (← chain m d).foldlM (fun names c => do
    return names.put c (some (← qualifiedName m c))) m.knownNames
  return (name, { m with knownNames })

variable {m : Model} {d c : ElementId} {site : Option ElementId} {name : String}

theorem globals_eq (h : m.WellFormed) : globals m = some m.globals :=
  flatMapM_eq_some fun r hr => by rw [Model.facts?_eq (h.mem_roots_iff.1 hr).1]; rfl

theorem answersTo_eq (hd : m.contains d) (name : String) :
    answersTo m d name = some (m.answersTo d name) := by
  rw [answersTo, Model.facts?_eq hd]
  rfl

theorem memberNamed_eq (h : m.WellFormed) (hd : m.contains d) (name : String) :
    memberNamed m name d = some (m.memberNamed? d name) := by
  rw [memberNamed, Model.facts?_eq hd]
  exact findM?_eq_some fun c hc => answersTo_eq (h.contains_member hc) name

theorem enclosing_eq (h : m.WellFormed) (hsite : site.all m.contains) :
    enclosing m site = some (m.enclosing site) := by
  cases site with
  | none => rfl
  | some s => exact chain_eq h hsite

private theorem contains_of_mem_enclosing (h : m.WellFormed) (hsite : site.all m.contains)
    (hd : d ∈ m.enclosing site) : m.contains d := by
  cases site with
  | none => cases hd
  | some s => exact h.contains_of_mem_ownerChain hsite hd

private theorem lookupLexical_eq (h : m.WellFormed) (hsite : site.all m.contains) (name : String) :
    lookupLexical m site name = some (m.lookupLexical? site name) := by
  have hinner : (m.enclosing site).findSomeM? (memberNamed m name) =
      some ((m.enclosing site).findSome? (m.memberNamed? · name)) :=
    findSomeM?_eq_some fun d hd =>
      memberNamed_eq h (contains_of_mem_enclosing h hsite hd) name
  have houter : m.globals.findM? (answersTo m · name) =
      some (m.globals.find? (m.answersTo · name)) :=
    findM?_eq_some fun d hd => answersTo_eq (Model.contains_of_mem_globals h hd) name
  rw [lookupLexical, enclosing_eq h hsite, Model.lookupLexical?]
  simp only [Option.bind_eq_bind, Option.bind_some, hinner]
  cases (m.enclosing site).findSome? (m.memberNamed? · name) with
  | some d => rfl
  | none =>
    rw [globals_eq h, Option.none_or]
    exact houter

private theorem sees_eq (h : m.WellFormed) (hsite : site.all m.contains) (hc : m.contains c) :
    sees m site d c = some (m.sees site d c) := by
  rw [sees, Model.facts?_eq hc, enclosing_eq h hsite]
  rfl

theorem descend_eq (h : m.WellFormed) (hsite : site.all m.contains) (hd : m.contains d)
    (path : List String) : descend m site d path = some (m.descend site d path) := by
  induction path generalizing d with
  | nil => rfl
  | cons name rest ih =>
    rw [descend, memberNamed_eq h hd, Model.descend]
    cases hmember : m.memberNamed? d name with
    | none => rfl
    | some member =>
      have hknown := Model.contains_of_memberNamed? h hmember
      simp only [Option.bind_eq_bind, Option.bind_some, sees_eq h hsite hknown, ih hknown]
      split <;> rfl

theorem lookup_eq (h : m.WellFormed) (hsite : site.all m.contains) (path : List String) :
    lookup m site path = some (m.lookup site path) := by
  cases path with
  | nil => rfl
  | cons name rest =>
    rw [lookup, lookupLexical_eq h hsite, Model.lookup]
    cases hfirst : m.lookupLexical? site name with
    | none => rfl
    | some d => exact descend_eq h hsite (Model.contains_of_lookupLexical? h hfirst) rest

theorem find_eq (h : m.WellFormed) (text : String) : find m text = some (m.find? text) := by
  rw [find, Model.find?]
  cases QualifiedName.parse? text with
  | none => rfl
  | some path =>
    have hnone : (none : Option ElementId).all m.contains := rfl
    simp only [lookup_eq h hnone]
    rfl

theorem importTarget_eq (h : m.WellFormed) (hd : m.contains d) (i : Import) :
    importTarget m d i = some (m.importTarget? d i) := by
  have hsite : (some d).all m.contains := hd
  rw [importTarget, lookup_eq h hsite]
  rfl

theorem qualifiedName_eq (h : m.WellFormed) (hd : m.contains d) :
    qualifiedName m d = some (m.qualifiedName d) := by
  induction hn : d.index using Nat.strongRecOn generalizing d with
  | _ n ih =>
    rw [qualifiedName, Model.facts?_eq hd, Model.qualifiedName]
    simp only [Option.bind_eq_bind, Option.bind_some, Model.facts]
    cases m.knownNames.get d with
    | some known => rfl
    | none =>
      cases ho : m.owner d with
      | none => rfl
      | some o =>
        have hlt := h.owner_lt ho
        simp only [hlt, dite_true, ih o.index (hn ▸ hlt) (h.contains_owner ho) rfl]
        rfl

theorem askName_eq (h : m.WellFormed) (hd : m.contains d) :
    askName m d = some (m.qualifiedName d, m.rememberName d) := by
  have hput : ∀ names : Column (Option String), True → ∀ c ∈ m.ownerChain d,
      (do return names.put c (some (← qualifiedName m c))) =
        some (names.put c (some (m.qualifiedName c))) ∧ True := fun names _ c hc =>
    ⟨by rw [qualifiedName_eq h (h.contains_of_mem_ownerChain hd hc)]; rfl, trivial⟩
  have hputs := (foldlM_eq_some (fun _ => True) hput (b := m.knownNames) trivial).1
  rw [askName, bind_of_eq_some (qualifiedName_eq h hd), bind_of_eq_some (chain_eq h hd), hputs]
  rfl

end Kerml.Guarded
