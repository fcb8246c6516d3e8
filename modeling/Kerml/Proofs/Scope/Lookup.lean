import Kerml.Proofs.Scope.Entries
import Kerml.Resolution

/-!
# What a name stands for in a scope

Seen from outside, the public members of a declaration come before all else, and only a
redefinition takes them out.
-/
namespace Kerml

/-- In a list where one element alone has a property, nothing else is selected by it. -/
theorem filter_eq_singleton {α : Type} {p : α → Bool} {a : α} {as : List α} (hnodup : as.Nodup)
    (ha : a ∈ as) (hp : p a) (honly : ∀ b ∈ as, p b → b = a) : as.filter p = [a] := by
  obtain ⟨before, after, rfl⟩ := List.append_of_mem ha
  have hne : a ∉ before ∧ a ∉ after := by
    rw [List.nodup_middle, List.nodup_cons, List.mem_append, not_or] at hnodup
    exact hnodup.1
  have hnone : ∀ {cs : List α}, a ∉ cs → (∀ b ∈ cs, b ∈ before ++ a :: after) →
      cs.filter p = [] := by
    intro cs hcs hsub
    rw [List.filter_eq_nil_iff]
    intro b hb hpb
    exact hcs (honly b (hsub b hb) hpb ▸ hb)
  rw [List.filter_append, List.filter_cons_of_pos hp, hnone hne.1 (by simp +contextual),
    hnone hne.2 (by simp +contextual), List.nil_append]

/-- Whether a candidate answers to a name: to its new name alone if it has one, and otherwise to the
names of its declaration. -/
def Candidate.answersTo (c : Candidate) (m : Model) (name : String) : Bool :=
  match c.newName with
  | some given => given == name
  | none => m.answersTo c.element name

namespace Scope

variable {s : Scope} {name : String} {t : ElementId}

/-- Where nothing but one declaration answers to a name, the name stands for it or for nothing. -/
theorem resolve_of_forall (hnodup : s.elements.Nodup)
    (h : ∀ e ∈ s.lookup name, e.element = t) :
    s.resolve name = .notFound ∨ s.resolve name = .found t := by
  rw [resolve]
  cases hlookup : s.lookup name with
  | nil => exact Or.inl rfl
  | cons e rest =>
    have hsingle : rest = [] := by
      have hkeys : ((e :: rest).map (·.element)).Nodup := by
        rw [← hlookup]
        exact hnodup.sublist (List.filter_sublist.map _)
      rw [hlookup] at h
      cases rest with
      | nil => rfl
      | cons e' rest =>
        have he : e.element = e'.element := (h e (by simp)).trans (h e' (by simp)).symm
        simp [he] at hkeys
    rw [hlookup] at h
    right
    simp [hsingle, h e List.mem_cons_self, Resolution.ofCandidates]

/-- Of the entries that come first, one alone answers to a name. The name stands for it, if all
later entries are of other origins. -/
theorem resolve_of_lookup {e : ScopeEntry} {first others : List ScopeEntry}
    (hentries : s.entries = first ++ others)
    (hfirst : first.filter (fun e => e.name == name || e.shortName == some name) = [e])
    (hothers : ∀ x ∈ others, x.origin ≠ e.origin) : s.resolve name = .found e.element := by
  rw [resolve, lookup, hentries, List.filter_append, hfirst, List.singleton_append]
  have hnone : (others.filter fun e => e.name == name || e.shortName == some name).filter
      (·.origin == e.origin) = [] := by
    rw [List.filter_eq_nil_iff]
    intro x hx
    simpa using hothers x (List.mem_filter.1 hx).1
  simp only [hnone, List.map_nil, Resolution.ofCandidates]

end Scope

namespace Model

variable {m : Model} {v : Viewpoint} {d t : ElementId} {name : String}

theorem elements_scope_nodup (m : Model) (v : Viewpoint) (d : ElementId) :
    (m.scope v d).elements.Nodup := by
  rw [scope]
  split
  · exact (nodup_map_distinctBy _).sublist (List.filter_sublist.map _)
  · exact List.nodup_nil

structure NamedAlone (m : Model) (ds : List ElementId) (name : String) (d : ElementId) : Prop where
  mem : d ∈ ds
  effectiveName_eq : m.effectiveName d = some name
  eq_of_answersTo : ∀ e ∈ ds, m.answersTo e name → e = d

namespace NamedAlone

variable {ds : List ElementId}

theorem answersTo (h : m.NamedAlone ds name d) : m.answersTo d name := by
  simp [Model.answersTo, h.effectiveName_eq]

theorem filter_eq (h : m.NamedAlone ds name d) (hnodup : ds.Nodup) :
    ds.filter (m.answersTo · name) = [d] :=
  filter_eq_singleton hnodup h.mem h.answersTo h.eq_of_answersTo

theorem find?_eq (h : m.NamedAlone ds name d) : ds.find? (m.answersTo · name) = some d := by
  cases hfind : ds.find? (m.answersTo · name) with
  | none => exact absurd h.answersTo (List.find?_eq_none.1 hfind d h.mem)
  | some e =>
    have hanswers : m.answersTo e name := by simpa using List.find?_some hfind
    rw [h.eq_of_answersTo e (List.mem_of_find?_eq_some hfind) hanswers]

end NamedAlone

/-- A declaration is redefined if a specialization that is held anywhere is a redefinition of it. -/
def IsRedefined (m : Model) (t : ElementId) : Prop :=
  ∃ d, ∃ s ∈ m.specializations.get d, s.kind.includes .redefinition ∧ s.general = t

theorem isRedefined_iff (h : Coherent m) : m.IsRedefined t ↔
    ∃ d ∈ m.ids, ∃ s ∈ m.specializations.get d, s.kind.includes .redefinition ∧ s.general = t := by
  constructor
  · rintro ⟨d, s, hs, hkind, ht⟩
    have hd : m.contains d := Forest.contains_of_isType (h.isType_of_edge hs)
    exact ⟨d, Forest.mem_ids_iff.2 hd, s, hs, hkind, ht⟩
  · rintro ⟨d, -, s, hs, hkind, ht⟩
    exact ⟨d, s, hs, hkind, ht⟩

private theorem isRedefined_of_mem_redefinitions {r : Redefinition} (hr : r ∈ m.redefinitions v d) :
    m.IsRedefined r.redefined := by
  have hby : ∀ {distance e}, r ∈ m.redefinitionsBy distance e → m.IsRedefined r.redefined := by
    intro distance e hr
    obtain ⟨s, hs, rfl⟩ := List.mem_map.1 hr
    obtain ⟨hs, hkind⟩ := List.mem_filter.1 hs
    exact ⟨e, s, hs, hkind, rfl⟩
  have hin : ∀ {distance e}, r ∈ m.redefinitionsIn distance e → m.IsRedefined r.redefined := by
    intro distance e hr
    obtain ⟨c, -, hc⟩ := List.mem_flatMap.1 hr
    exact hby hc
  simp only [redefinitions, List.mem_append, List.mem_flatMap] at hr
  rcases hr with (hr | hr) | ⟨a, -, hr⟩
  · exact hby hr
  · exact hin hr
  · cases hfar : (m.distances v d).lookup a.element with
    | none => simp [hfar] at hr
    | some distance => exact hin (by simpa [hfar] using hr)

private theorem isRedefined_of_mem_groups {g : RedefinitionGroup} (hg : g ∈ groups (m.redefinitions v d)) :
    m.IsRedefined g.redefined := by
  obtain ⟨key, hkey, rfl⟩ := List.mem_map.1 hg
  obtain ⟨r, hr, rfl⟩ := List.mem_map.1 (mem_of_mem_distinct hkey)
  exact isRedefined_of_mem_redefinitions hr

/-- An entry answers to what its candidate answers to. -/
theorem answersTo_entry_iff {c : Candidate} {e : ScopeEntry} (he : m.entry? c = some e) :
    e.name = name ∨ e.shortName = some name ↔ c.answersTo m name := by
  obtain ⟨shown, hshown, rfl⟩ := Option.map_eq_some_iff.1 he
  rw [Candidate.answersTo]
  cases hnew : c.newName with
  | some given =>
    obtain rfl : given = shown := by simpa [hnew] using hshown
    simp
  | none =>
    simp only [hnew, Option.none_or] at hshown
    simp only [Option.isSome_none, Bool.false_eq_true, if_false, answersTo, Bool.or_eq_true,
      beq_iff_eq]
    -- the short name is shown in place of a missing name
    rcases Option.or_eq_some_iff.1 hshown with hname | ⟨hname, hshort⟩ <;> grind

def keeps (m : Model) (v : Viewpoint) (d : ElementId) (e : ScopeEntry) : Bool :=
  !(((groups (m.redefinitions v d)).filter (·.isUnique)).map (·.redefined)).contains e.element

private theorem keeps_of_not_isRedefined {e : ScopeEntry} (h : ¬ m.IsRedefined e.element) :
    m.keeps v d e := by
  rw [keeps, Bool.not_eq_true', List.contains_eq_mem, decide_eq_false_iff_not]
  intro hmem
  obtain ⟨g, hg, hge⟩ := List.mem_map.1 hmem
  exact h (hge ▸ isRedefined_of_mem_groups (List.mem_filter.1 hg).1)

def memberEntries (m : Model) (d : ElementId) : List ScopeEntry :=
  (m.membersFor d .outsider).filterMap fun c => m.entry? { element := c, origin := .own }

theorem elements_memberEntries_nodup (h : m.WellFormed) (d : ElementId) :
    ((m.memberEntries d).map (·.element)).Nodup := by
  have hnamed : (m.memberEntries d).map (·.element) = (m.membersFor d .outsider).filter fun c =>
      Candidate.isNameable { element := c, origin := .own } m := by
    rw [memberEntries, List.map_filterMap, ← List.filterMap_eq_filter]
    refine List.filterMap_congr fun c _ => ?_
    rw [Option.guard, ← isSome_entry]
    cases hc : m.entry? { element := c, origin := .own } with
    | none => rfl
    | some e => simp [element_of_entry hc]
  rw [hnamed]
  exact ((h.members_nodup d).filter _).filter _

/-- The public members of a declaration come first in its scope as it is seen from outside. -/
theorem exists_entries_outside (h : m.WellFormed) (hd : m.contains d) :
    ∃ others, (m.scope .outside d).entries =
        (m.memberEntries d).filter (m.keeps .outside d) ++ others ∧
      ∀ e ∈ others, e.origin ≠ .own := by
  obtain ⟨later, hlater, horigin⟩ : ∃ later, m.candidates .outside d =
      (m.membersFor d .outsider).map (fun c => ({ element := c, origin := .own } : Candidate)) ++
        later ∧ ∀ c ∈ later, c.origin ≠ .own := by
    rw [candidates_eq_listed, listed, if_neg (by simp), List.append_nil, List.append_assoc]
    refine ⟨_, rfl, fun c hc => ?_⟩
    rcases List.mem_append.1 hc with himported | hinherited
    · obtain ⟨i, -, rfl⟩ := List.mem_map.1 himported
      simp
    · obtain ⟨a, -, ha⟩ := List.mem_flatMap.1 hinherited
      obtain ⟨t, -, rfl⟩ := List.mem_map.1 (by simpa using ha)
      simp
  have hfirst : ((m.membersFor d .outsider).map fun c =>
      ({ element := c, origin := .own } : Candidate)).filterMap m.entry? = m.memberEntries d :=
    List.filterMap_map
  rw [scope, if_pos hd]
  simp only [unhiddenEntries, hlater, List.filterMap_append, hfirst, distinctBy_append,
    distinctBy_eq_self (elements_memberEntries_nodup h d), List.filter_append]
  refine ⟨_, rfl, fun e he => ?_⟩
  have hmem : e ∈ later.filterMap m.entry? :=
    mem_of_mem_distinctBy (List.mem_filter.1 (List.mem_filter.1 he).1).1
  obtain ⟨c, hc, hce⟩ := List.mem_filterMap.1 hmem
  rw [origin_of_entry hce]
  exact horigin c hc

/-- From outside, a name stands for the public member that alone answers to it, if that is not
redefined. -/
theorem resolve_scope_outside (h : m.WellFormed) (halone : m.NamedAlone (m.members d) name t)
    (hpublic : m.visibility t = .pub) (hkept : ¬ m.IsRedefined t) :
    (m.scope .outside d).resolve name = .found t := by
  have hd : m.contains d := h.contains_owner (h.mem_members_iff.1 halone.mem)
  obtain ⟨others, hentries, horigin⟩ := exists_entries_outside h hd
  obtain ⟨e, he⟩ : ∃ e, m.entry? { element := t, origin := .own } = some e := by
    rw [← Option.isSome_iff_exists, isSome_entry, Candidate.isNameable, halone.effectiveName_eq]
    simp
  have helement : e.element = t := element_of_entry he
  have hshown : e.name = name := by
    obtain ⟨shown, hshown, rfl⟩ := Option.map_eq_some_iff.1 he
    simpa [halone.effectiveName_eq] using hshown.symm
  have hlisted : e ∈ (m.memberEntries d).filter (m.keeps .outside d) := by
    refine List.mem_filter.2 ⟨List.mem_filterMap.2 ⟨t, ?_, he⟩, ?_⟩
    · exact List.mem_filter.2 ⟨halone.mem, by rw [hpublic]; rfl⟩
    · exact keeps_of_not_isRedefined (by rwa [helement])
  have hnodup : ((m.memberEntries d).filter (m.keeps .outside d)).Nodup :=
    (elements_memberEntries_nodup h d).of_map.filter _
  rw [← helement]
  refine Scope.resolve_of_lookup hentries (filter_eq_singleton hnodup hlisted ?_ ?_) ?_
  · simp [hshown]
  · intro x hx hanswers
    obtain ⟨c, hc, hcx⟩ := List.mem_filterMap.1 (List.mem_filter.1 hx).1
    have hct : c = t :=
      halone.eq_of_answersTo c (List.mem_filter.1 hc).1
        ((answersTo_entry_iff hcx).1 (by simpa using hanswers))
    rw [hct, he] at hcx
    exact (Option.some.inj hcx).symm
  · rw [origin_of_entry he]
    exact horigin

end Model
end Kerml
