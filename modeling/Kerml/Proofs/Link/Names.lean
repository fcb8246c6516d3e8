import Kerml.Proofs.Link.Phases

/-!
# The names that unnamed features take

From a feature without a name of its own one goes to the first declaration that it redefines, and
so on until there is a name.
-/
namespace Kerml.Model

variable {m n : Model} {d e : ElementId} {ds : List ElementId} {name : String}

/-- A declaration goes by its own name, or if it is a feature without one, by the name that the first
declaration it redefines goes by. -/
inductive GoesBy (m : Model) : ElementId → String → Prop
  | declared {d : ElementId} {name : String} (h : m.declaredName d = some name) : GoesBy m d name
  | redefined {d : ElementId} {s : Specialization} {name : String}
      (hd : (m.metaclass d).isFeature) (hname : m.declaredName d = none)
      (hs : (m.specializationsOf d .redefinition).head? = some s) (h : GoesBy m s.general name) :
      GoesBy m d name

theorem GoesBy.unique {other : String} (h : m.GoesBy d name) (h' : m.GoesBy d other) :
    name = other := by
  induction h with
  | declared h =>
    cases h' with
    | declared h' => exact Option.some.inj (h.symm.trans h')
    | redefined _ hname => simp [h] at hname
  | redefined _ hname hs _ ih =>
    cases h' with
    | declared h' => simp [hname] at h'
    | redefined _ _ hs' h' =>
      obtain rfl := Option.some.inj (hs.symm.trans hs')
      exact ih h'

theorem GoesBy.of_sameEdges (hn : SameEdges m n) (h : m.GoesBy d name) : n.GoesBy d name := by
  induction h with
  | declared h => exact .declared (by rwa [hn.forest])
  | redefined hd hname hs _ ih =>
    refine .redefined ?_ ?_ ?_ ih
    · rwa [hn.forest]
    · rwa [hn.forest]
    · rwa [specializationsOf, hn.specializations]

/-- Nothing goes by a name that would have to come from itself. -/
theorem not_goesBy_of_loop {s : Specialization} (hname : m.declaredName d = none)
    (hs : (m.specializationsOf d .redefinition).head? = some s) (hloop : s.general = d) :
    ¬ m.GoesBy d name := by
  intro h
  induction h with
  | declared h => simp [hname] at h
  | redefined _ _ hs' _ ih =>
    obtain rfl := Option.some.inj (hs.symm.trans hs')
    exact ih (by rwa [hloop]) (by rwa [hloop]) rfl

theorem takeName_of_not_isNameless (hd : ¬ m.isNameless d) : m.takeName d = m := by
  rw [takeName, if_neg hd]

private theorem takeName_of_redefinedName? (hd : m.redefinedName? d = none) : m.takeName d = m := by
  rw [takeName, hd]
  split <;> rfl

theorem effectiveName_of_isNameless (hd : m.isNameless d) : m.effectiveName d = none := by
  simpa using (Bool.and_eq_true_iff.1 hd).2

theorem takenNames_takeName (hd : m.isNameless d) :
    (m.takeName d).takenNames.get e =
      if d = e then m.redefinedName? d else m.takenNames.get e := by
  rw [takeName, if_pos hd]
  cases hname : m.redefinedName? d with
  | none =>
    have htaken : m.takenNames.get d = none :=
      (Option.or_eq_none_iff.1 (effectiveName_of_isNameless hd)).2
    by_cases hde : d = e
    · simp [← hde, htaken]
    · simp [hde]
  | some name => exact Column.get_put ..

theorem effectiveName_takeName (hd : m.isNameless d) :
    (m.takeName d).effectiveName e =
      if d = e then m.redefinedName? d else m.effectiveName e := by
  have hdeclared : m.declaredName d = none :=
    (Option.or_eq_none_iff.1 (effectiveName_of_isNameless hd)).1
  rw [effectiveName, (takeName_sameEdges m d).forest, takenNames_takeName hd]
  by_cases hde : d = e
  · simp [← hde, hdeclared]
  · simp [hde, effectiveName]

theorem isNameless_of_takeName (he : (m.takeName d).isNameless e) : m.isNameless e := by
  by_cases hd : m.isNameless d
  · by_cases hde : d = e
    · exact hde ▸ hd
    · simpa [isNameless, effectiveName_takeName hd, hde, (takeName_sameEdges m d).forest] using he
  · rwa [takeName_of_not_isNameless hd] at he

theorem not_isNameless_takeName (hd : m.isNameless d) (hname : m.redefinedName? d = some name) :
    ¬ (m.takeName d).isNameless d := by
  simp [isNameless, effectiveName_takeName hd, hname]

theorem mem_ids_of_isNameless (hd : m.isNameless d) : d ∈ m.ids := by
  have hfeature : (m.metaclass d).isFeature := (Bool.and_eq_true_iff.1 hd).1
  exact Forest.mem_ids_iff.2 (Forest.contains_of_isType (Forest.isType_of_isFeature hfeature))

theorem takeName_of_stuck (h : m.isNameless d → m.redefinedName? d = none) : m.takeName d = m := by
  by_cases hd : m.isNameless d
  · exact takeName_of_redefinedName? (h hd)
  · exact takeName_of_not_isNameless hd

private theorem namelessCount_takeName_le (m : Model) (d : ElementId) :
    (m.takeName d).namelessCount ≤ m.namelessCount := by
  rw [namelessCount, namelessCount, (takeName_sameEdges m d).forest]
  exact List.countP_mono_left fun e _ he => isNameless_of_takeName he

theorem namelessCount_takeName_lt (hd : m.isNameless d) (hname : m.redefinedName? d = some name) :
    (m.takeName d).namelessCount < m.namelessCount := by
  obtain ⟨before, after, hids⟩ := List.append_of_mem (mem_ids_of_isNameless hd)
  have hle : ∀ es : List ElementId, es.countP (m.takeName d).isNameless ≤ es.countP m.isNameless :=
    fun es => List.countP_mono_left fun e _ he => isNameless_of_takeName he
  have hbefore := hle before
  have hafter := hle after
  rw [namelessCount, namelessCount, (takeName_sameEdges m d).forest, hids]
  simp only [List.countP_append, List.countP_cons_of_pos hd,
    List.countP_cons_of_neg (not_isNameless_takeName hd hname)]
  omega

private theorem namelessCount_takeNamesOnce_le (m : Model) (ds : List ElementId) :
    (m.takeNamesOnce ds).namelessCount ≤ m.namelessCount := by
  induction ds generalizing m with
  | nil => exact Nat.le_refl _
  | cons d ds ih => exact Nat.le_trans (ih _) (namelessCount_takeName_le m d)

def Stuck (m : Model) (ds : List ElementId) : Prop :=
  ∀ d ∈ ds, m.isNameless d → m.redefinedName? d = none

/-- A pass gives a name to some declaration, or there was none to give. -/
theorem takeNamesOnce_progress (m : Model) (ds : List ElementId) :
    (m.takeNamesOnce ds).namelessCount < m.namelessCount ∨
      m.takeNamesOnce ds = m ∧ m.Stuck ds := by
  induction ds with
  | nil => exact Or.inr ⟨rfl, fun d hd => absurd hd List.not_mem_nil⟩
  | cons d ds ih =>
    by_cases htakes : m.isNameless d ∧ (m.redefinedName? d).isSome
    · obtain ⟨hd, hname⟩ := htakes
      obtain ⟨name, hname⟩ := Option.isSome_iff_exists.1 hname
      refine Or.inl (Nat.lt_of_le_of_lt ?_ (namelessCount_takeName_lt hd hname))
      exact namelessCount_takeNamesOnce_le (m.takeName d) ds
    · have hstuck : m.isNameless d → m.redefinedName? d = none := by
        intro hd
        simpa using fun hname => htakes ⟨hd, hname⟩
      change (((m.takeName d).takeNamesOnce ds).namelessCount < _ ∨
        (m.takeName d).takeNamesOnce ds = m ∧ _)
      rw [takeName_of_stuck hstuck]
      refine ih.imp id fun hrest => ⟨hrest.1, fun e he => ?_⟩
      rcases List.mem_cons.1 he with rfl | he
      · exact hstuck
      · exact hrest.2 e he

/-- The passes go on until none of the declarations can take a name. -/
theorem stuck_takeNames (m : Model) (ds : List ElementId) : (m.takeNames ds).Stuck ds := by
  fun_induction takeNames m ds with
  | case1 m next _ ih => exact ih
  | case2 m next hcount =>
    obtain ⟨hsame, hstuck⟩ := (takeNamesOnce_progress m ds).resolve_left hcount
    change (m.takeNamesOnce ds).Stuck ds
    rwa [hsame]

theorem takeNames_of_stuck (h : m.Stuck ds) : m.takeNames ds = m := by
  have honce : m.takeNamesOnce ds = m := by
    refine List.foldlRecOn (motive := fun n => n = m) ds takeName rfl ?_
    intro n hn d hd
    rw [hn]
    exact takeName_of_stuck (h d hd)
  rw [takeNames.eq_def]
  simp [honce]

/-- What is kept by each declaration that takes a name is kept by all passes. -/
theorem takeNames_induction {p : Model → Prop} (hstep : ∀ n, ∀ d ∈ ds, p n → p (n.takeName d))
    (hm : p m) : p (m.takeNames ds) := by
  have honce : ∀ n, p n → p (n.takeNamesOnce ds) := fun n hn =>
    List.foldlRecOn ds takeName hn fun n hn d hd => hstep n d hd hn
  fun_induction takeNames m ds with
  | case1 m next _ ih => exact ih (honce m hm)
  | case2 m next _ => exact honce m hm

theorem takeNames_singleton (m : Model) (d : ElementId) : m.takeNames [d] = m.takeName d := by
  by_cases htakes : m.isNameless d ∧ (m.redefinedName? d).isSome
  · obtain ⟨hd, hname⟩ := htakes
    obtain ⟨name, hname⟩ := Option.isSome_iff_exists.1 hname
    have hcount := namelessCount_takeName_lt hd hname
    have hnext : (m.takeName d).Stuck [d] := by
      intro e he hnameless
      rw [List.mem_singleton.1 he] at hnameless
      exact absurd hnameless (not_isNameless_takeName hd hname)
    rw [takeNames.eq_def]
    change (if _ : (m.takeName d).namelessCount < _ then (m.takeName d).takeNames [d] else _) = _
    rw [dif_pos hcount, takeNames_of_stuck hnext]
  · have hstuck : m.isNameless d → m.redefinedName? d = none := by
      intro hd
      simpa using fun hname => htakes ⟨hd, hname⟩
    rw [takeName_of_stuck hstuck]
    refine takeNames_of_stuck fun e he => ?_
    rw [List.mem_singleton.1 he]
    exact hstuck

/-- A name is taken by features without a name of their own only, from where their redefinitions
lead. -/
def TakesRightly (m : Model) : Prop :=
  ∀ d name, m.takenNames.get d = some name →
    (m.metaclass d).isFeature ∧ m.declaredName d = none ∧ m.GoesBy d name

theorem TakesRightly.goesBy (h : m.TakesRightly) (hd : m.effectiveName d = some name) :
    m.GoesBy d name := by
  rcases Option.or_eq_some_iff.1 hd with hdeclared | ⟨-, htaken⟩
  · exact .declared hdeclared
  · exact (h d name htaken).2.2

theorem TakesRightly.takeName (h : m.TakesRightly) (d : ElementId) :
    (m.takeName d).TakesRightly := by
  have hedges := takeName_sameEdges m d
  intro e name htaken
  rw [hedges.forest]
  suffices hbefore : (m.metaclass e).isFeature ∧ m.declaredName e = none ∧ m.GoesBy e name from
    ⟨hbefore.1, hbefore.2.1, hbefore.2.2.of_sameEdges hedges⟩
  by_cases hd : m.isNameless d
  · rw [takenNames_takeName hd] at htaken
    split at htaken
    · rename_i hde
      subst hde
      obtain ⟨s, hs, hname⟩ := Option.bind_eq_some_iff.1 htaken
      have hfeature : (m.metaclass d).isFeature := (Bool.and_eq_true_iff.1 hd).1
      have hdeclared := (Option.or_eq_none_iff.1 (effectiveName_of_isNameless hd)).1
      exact ⟨hfeature, hdeclared, .redefined hfeature hdeclared hs (h.goesBy hname)⟩
    · exact h e name htaken
  · rw [takeName_of_not_isNameless hd] at htaken
    exact h e name htaken

theorem TakesRightly.takeNames (h : m.TakesRightly) (ds : List ElementId) :
    (m.takeNames ds).TakesRightly :=
  takeNames_induction (p := TakesRightly) (fun _ d _ hn => hn.takeName d) h

/-- When none of the declarations can take a name any more, they have the names that they go by. -/
theorem TakesRightly.effectiveName_eq_some_iff (h : m.TakesRightly) (hstuck : m.Stuck ds)
    (hall : ∀ d, m.isNameless d → d ∈ ds) : m.effectiveName d = some name ↔ m.GoesBy d name := by
  constructor
  · exact h.goesBy
  · intro hd
    induction hd with
    | declared hd => rw [effectiveName, hd, Option.some_or]
    | @redefined d s name hd hname hs hgeneral ih =>
      have hredefined : m.redefinedName? d = some name := by
        rw [redefinedName?, hs, Option.bind_some, ih]
      cases heffective : m.effectiveName d with
      | none =>
        have hnameless : m.isNameless d := by simp [isNameless, hd, heffective]
        have hnone := hstuck d (hall d hnameless) hnameless
        simp [hredefined] at hnone
      | some other =>
        have hgoes := h.goesBy heffective
        rw [hgoes.unique (.redefined hd hname hs hgeneral)]

theorem takesRightly_named (m : Model) : m.named.TakesRightly := by
  have hrequested : m.requested.TakesRightly := by
    intro d name htaken
    rw [(requested_sameNames m).takenNames] at htaken
    cases htaken
  exact hrequested.takeNames m.preorder

theorem effectiveName_named (h : m.WellFormed) :
    m.named.effectiveName d = some name ↔ m.named.GoesBy d name := by
  have hstuck := stuck_takeNames m.requested m.preorder
  refine (takesRightly_named m).effectiveName_eq_some_iff hstuck fun e he => ?_
  have hknown := Forest.mem_ids_iff.1 (mem_ids_of_isNameless he)
  rw [named_forest] at hknown
  exact h.mem_preorder_iff.2 hknown

/-- A feature without a name of its own takes the name of the first declaration that it redefines,
if that has one. -/
theorem takenNames_named (h : m.WellFormed) (hd : (m.metaclass d).isFeature)
    (hname : m.declaredName d = none) : m.named.takenNames.get d = m.named.redefinedName? d := by
  have hdeclared : m.named.declaredName d = none := by rwa [named_forest]
  have hfeature : (m.named.metaclass d).isFeature := by rwa [named_forest]
  have heffective : m.named.effectiveName d = m.named.takenNames.get d := by
    rw [effectiveName, hdeclared, Option.none_or]
  rw [← heffective]
  refine Option.ext fun name => ?_
  rw [effectiveName_named h, redefinedName?, Option.bind_eq_some_iff]
  constructor
  · intro hgoes
    cases hgoes with
    | declared hname => simp [hdeclared] at hname
    | redefined _ _ hs hgeneral => exact ⟨_, hs, (effectiveName_named h).2 hgeneral⟩
  · rintro ⟨s, hs, hgeneral⟩
    exact .redefined hfeature hdeclared hs ((effectiveName_named h).1 hgeneral)

theorem takenNames_named_eq_none (hd : ¬ ((m.metaclass d).isFeature ∧ m.declaredName d = none)) :
    m.named.takenNames.get d = none := by
  cases hname : m.named.takenNames.get d with
  | none => rfl
  | some name =>
    have hright := takesRightly_named m d name hname
    rw [named_forest] at hright
    exact absurd ⟨hright.1, hright.2.1⟩ hd

end Kerml.Model
