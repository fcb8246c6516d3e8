import Kerml.Proofs.Classification.Walk

/-!
# Visits of the walk that derives categories

A visit gathers what the visited declaration derives, except for what it shares with the open
types that it reached. When it reached none, what it gathered is complete.
-/
namespace Kerml

open Relation

/-- What a visit made of a walk, and what it brought back. -/
structure Visited (m : Model) (w : Walk) (d : ElementId) (w' : Walk) (v : Visit) : Prop where
  sound : w'.Sound m
  path : ∃ new, w'.path = new ++ w.path ∧
    ∀ x ∈ new, w'.Finished m v x ∧ ∃ y ∈ w.path, ReflTransGen m.Asks x y
  gathered : ∀ {c}, v.gathered.has c → m.Derives d c
  reached : ∀ {r}, v.reached = some r → ∃ y ∈ w.path, w.height y = r ∧ ReflTransGen m.Asks d y
  covered : w'.Covers m v d
  keeps : w.Keeps w'
  knows : w'.Knows m d

/-- The visit of a type that was entered from a walk, after some of the types it specializes. -/
structure Gathering (m : Model) (w : Walk) (d : ElementId) (past : List ElementId) (w' : Walk)
    (v : Visit) : Prop where
  sound : w'.Sound m
  path : ∃ new, w'.path = new ++ [d] ++ w.path ∧ ∀ x ∈ new, w'.Finished m v x
  leads : ∀ {x}, x ∈ w'.path → ReflTransGen m.Asks x d
  shown : ∀ {c}, (m.shown d).has c → v.gathered.has c
  covered : ∀ t ∈ past, w'.Covers m v t
  gathered : ∀ {c}, v.gathered.has c → m.Derives d c
  reached : ∃ r ≤ w.path.length, v.reached = some r ∧
    ∃ y ∈ w'.path, w'.height y = r ∧ ReflTransGen m.Asks d y
  keeps : w.Keeps w'
  knows : ∀ t ∈ past, w'.Knows m t

variable {m : Model} {w w' w'' : Walk} {v u : Visit} {d t : ElementId} {past : List ElementId}

namespace Visited

/-- A declaration that is not entered leaves the walk as it is. -/
theorem stay (hw : w.Sound m) (hgathered : ∀ c, v.gathered.has c ↔ m.Derives d c)
    (hv : v.reached = none) (hknows : w.Knows m d) : Visited m w d w v where
  sound := hw
  path := ⟨[], rfl, fun x hx => absurd hx List.not_mem_nil⟩
  gathered := (hgathered _).1
  reached hr := by simp [hv] at hr
  covered := Or.inr fun c => (hgathered c).2
  keeps := .refl w
  knows := hknows

/-- A type that is open has been found on the path. -/
theorem back (hw : w.Sound m) (hd : d ∈ w.path) : Visited m w d w ⟨∅, some (w.height d)⟩ where
  sound := hw
  path := ⟨[], rfl, fun x hx => absurd hx List.not_mem_nil⟩
  gathered hc := by simp at hc
  reached hr := ⟨d, hd, Option.some.inj hr, .refl⟩
  covered := Or.inl ⟨hd, w.height d, Nat.le_refl _, rfl⟩
  keeps := .refl w
  knows _ := by simp [hw.mem_path_iff.1 hd]

end Visited

namespace Gathering

theorem enter (hw : w.Sound m) (hleads : ∀ x ∈ w.path, ReflTransGen m.Asks x d)
    (hd : m.isType d) (hmemo : w.memos.get d = .unknown) :
    Gathering m w d [] (w.enter d) ⟨(m.metaclass d).categories, some w.path.length⟩ := by
  have hshown : m.shown d = (m.metaclass d).categories := by
    simp [Model.shown, hd, hw.unknown_before hmemo]
  constructor
  · exact hw.enter hd hmemo
  · exact ⟨[], rfl, fun x hx => absurd hx List.not_mem_nil⟩
  · intro x hx
    rcases List.mem_cons.1 hx with rfl | hx
    · exact .refl
    · exact hleads x hx
  · intro c hc
    rwa [hshown] at hc
  · exact fun t ht => absurd ht List.not_mem_nil
  · intro c hc
    exact .shown (hshown ▸ hc)
  · exact ⟨w.path.length, Nat.le_refl _, rfl, d, List.mem_cons_self,
      Walk.height_head rfl, .refl⟩
  · exact .enter w d
  · exact fun t ht => absurd ht List.not_mem_nil

/-- Another of the types that the entered one specializes was visited. -/
theorem step (h : Gathering m w d past w' v) (hd : m.Asks d t) (hu : Visited m w' t w'' u) :
    Gathering m w d (past ++ [t]) w'' (v.join u) := by
  obtain ⟨new, hpath, hnew⟩ := h.path
  obtain ⟨more, hmore, hfinished⟩ := hu.path
  have hnodup := hu.sound.path_nodup
  have hleft := Visit.below_join_left v u
  have hright := Visit.below_join_right v u
  have hback : ∀ {x}, x ∈ w'.path → w''.height x = w'.height x :=
    fun hx => Walk.height_eq_of_append hmore hnodup hx
  constructor
  · exact hu.sound
  · refine ⟨more ++ new, by simp [hmore, hpath], ?_⟩
    intro x hx
    rcases List.mem_append.1 hx with hx | hx
    · exact (hfinished x hx).1.mono (List.nil_append _).symm hnodup hright (.refl w'')
    · exact (hnew x hx).mono hmore hnodup hleft hu.keeps
  · intro x hx
    rcases List.mem_append.1 (hmore ▸ hx) with hx | hx
    · obtain ⟨y, hy, hxy⟩ := (hfinished x hx).2
      exact hxy.trans (h.leads hy)
    · exact h.leads hx
  · exact fun hc => hleft.gathered _ (h.shown hc)
  · intro s hs
    rcases List.mem_append.1 hs with hs | hs
    · exact (h.covered s hs).mono hmore hnodup hleft
    · obtain rfl := List.mem_singleton.1 hs
      exact hu.covered.mono (List.nil_append _).symm hnodup hright
  · intro c hc
    rw [Visit.join, Categories.has_union, Bool.or_eq_true] at hc
    rcases hc with hc | hc
    · exact h.gathered hc
    · exact (hu.gathered hc).head (.single hd)
  · obtain ⟨r, hr, hv, y, hy, hyr, hdy⟩ := h.reached
    obtain ⟨s, hs, hjoin⟩ := hleft.reached r hv
    refine ⟨s, Nat.le_trans hs hr, hjoin, ?_⟩
    rcases Visit.reached_join hjoin with hold | hfound
    · obtain rfl : r = s := Option.some.inj (hv.symm.trans hold)
      exact ⟨y, hmore ▸ List.mem_append_right _ hy, (hback hy).trans hyr, hdy⟩
    · obtain ⟨z, hz, hzs, htz⟩ := hu.reached hfound
      exact ⟨z, hmore ▸ List.mem_append_right _ hz, (hback hz).trans hzs, .head hd htz⟩
  · exact h.keeps.trans hu.keeps
  · intro s hs
    rcases List.mem_append.1 hs with hs | hs
    · exact (h.knows s hs).mono hu.keeps
    · obtain rfl := List.mem_singleton.1 hs
      exact hu.knows

theorem foldl {visit : Walk → ElementId → Walk × Visit}
    (hvisit : ∀ {w' t}, w'.Sound m → (∀ x ∈ w'.path, ReflTransGen m.Asks x t) →
      w.path.length < w'.path.length → Visited m w' t (visit w' t).1 (visit w' t).2)
    {ts : List ElementId} (hts : ∀ t ∈ ts, m.Asks d t) (h : Gathering m w d past w' v) :
    let after := ts.foldl (fun acc t => ((visit acc.1 t).1, acc.2.join (visit acc.1 t).2)) (w', v)
    Gathering m w d (past ++ ts) after.1 after.2 := by
  induction ts generalizing past w' v with
  | nil => simpa using h
  | cons t ts ih =>
    have ht := hts t List.mem_cons_self
    have hlength : w.path.length < w'.path.length := by
      obtain ⟨new, hpath, -⟩ := h.path
      simp only [hpath, List.length_append, List.length_cons]
      omega
    have hu := hvisit h.sound (fun x hx => (h.leads hx).tail ht) hlength
    have hrest := ih (fun s hs => hts s (List.mem_cons_of_mem t hs)) (h.step ht hu)
    simpa using hrest

theorem exists_inside (h : Gathering m w d past w' v) (hpast : m.generalTypes d ⊆ past) :
    ∃ inside, w'.path = inside ++ w.path ∧ d ∈ inside ∧ ∀ x ∈ inside, w'.Finished m v x := by
  obtain ⟨new, hpath, hnew⟩ := h.path
  refine ⟨new ++ [d], hpath, by simp, ?_⟩
  intro x hx
  rcases List.mem_append.1 hx with hx | hx
  · exact hnew x hx
  · obtain rfl := List.mem_singleton.1 hx
    exact ⟨fun c => h.shown, fun t ht => ⟨h.covered t (hpast ht), h.knows t (hpast ht)⟩⟩

/-- A visit that reached below the entered type leaves it open. -/
theorem leave_open (h : Gathering m w d past w' v) (hpast : m.generalTypes d ⊆ past)
    (hlow : v.reached.any (· < w.path.length)) : Visited m w d w' v := by
  obtain ⟨inside, hpath, hself, hfinished⟩ := h.exists_inside hpast
  obtain ⟨r, hr, hv, y, hy, hyr, hdy⟩ := h.reached
  have hlt : r < w.path.length := by simpa [hv] using hlow
  have hin : y ∈ w.path := by
    rcases List.mem_append.1 (hpath ▸ hy) with hy' | hy'
    · have hhigh := Walk.le_height_of_mem_new hpath hy'
      omega
    · exact hy'
  have hback := Walk.height_eq_of_append hpath h.sound.path_nodup hin
  constructor
  · exact h.sound
  · refine ⟨inside, hpath, ?_⟩
    intro x hx
    have hlead := h.leads (hpath ▸ List.mem_append_left _ hx)
    exact ⟨hfinished x hx, y, hin, hlead.trans hdy⟩
  · exact h.gathered
  · intro s hs
    obtain rfl : r = s := Option.some.inj (hv.symm.trans hs)
    exact ⟨y, hin, hback.symm.trans hyr, hdy⟩
  · have hhigh := Walk.le_height_of_mem_new hpath hself
    exact Or.inl ⟨hpath ▸ List.mem_append_left _ hself, r, by omega, hv⟩
  · exact h.keeps
  · intro _
    simp [h.sound.mem_path_iff.1 (hpath ▸ List.mem_append_left _ hself)]

/-- When nothing below was reached, all that is above derives what was gathered. -/
theorem gathered_iff (h : Gathering m w d past w' v) (hhigh : ¬ v.reached.any (· < w.path.length))
    {inside : List ElementId} (hpath : w'.path = inside ++ w.path)
    (hfinished : ∀ y ∈ inside, w'.Finished m v y) {x : ElementId} (hx : x ∈ inside)
    {c : Category} : v.gathered.has c ↔ m.Derives x c := by
  obtain ⟨r, hr, hv, -⟩ := h.reached
  have hr : r = w.path.length := by
    have hnot : ¬ r < w.path.length := by simpa [hv] using hhigh
    omega
  constructor
  · intro hc
    exact (h.gathered hc).head (h.leads (hpath ▸ List.mem_append_left _ hx))
  · rintro ⟨e, hxe, he⟩
    -- what is gone on to stays above until all that follows was gathered
    induction hxe using ReflTransGen.head_induction_on with
    | refl => exact (hfinished e hx).1 c he
    | @head y t hyt hte ih =>
      rcases ((hfinished y hx).2 t hyt.2.2).1 with ⟨ht, s, hs, hvs⟩ | hall
      · obtain rfl : r = s := Option.some.inj (hv.symm.trans hvs)
        rcases List.mem_append.1 (hpath ▸ ht) with ht' | ht'
        · exact ih ht'
        · have hback := Walk.height_eq_of_append hpath h.sound.path_nodup ht'
          have hlt := Walk.height_lt ht'
          omega
      · exact hall c ⟨e, hte, he⟩

/-- A visit that reached nothing below the entered type closes it. -/
theorem leave_closed (h : Gathering m w d past w' v) (hpast : m.generalTypes d ⊆ past)
    (hhigh : ¬ v.reached.any (· < w.path.length)) :
    Visited m w d (w'.close w.path.length v.gathered) ⟨v.gathered, none⟩ := by
  obtain ⟨inside, hpath, hself, hfinished⟩ := h.exists_inside hpast
  have hinside : ∀ x ∈ inside, ∀ c, v.gathered.has c ↔ m.Derives x c :=
    fun x hx c => h.gathered_iff hhigh hpath hfinished hx
  have hclosed : w'.Keeps (w'.close w.path.length v.gathered) := .close hpath v.gathered
  constructor
  · exact h.sound.close hpath hinside fun x hx t ht => ((hfinished x hx).2 t ht).2
  · exact ⟨[], by rw [Walk.close_eq hpath]; rfl, fun x hx => absurd hx List.not_mem_nil⟩
  · exact h.gathered
  · intro r hr
    cases hr
  · exact Or.inr fun c => (hinside d hself c).2
  · exact h.keeps.trans hclosed
  · intro _
    refine hclosed d ?_
    simp [h.sound.mem_path_iff.1 (hpath ▸ List.mem_append_left _ hself)]

end Gathering

/-- Every visit does what it should, given that the path leads to the declaration and that no path
through the model is longer than the depth allows. -/
theorem visited_visit (depth : Nat) (hw : w.Sound m)
    (hleads : ∀ x ∈ w.path, ReflTransGen m.Asks x d) (hdepth : m.size < w.path.length + depth) :
    Visited m w d (m.visit depth w d).1 (m.visit depth w d).2 := by
  induction depth generalizing w d with
  | zero =>
    have := hw.length_path_le
    omega
  | succ depth ih =>
    rw [Model.visit]
    by_cases hd : m.isType d
    · simp only [hd, Bool.not_true, Bool.false_eq_true, if_false]
      cases hmemo : w.memos.get d with
      | done b => exact .stay hw (hw.done hd hmemo) rfl fun _ => by simp [hmemo]
      | inProgress => exact .back hw (hw.mem_path_iff.2 hmemo)
      | unknown =>
        have hunknown := hw.unknown_before hmemo
        have hall := (Gathering.enter hw hleads hd hmemo).foldl
          (fun hs hl hlt => ih hs hl (by omega)) (fun t ht => ⟨hd, hunknown, ht⟩)
        dsimp only
        split
        · exact hall.leave_open (List.Subset.refl _) ‹_›
        · exact hall.leave_closed (List.Subset.refl _) ‹_›
    · have hshows : ∀ c, (m.metaclass d).categories.has c ↔ m.Derives d c := by
        intro c
        rw [Model.derives_iff_shown fun t ht => hd ht.1]
        simp [Model.shown, hd]
      simp only [hd]
      exact .stay hw hshows rfl fun ht => absurd ht hd

end Kerml
