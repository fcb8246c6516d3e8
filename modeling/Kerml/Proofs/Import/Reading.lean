import Kerml.Import
import Kerml.Proofs.QualifiedName.RoundTrip

/-!
# How directives are read

What follows the path of a directive is told from the path by its marks, so that no name on the
path may be one. A directive that has been read is read again from its own text. As quotes are
gone before marks are looked for, they do not make a name out of a mark.
-/
namespace Kerml.Import

open QualifiedName

variable {text : String} {path segments : List String} {shape : ImportShape} {i : Import}

/-- A directive that is read from segments: private and without a new name, its path is not empty
and holds no mark, and the segments are the path followed by the marks of the shape. -/
structure IsReadFrom (i : Import) (segments : List String) : Prop where
  visibility : i.visibility = .priv
  newName : i.newName = none
  span : i.span = none
  path_ne_nil : i.path ≠ []
  unmarked : ∀ s ∈ i.path, s ≠ "*" ∧ s ≠ "**"
  segments_eq : segments = i.path ++ i.shape.marks

private theorem append_marks_splitMarks (segments : List String) :
    (splitMarks segments).1 ++ (splitMarks segments).2.marks = segments := by
  have hreverse : ∀ (front back : List String), segments.reverse = back ++ front →
      front.reverse ++ back.reverse = segments := by
    intro front back h
    rw [← List.reverse_append, ← h, List.reverse_reverse]
  rw [splitMarks]
  split
  · exact hreverse _ ["**", "*"] ‹_›
  · exact hreverse _ ["**"] ‹_›
  · exact hreverse _ ["*"] ‹_›
  · exact List.append_nil segments

/-- The marks after a path without marks are taken off it again. -/
theorem splitMarks_append_marks (hpath : ∀ s ∈ path, s ≠ "*" ∧ s ≠ "**") (shape : ImportShape) :
    splitMarks (path ++ shape.marks) = (path, shape) := by
  have hlast : ∀ {s rest}, path.reverse = s :: rest → s ≠ "*" ∧ s ≠ "**" := by
    intro s rest h
    exact hpath s (List.mem_reverse.1 (h ▸ List.mem_cons_self))
  cases shape with
  | specific =>
    rw [ImportShape.marks, List.append_nil, splitMarks]
    split
    · exact absurd rfl (hlast ‹_›).2
    · exact absurd rfl (hlast ‹_›).2
    · exact absurd rfl (hlast ‹_›).1
    · rfl
  | wildcard => simp [ImportShape.marks, splitMarks]
  | recursive =>
    have hreverse : (path ++ ImportShape.recursive.marks).reverse = "**" :: path.reverse := by
      simp [ImportShape.marks]
    rw [splitMarks, hreverse]
    split
    -- `*` in front of the mark would be a mark as well, but it is on the path
    · rename_i rest heq
      exact absurd rfl (hlast (List.cons.inj heq).2).1
    · rename_i heq
      rw [← (List.cons.inj heq).2, List.reverse_reverse]
    · rename_i heq
      simp at heq
    · rename_i hother _
      exact absurd rfl (hother path.reverse)
  | recursiveExclusive => simp [ImportShape.marks, splitMarks]

private theorem isReadFrom_iff : i.IsReadFrom segments ↔
    i = { path := (splitMarks segments).1, shape := (splitMarks segments).2 } ∧
      (splitMarks segments).1 ≠ [] ∧ ∀ s ∈ (splitMarks segments).1, s ≠ "*" ∧ s ≠ "**" := by
  constructor
  · intro h
    have hsplit : splitMarks segments = (i.path, i.shape) := by
      rw [h.segments_eq, splitMarks_append_marks h.unmarked]
    refine ⟨?_, by rw [hsplit]; exact h.path_ne_nil, by rw [hsplit]; exact h.unmarked⟩
    calc i = ⟨i.path, i.shape, i.visibility, i.newName, i.span⟩ := rfl
      _ = ⟨i.path, i.shape, .priv, none, none⟩ := by rw [h.visibility, h.newName, h.span]
      _ = _ := by rw [hsplit]
  · rintro ⟨rfl, hpath, hunmarked⟩
    exact ⟨rfl, rfl, rfl, hpath, hunmarked, (append_marks_splitMarks segments).symm⟩

theorem parse?_of_isBlank (h : text.toList.all Text.isBlank) : parse? text = none := by
  rw [parse?, Text.trim_eq_nil_iff.2 (by simpa using h)]
  rfl

/-- A path is accepted if it is not empty and holds no mark. -/
theorem isEmpty_or_any_isMark_eq_false_iff : (path.isEmpty || path.any isMark) = false ↔
    path ≠ [] ∧ ∀ s ∈ path, s ≠ "*" ∧ s ≠ "**" := by
  simp [isMark]

theorem parse_eq_ok_iff :
    parse text = .ok i ↔ ∃ segments, parse? text = some segments ∧ i.IsReadFrom segments := by
  rw [parse]
  split
  · rename_i hblank
    simp [parse?_of_isBlank hblank]
  · cases hsegments : parse? text with
    | none => simp
    | some segments =>
      simp only [Option.some.injEq, exists_eq_left', isReadFrom_iff,
        ← isEmpty_or_any_isMark_eq_false_iff]
      split
      · rename_i hrefused
        simp [hrefused]
      · rename_i haccepted
        simp [haccepted, eq_comm]

/-- Why a text is refused depends on whether there is anything in it. -/
theorem eq_of_parse_eq_error {e : BuildError} (h : parse text = .error e) :
    e = if text.toList.all Text.isBlank then .emptyPath else .malformedPath text := by
  rw [parse] at h
  split at h
  · cases h
    rw [if_pos ‹_›]
  · rw [if_neg ‹_›]
    split at h
    · cases h
      rfl
    · simp only at h
      split at h
      · cases h
        rfl
      · cases h

theorem parse_eq_error_iff {e : BuildError} : parse text = .error e ↔
    (∀ i, parse text ≠ .ok i) ∧
      e = if text.toList.all Text.isBlank then .emptyPath else .malformedPath text := by
  constructor
  · intro h
    refine ⟨fun i hi => ?_, eq_of_parse_eq_error h⟩
    cases h.symm.trans hi
  · rintro ⟨hnone, rfl⟩
    cases h : parse text with
    | ok i => exact absurd h (hnone i)
    | error e => rw [eq_of_parse_eq_error h]

private theorem not_isBlank_suffix {c : Char} (hc : c ∈ shape.suffix.toList.getLast?) :
    ¬ Text.isBlank c := by
  have hlast : shape.suffix.toList.getLast? = if shape = .specific then none else some '*' := by
    cases shape <;> decide
  rw [hlast] at hc
  split at hc
  · cases hc
  · cases hc
    decide

/-- What a shape adds to a path is read as the marks of the shape. -/
theorem scan_pathChars_suffix (hpath : path ≠ []) (shape : ImportShape) :
    scan false {} (pathChars path ++ shape.suffix.toList) = some (path ++ shape.marks) := by
  obtain ⟨name, path, rfl⟩ := List.exists_cons_of_ne_nil hpath
  cases shape with
  | specific =>
    have hnone : ImportShape.specific.suffix.toList = [] := by decide
    rw [hnone, List.append_nil, scan_pathChars]
    exact congrArg some (List.append_nil _).symm
  | wildcard =>
    have hmark : ImportShape.wildcard.suffix.toList = [':', ':', '*'] := by decide
    rw [hmark, scan_pathChars_append]
    rfl
  | recursive =>
    have hmark : ImportShape.recursive.suffix.toList = [':', ':', '*', '*'] := by decide
    rw [hmark, scan_pathChars_append]
    rfl
  | recursiveExclusive =>
    have hmarks : ImportShape.recursiveExclusive.suffix.toList =
        [':', ':', '*', ':', ':', '*', '*'] := by decide
    rw [hmarks, scan_pathChars_append]
    rfl

/-- The text of a directive is split into its path and the marks of its shape. -/
theorem parse?_text (hpath : i.path ≠ []) : parse? i.text = some (i.path ++ i.shape.marks) := by
  have hchars : i.text.toList = pathChars i.path ++ i.shape.suffix.toList := by
    rw [Import.text, String.toList_append, render, String.toList_ofList]
  rw [parse?, hchars, trim_pathChars_append hpath fun c hc => not_isBlank_suffix hc,
    scan_pathChars_suffix hpath]

private theorem IsReadFrom.parse_text (h : i.IsReadFrom segments) : parse i.text = .ok i := by
  have hsegments : parse? i.text = some segments := by
    rw [parse?_text h.path_ne_nil, h.segments_eq]
  exact parse_eq_ok_iff.2 ⟨segments, hsegments, h⟩

/-- A directive is read from a text if and only if the segments of the text are its path, without
marks, and the marks of its shape. Any other text is refused: as empty if there is nothing in it,
and else as malformed. A directive that has been read is read again from its own text. -/
theorem parse_iff_isReadFrom (text : String) :
    (∀ i, parse text = .ok i ↔ ∃ segments, parse? text = some segments ∧ i.IsReadFrom segments) ∧
    (∀ e, parse text = .error e ↔
      (∀ (i : Import) segments, parse? text = some segments → ¬ i.IsReadFrom segments) ∧
        e = if text.toList.all Text.isBlank then .emptyPath else .malformedPath text) ∧
    ∀ i, parse text = .ok i → parse i.text = .ok i := by
  refine ⟨fun i => parse_eq_ok_iff, fun e => ?_, fun i hi => ?_⟩
  · rw [parse_eq_error_iff]
    simp only [ne_eq, parse_eq_ok_iff, not_exists, not_and]
  · obtain ⟨segments, -, hread⟩ := parse_eq_ok_iff.1 hi
    exact hread.parse_text

theorem parse_iff_isReadFrom_quotedPath :
    IsReadFrom { path := ["N1", "my ns"], shape := .recursiveExclusive }
      ["N1", "my ns", "*", "**"] ∧
    parse " N1 ::'my ns'::*::**" =
      .ok { path := ["N1", "my ns"], shape := .recursiveExclusive } ∧
    Import.text { path := ["N1", "my ns"], shape := .recursiveExclusive } = "N1::'my ns'::*::**" ∧
    parse (Import.text { path := ["N1", "my ns"], shape := .recursiveExclusive }) =
      .ok { path := ["N1", "my ns"], shape := .recursiveExclusive } := by
  have hsegments : parse? " N1 ::'my ns'::*::**" = some ["N1", "my ns", "*", "**"] := by
    decide +kernel
  have hread : IsReadFrom { path := ["N1", "my ns"], shape := .recursiveExclusive }
      ["N1", "my ns", "*", "**"] := ⟨rfl, rfl, rfl, by decide, by decide, rfl⟩
  obtain ⟨hok, -, hagain⟩ := parse_iff_isReadFrom " N1 ::'my ns'::*::**"
  have hparse := (hok _).2 ⟨_, hsegments, hread⟩
  exact ⟨hread, hparse, by decide +kernel, hagain _ hparse⟩

private theorem text_specific (path : List String) : Import.text { path } = render path :=
  String.append_empty

private theorem isReadFrom_self_iff (hpath : path ≠ []) :
    IsReadFrom { path } path ↔ ∀ s ∈ path, s ≠ "*" ∧ s ≠ "**" :=
  ⟨fun h => h.unmarked, fun h => ⟨rfl, rfl, rfl, hpath, h, (List.append_nil path).symm⟩⟩

/-- A directive for a single declaration is read back from its own text if and only if no name on
its path is a mark. Otherwise the text is read as if its names were not quoted: what follows the
last name that is no mark is taken for the marks of a shape, or else the text is refused. -/
theorem parse_text_specific (hpath : path ≠ []) :
    Import.text { path } = render path ∧
    (parse (render path) = .ok { path } ↔ ∀ s ∈ path, s ≠ "*" ∧ s ≠ "**") ∧
    (∀ i : Import, parse (render path) = .ok i ↔ i.IsReadFrom path) ∧
    ∀ e, parse (render path) = .error e ↔
      (∀ i : Import, ¬ i.IsReadFrom path) ∧ e = .malformedPath (render path) := by
  have hsegments : parse? (render path) = some path := parse?_render hpath
  have hok : ∀ i : Import, parse (render path) = .ok i ↔ i.IsReadFrom path := by
    intro i
    rw [parse_eq_ok_iff, hsegments]
    simp only [Option.some.injEq, exists_eq_left']
  have hfilled : ¬ (render path).toList.all Text.isBlank := by
    intro hblank
    cases hsegments.symm.trans (parse?_of_isBlank hblank)
  refine ⟨text_specific path, (hok _).trans (isReadFrom_self_iff hpath), hok, fun e => ?_⟩
  rw [parse_eq_error_iff, if_neg hfilled]
  simp only [ne_eq, hok]

theorem parse_text_specific_quotedPath :
    ["my lib", "*'", "a::b"] ≠ [] ∧
    Import.text { path := ["my lib", "*'", "a::b"] } = "'my lib'::'*\\''::'a::b'" ∧
    parse (render ["my lib", "*'", "a::b"]) = .ok { path := ["my lib", "*'", "a::b"] } :=
  ⟨by decide, by decide +kernel, (parse_text_specific (by decide)).2.1.2 (by decide)⟩

/-- A quoted asterisk at the end of a path is not read as a name. -/
theorem quotedMark_not_name :
    render ["A", "*"] = "A::'*'" ∧
    parse "A::'*'" = .ok { path := ["A"], shape := .wildcard } ∧
    ¬ ∀ path : List String, path ≠ [] → parse (render path) = .ok { path } := by
  have htext : render ["A", "*"] = "A::'*'" := by decide +kernel
  have hparse : parse "A::'*'" = .ok { path := ["A"], shape := .wildcard } := by
    decide +kernel
  refine ⟨htext, hparse, fun hall => ?_⟩
  have hname := hall ["A", "*"] (by decide)
  rw [htext, hparse] at hname
  exact absurd hname (by decide)

end Kerml.Import
