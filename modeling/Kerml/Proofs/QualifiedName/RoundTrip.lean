import Kerml.QualifiedName
import Mathlib.Data.List.Basic

/-!
# Reading back written names

Qualified names are read back as they were written. Quotes keep everything that a name may hold
away from the reader, and a bare name holds nothing that the reader looks for.
-/
namespace Kerml

namespace Text

variable {c : Char} {cs : List Char}

def blankCodes : List Nat :=
  List.range' 0x9 5 ++ List.range' 0x2000 11 ++
    [0x20, 0x85, 0xA0, 0x1680, 0x2028, 0x2029, 0x202F, 0x205F, 0x3000]

private theorem mem_blankCodes (h : isBlank c) : c.toNat ∈ blankCodes := by
  simp only [isBlank, Bool.or_eq_true, Bool.and_eq_true, decide_eq_true_eq, beq_iff_eq] at h
  simp only [blankCodes, List.mem_append, List.mem_range'_1, List.mem_cons, List.not_mem_nil,
    or_false]
  omega

private theorem not_isBlank_of_isIdentifierPart (h : isIdentifierPart c) : ¬ isBlank c := by
  intro hblank
  have hall : ∀ n ∈ blankCodes, isIdentifierPart (Char.ofNat n) = false := by decide +kernel
  simpa [h] using hall c.toNat (mem_blankCodes hblank)

theorem ne_of_isIdentifierPart {d : Char} (h : isIdentifierPart c)
    (hd : isIdentifierPart d = false) : c ≠ d := by
  rintro rfl
  simp [h] at hd

theorem trimFront_eq_self (h : ∀ c ∈ cs.head?, ¬ isBlank c) : trimFront cs = cs := by
  cases cs with
  | nil => rfl
  | cons c rest => simp [trimFront, h c rfl]

/-- Text that neither starts nor ends with white space has nothing to trim off. -/
theorem trim_eq_self (hfirst : ∀ c ∈ cs.head?, ¬ isBlank c)
    (hlast : ∀ c ∈ cs.getLast?, ¬ isBlank c) : trim cs = cs := by
  have hback : trimFront cs.reverse = cs.reverse :=
    trimFront_eq_self (by simpa using hlast)
  rw [trim, trimFront_eq_self hfirst, trimBack, hback, List.reverse_reverse]

end Text

namespace QualifiedName

open Text

variable {name : String} {path : List String} {s : Segment} {cs rest : List Char}

theorem isIdentifierPart_of_isBasic (h : isBasic name) : ∀ c ∈ name.toList, isIdentifierPart c := by
  intro c hc
  rw [isBasic] at h
  cases hname : name.toList with
  | nil => simp [hname] at hc
  | cons first others =>
    simp only [hname, Bool.and_eq_true, Bool.or_eq_true, beq_iff_eq, List.all_eq_true] at h hc
    rcases List.mem_cons.1 hc with rfl | hc
    · rcases h.1 with rfl | hstart
      · decide
      · exact isIdentifierPart_of_start hstart
    · exact h.2 c hc

theorem toList_ne_nil_of_isBasic (h : isBasic name) : name.toList ≠ [] := by
  intro hname
  simp [isBasic, hname] at h

theorem segmentChars_ne_nil (name : String) : segmentChars name ≠ [] := by
  rw [segmentChars]
  split
  · exact toList_ne_nil_of_isBasic ‹_›
  · exact List.cons_ne_nil _ _

/-- A segment neither starts nor ends with white space. -/
theorem not_isBlank_segmentChars {c : Char}
    (hc : c ∈ (segmentChars name).head? ∨ c ∈ (segmentChars name).getLast?) : ¬ isBlank c := by
  rw [segmentChars] at hc
  split at hc
  · rename_i hbasic
    have hmem : c ∈ name.toList := hc.elim List.mem_of_head? List.mem_of_getLast?
    exact not_isBlank_of_isIdentifierPart (isIdentifierPart_of_isBasic hbasic c hmem)
  · rw [← List.cons_append, List.getLast?_concat] at hc
    obtain rfl : '\'' = c := by simpa using hc
    decide

theorem pathChars_cons (name : String) (hpath : path ≠ []) :
    pathChars (name :: path) = segmentChars name ++ ':' :: ':' :: pathChars path := by
  cases path with
  | nil => contradiction
  | cons next path => rfl

theorem pathChars_concat (name : String) (hpath : path ≠ []) :
    pathChars (path ++ [name]) = pathChars path ++ ':' :: ':' :: segmentChars name := by
  induction path with
  | nil => contradiction
  | cons first path ih =>
    rw [List.cons_append, pathChars_cons first (by simp)]
    by_cases h : path = []
    · simp [h, pathChars]
    · rw [ih h, pathChars_cons first h, List.append_assoc]
      rfl

private theorem head?_pathChars (name : String) (path : List String) :
    (pathChars (name :: path)).head? = (segmentChars name).head? := by
  by_cases h : path = []
  · rw [h, pathChars]
  · rw [pathChars_cons name h, List.head?_append_of_ne_nil _ (segmentChars_ne_nil name)]

private theorem getLast?_pathChars (path : List String) (name : String) :
    (pathChars (path ++ [name])).getLast? = (segmentChars name).getLast? := by
  by_cases h : path = []
  · rw [h, List.nil_append, pathChars]
  · have hsplit : pathChars (path ++ [name]) =
        (pathChars path ++ [':', ':']) ++ segmentChars name := by
      simp [pathChars_concat name h]
    rw [hsplit, List.getLast?_append_of_ne_nil _ (segmentChars_ne_nil name)]

theorem pathChars_eq_nil_iff : pathChars path = [] ↔ path = [] := by
  cases path with
  | nil => simp [pathChars]
  | cons name path =>
    by_cases h : path = []
    · simp [h, pathChars, segmentChars_ne_nil]
    · simp [pathChars_cons name h]

/-- What follows a qualified name is trimmed off only at its end. -/
theorem trim_pathChars_append (hpath : path ≠ []) (hcs : ∀ c ∈ cs.getLast?, ¬ isBlank c) :
    trim (pathChars path ++ cs) = pathChars path ++ cs := by
  refine trim_eq_self ?_ ?_
  · intro c hc
    rw [List.head?_append_of_ne_nil _ (mt pathChars_eq_nil_iff.1 hpath)] at hc
    obtain ⟨name, path, rfl⟩ := List.exists_cons_of_ne_nil hpath
    rw [head?_pathChars] at hc
    exact not_isBlank_segmentChars (Or.inl hc)
  · intro c hc
    by_cases hnil : cs = []
    · obtain ⟨path, name, rfl⟩ := (List.eq_nil_or_concat' path).resolve_left hpath
      rw [hnil, List.append_nil, getLast?_pathChars] at hc
      exact not_isBlank_segmentChars (Or.inr hc)
    · rw [List.getLast?_append_of_ne_nil _ hnil] at hc
      exact hcs c hc

theorem trim_pathChars (path : List String) : trim (pathChars path) = pathChars path := by
  by_cases h : path = []
  · rw [h]
    rfl
  · have hnothing : ∀ c ∈ ([] : List Char).getLast?, ¬ isBlank c := by simp
    have htrim := trim_pathChars_append h hnothing
    rwa [List.append_nil] at htrim

theorem trim_of_isBasic (h : isBasic name) : trim name.toList = name.toList := by
  have htrim := trim_pathChars [name]
  rwa [pathChars, segmentChars, if_pos h] at htrim

theorem render_singleton (name : String) : render [name] = quote name := rfl

theorem render_concat (name : String) (hpath : path ≠ []) :
    render (path ++ [name]) = render path ++ "::" ++ quote name := by
  have hseparator : "::" = String.ofList [':', ':'] := rfl
  rw [render, render, quote, pathChars_concat name hpath, hseparator, ← String.ofList_append,
    ← String.ofList_append, List.append_assoc]
  rfl

/-- Only the empty path is written with no characters. -/
theorem isEmpty_render : (render path).isEmpty ↔ path = [] := by
  rw [String.isEmpty_iff, render, String.ofList_eq_empty_iff, pathChars_eq_nil_iff]

/-- What the reader holds once it has read a name as it is written. -/
def Segment.written (name : String) : Segment where
  chars := name.toList
  quoted := !isBasic name

theorem Segment.isUntouched_written (name : String) :
    (Segment.written name).isUntouched = false := by
  cases hbasic : isBasic name with
  | true =>
    have hname := toList_ne_nil_of_isBasic hbasic
    simp only [isUntouched, written, List.isEmpty_eq_false_iff.2 hname, Bool.false_and]
  | false => simp [isUntouched, written, hbasic]

theorem Segment.name_written (name : String) : (Segment.written name).name = name := by
  cases hbasic : isBasic name with
  | true => simp [Segment.name, written, hbasic, trim_of_isBasic hbasic]
  | false => simp [Segment.name, written, hbasic]

theorem scan_quoted_cons {c : Char} (hquote : c ≠ '\'') (hslash : c ≠ '\\') (s : Segment)
    (rest : List Char) : scan true s (c :: rest) = scan true (s.push c) rest := by
  rw [scan, if_neg (by simpa using hquote)]
  · exact fun h _ => hslash h
  · exact fun _ _ h _ => hslash h

private theorem scan_bare_cons {c : Char} (hquote : c ≠ '\'') (hcolon : c ≠ ':') (s : Segment)
    (rest : List Char) : scan false s (c :: rest) = scan false (s.push c) rest := by
  rw [scan, if_neg (by simp [hquote])]
  exact fun _ h _ => hcolon h

/-- Between quotes the reader takes up the name and stops at the closing quote. -/
theorem scan_escape (s : Segment) (cs rest : List Char) :
    scan true s (escape cs ++ '\'' :: rest) =
      scan false { s with chars := s.chars ++ cs } rest := by
  induction cs generalizing s with
  | nil => simp [escape, scan]
  | cons c cs ih =>
    by_cases hmarked : c = '\'' ∨ c = '\\'
    · rw [escape, if_pos (by simpa using hmarked), List.cons_append, List.cons_append, scan, ih]
      simp [Segment.push]
    · rw [escape, if_neg (by simpa using hmarked), List.cons_append]
      rw [not_or] at hmarked
      rw [scan_quoted_cons hmarked.1 hmarked.2, ih]
      simp [Segment.push]

/-- Outside of quotes the reader takes up what is neither a quote nor a colon. -/
theorem scan_bare (s : Segment) (hcs : ∀ c ∈ cs, c ≠ '\'' ∧ c ≠ ':') (rest : List Char) :
    scan false s (cs ++ rest) = scan false { s with chars := s.chars ++ cs } rest := by
  induction cs generalizing s with
  | nil => simp
  | cons c cs ih =>
    obtain ⟨hquote, hcolon⟩ := hcs c List.mem_cons_self
    have hrest := fun d hd => hcs d (List.mem_cons_of_mem c hd)
    rw [List.cons_append, scan_bare_cons hquote hcolon, ih _ hrest]
    simp [Segment.push]

theorem scan_segmentChars (name : String) (rest : List Char) :
    scan false {} (segmentChars name ++ rest) = scan false (Segment.written name) rest := by
  cases hbasic : isBasic name with
  | true =>
    have hplain : ∀ c ∈ name.toList, c ≠ '\'' ∧ c ≠ ':' := fun c hc =>
      have hpart := isIdentifierPart_of_isBasic hbasic c hc
      ⟨ne_of_isIdentifierPart hpart (by decide), ne_of_isIdentifierPart hpart (by decide)⟩
    rw [segmentChars, if_pos hbasic, scan_bare {} hplain]
    simp [Segment.written, hbasic]
  | false =>
    rw [segmentChars, if_neg (by simp [hbasic])]
    have hopen : ∀ cs, scan false {} ('\'' :: cs) = scan true { quoted := true } cs := fun cs => by
      simp [scan, Segment.isUntouched]
    rw [List.cons_append, hopen, List.append_assoc, List.singleton_append, scan_escape]
    simp [Segment.written, hbasic]

private theorem scan_written_nil (name : String) : scan false (Segment.written name) [] = some [name] := by
  have hread :
      ¬ (!(Segment.written name).quoted && (trim (Segment.written name).chars).isEmpty) := by
    cases hbasic : isBasic name with
    | true =>
      have hname := toList_ne_nil_of_isBasic hbasic
      simpa [Segment.written, trim_of_isBasic hbasic] using fun _ => hname
    | false => simp [Segment.written, hbasic]
  rw [scan, if_neg hread, Segment.name_written]

/-- A qualified name that is written down is read as the segments that it is made of. -/
theorem scan_pathChars (name : String) (path : List String) :
    scan false {} (pathChars (name :: path)) = some (name :: path) := by
  induction path generalizing name with
  | nil =>
    rw [pathChars, ← List.append_nil (segmentChars name), scan_segmentChars, scan_written_nil]
  | cons next path ih =>
    rw [pathChars_cons name (List.cons_ne_nil next path), scan_segmentChars, scan,
      Segment.isUntouched_written, if_neg Bool.false_ne_true, ih, Segment.name_written]
    rfl

/-- What follows a qualified name and a separator is read after it. -/
theorem scan_pathChars_append (name : String) (path : List String) (rest : List Char) :
    scan false {} (pathChars (name :: path) ++ ':' :: ':' :: rest) =
      (scan false {} rest).map (name :: path ++ ·) := by
  induction path generalizing name with
  | nil =>
    rw [pathChars, scan_segmentChars, scan, Segment.isUntouched_written, if_neg Bool.false_ne_true,
      Segment.name_written]
    rfl
  | cons next path ih =>
    rw [pathChars_cons name (List.cons_ne_nil next path), List.append_assoc, scan_segmentChars,
      List.cons_append, List.cons_append, scan, Segment.isUntouched_written,
      if_neg Bool.false_ne_true, ih, Segment.name_written, Option.map_map]
    rfl

theorem parse?_render (h : path ≠ []) : parse? (render path) = some path := by
  obtain ⟨name, path, rfl⟩ := List.exists_cons_of_ne_nil h
  rw [parse?, render, String.toList_ofList, trim_pathChars, scan_pathChars]

/-- Reading undoes writing, whatever the names hold. Only the empty path is not read. -/
theorem parse?_render_eq (path : List String) :
    parse? (render path) = if path = [] then none else some path := by
  by_cases h : path = []
  · rw [if_pos h, h]
    rfl
  · rw [if_neg h, parse?_render h]

example : render ["P", "it's here", "", " a::b "] = "P::'it\\'s here'::''::' a::b '" := by
  decide +kernel

end QualifiedName
end Kerml
