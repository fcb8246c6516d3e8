import Kerml.Proofs.QualifiedName.RoundTrip
import Mathlib.Data.List.Infix

/-!
# Texts as pieces

Every text is made of pieces with separators between them, where a separator between quotes does
not count, and the pieces alone say whether the text is read and as what.
-/
namespace Kerml

namespace Text

variable {cs : List Char}

theorem trimFront_suffix (cs : List Char) : trimFront cs <:+ cs :=
  List.dropWhile_suffix isBlank

theorem not_isBlank_head?_trimFront (cs : List Char) : ∀ c ∈ (trimFront cs).head?, ¬ isBlank c := by
  intro c hc
  have hnot := List.head?_dropWhile_not isBlank cs
  rw [trimFront] at hc
  rw [Option.mem_def.1 hc] at hnot
  simpa using hnot

/-- Trimmed text does not end in white space. -/
theorem not_isBlank_getLast?_trim (cs : List Char) : ∀ c ∈ (trim cs).getLast?, ¬ isBlank c := by
  rw [trim, trimBack, List.getLast?_reverse]
  exact not_isBlank_head?_trimFront _

theorem trim_prefix_trimFront (cs : List Char) : trim cs <+: trimFront cs :=
  List.reverse_suffix.1 (by simpa [trim, trimBack] using trimFront_suffix _)

/-- Trimmed text does not start with white space. -/
theorem not_isBlank_head?_trim (cs : List Char) : ∀ c ∈ (trim cs).head?, ¬ isBlank c := by
  intro c hc
  refine not_isBlank_head?_trimFront cs c ?_
  obtain ⟨back, hback⟩ := trim_prefix_trimFront cs
  rw [← hback, List.head?_append, Option.mem_def.1 hc]
  rfl

/-- Text that does not end in white space is blank only if there is none. -/
theorem trim_eq_nil_iff_of_getLast? (h : ∀ c ∈ cs.getLast?, ¬ isBlank c) :
    trim cs = [] ↔ cs = [] := by
  rw [trim_eq_nil_iff]
  constructor
  · intro hblank
    by_contra hne
    exact h _ (List.getLast?_eq_some_getLast hne) (hblank _ (List.getLast_mem hne))
  · rintro rfl c hc
    cases hc

end Text

namespace QualifiedName

open Text

/-- A character between quotes, as it is written: by itself or after a backslash. -/
inductive QuotedChar
  | plain (c : Char) (ne_quote : c ≠ '\'') (ne_slash : c ≠ '\\')
  | escaped (c : Char)

namespace QuotedChar

def char : QuotedChar → Char
  | plain c _ _ => c
  | escaped c => c

def text : QuotedChar → List Char
  | plain c _ _ => [c]
  | escaped c => ['\\', c]

end QuotedChar

/-- What stands between separators. -/
inductive Piece
  /-- A segment without quotes. -/
  | bare (chars : List Char) (unquoted : chars.head? ≠ some '\'')
  /-- A segment between quotes, and what follows the closing quote. -/
  | quoted (inner : List QuotedChar) (tail : List Char)
  /-- A segment whose quote stays open up to the end of the text. The text may end in a backslash
  that has nothing left to take. -/
  | unclosed (inner : List QuotedChar) (slash : Bool)

namespace Piece

def text : Piece → List Char
  | bare chars _ => chars
  | quoted inner tail => '\'' :: (inner.flatMap (·.text) ++ '\'' :: tail)
  | unclosed inner slash => '\'' :: (inner.flatMap (·.text) ++ if slash then ['\\'] else [])

/-- The end of a piece, as far as it stands outside of quotes. -/
def outside : Piece → List Char
  | bare chars _ => chars
  | quoted _ tail => tail
  | unclosed _ _ => []

def isUnclosed : Piece → Bool
  | unclosed _ _ => true
  | _ => false

def missing : Piece := bare [] (by decide)

def name : Piece → String
  | bare chars _ => String.ofList (trim chars)
  | quoted inner tail => String.ofList (inner.map (·.char) ++ tail)
  | unclosed inner _ => String.ofList (inner.map (·.char))

def isBlank : Piece → Bool
  | bare chars _ => chars.all Text.isBlank
  | _ => false

/-- Whether a text with such a piece is refused. -/
def isRefused : Piece → Bool
  | bare chars _ => chars.isEmpty
  | quoted _ _ => false
  | unclosed _ _ => true

end Piece

def separator : List Char := [':', ':']

/-- Pieces that can follow each other: separators stand outside of quotes, each as early as
possible, and nowhere else. -/
inductive IsDivision : List Piece → Prop
  | last {p : Piece} (ends : ¬ separator <:+: p.outside) : IsDivision [p]
  | cons {p q : Piece} {ps : List Piece} (closed : p.isUnclosed = false)
      (ends : ¬ separator <:+: p.outside ++ [':']) (rest : IsDivision (q :: ps)) :
      IsDivision (p :: q :: ps)

def joined : List Piece → List Char
  | [] => []
  | [p] => p.text
  | p :: q :: ps => p.text ++ (separator ++ joined (q :: ps))

/-- The pieces that a text is made of. -/
structure Divides (cs : List Char) (ps : List Piece) : Prop where
  isDivision : IsDivision ps
  joined_eq : joined ps = cs

variable {cs rest : List Char} {p q : Piece} {ps : List Piece} {s : Segment}

theorem separator_prefix_cons_iff {c : Char} :
    separator <+: c :: cs ↔ c = ':' ∧ cs.head? = some ':' := by
  cases cs with
  | nil => simp [separator]
  | cons d cs => simp [separator, List.cons_prefix_cons, eq_comm]

theorem separator_infix_cons_iff {c : Char} : separator <:+: c :: cs ↔
    (c = ':' ∧ cs.head? = some ':') ∨ separator <:+: cs := by
  rw [List.infix_cons_iff, separator_prefix_cons_iff]

theorem head?_append_take (front rest : List Char) :
    (front ++ rest.take 1).head? = (front ++ rest).head? := by
  cases front <;> cases rest <;> rfl

/-- Outside of quotes a text goes on up to its first separator. -/
theorem exists_outside (cs : List Char) : ∃ front rest, cs = front ++ rest ∧
    ¬ separator <:+: front ++ rest.take 1 ∧ (rest = [] ∨ separator <+: rest) := by
  induction cs with
  | nil => exact ⟨[], [], rfl, by decide, Or.inl rfl⟩
  | cons c cs ih =>
    by_cases hsep : separator <+: c :: cs
    · refine ⟨[], c :: cs, rfl, fun hfound => ?_, Or.inr hsep⟩
      simpa [separator] using hfound.length_le
    · obtain ⟨front, rest, rfl, hfront, hrest⟩ := ih
      refine ⟨c :: front, rest, rfl, ?_, hrest⟩
      rw [List.cons_append, separator_infix_cons_iff, head?_append_take,
        ← separator_prefix_cons_iff]
      exact fun h => h.elim hsep hfront

/-- Between quotes a text goes on up to the closing quote, or else to its end. -/
theorem exists_inner (cs : List Char) : ∃ (inner : List QuotedChar) (rest : List Char),
    cs = inner.flatMap (·.text) ++ rest ∧
      (rest = [] ∨ rest = ['\\'] ∨ ∃ tail, rest = '\'' :: tail) := by
  match cs with
  | [] => exact ⟨[], [], rfl, Or.inl rfl⟩
  | c :: cs =>
    by_cases hquote : c = '\''
    · exact ⟨[], c :: cs, rfl, Or.inr (Or.inr ⟨cs, by rw [hquote]⟩)⟩
    by_cases hslash : c = '\\'
    · subst hslash
      match cs with
      | [] => exact ⟨[], ['\\'], rfl, Or.inr (Or.inl rfl)⟩
      | c :: cs =>
        obtain ⟨inner, rest, rfl, hrest⟩ := exists_inner cs
        exact ⟨.escaped c :: inner, rest, rfl, hrest⟩
    · obtain ⟨inner, rest, rfl, hrest⟩ := exists_inner cs
      exact ⟨.plain c hquote hslash :: inner, rest, rfl, hrest⟩

/-- A text starts with a piece that goes on up to the first separator outside of quotes. -/
theorem exists_piece (cs : List Char) : ∃ (p : Piece) (rest : List Char), cs = p.text ++ rest ∧
    ¬ separator <:+: p.outside ++ rest.take 1 ∧
      (rest = [] ∨ p.isUnclosed = false ∧ separator <+: rest) := by
  by_cases hquote : cs.head? = some '\''
  · obtain ⟨cs, rfl⟩ := List.head?_eq_some_iff.1 hquote
    obtain ⟨inner, rest, rfl, rfl | rfl | ⟨tail, rfl⟩⟩ := exists_inner cs
    · exact ⟨.unclosed inner false, [], by simp [Piece.text], by simp [Piece.outside, separator],
        Or.inl rfl⟩
    · exact ⟨.unclosed inner true, [], by simp [Piece.text], by simp [Piece.outside, separator],
        Or.inl rfl⟩
    · obtain ⟨front, rest, rfl, hfront, hrest⟩ := exists_outside tail
      exact ⟨.quoted inner front, rest, by simp [Piece.text], hfront, hrest.imp_right (⟨rfl, ·⟩)⟩
  · obtain ⟨front, rest, rfl, hfront, hrest⟩ := exists_outside cs
    refine ⟨.bare front fun hhead => hquote ?_, rest, rfl, hfront, hrest.imp_right (⟨rfl, ·⟩)⟩
    rw [List.head?_append, hhead]
    rfl

theorem Divides.cons (closed : p.isUnclosed = false) (ends : ¬ separator <:+: p.outside ++ [':'])
    (h : Divides cs ps) : Divides (p.text ++ (separator ++ cs)) (p :: ps) := by
  cases ps with
  | nil => cases h.isDivision
  | cons q ps => exact ⟨.cons closed ends h.isDivision, by rw [joined, h.joined_eq]⟩

theorem exists_divides (cs : List Char) : ∃ ps, Divides cs ps := by
  obtain ⟨p, rest, hcs, hends, hrest⟩ := exists_piece cs
  rcases hrest with rfl | ⟨hclosed, more, rfl⟩
  · refine ⟨[p], .last (by simpa using hends), ?_⟩
    rw [hcs, joined, List.append_nil]
  · have hshorter : more.length < cs.length := by
      rw [hcs]
      simp [separator]
      omega
    obtain ⟨ps, hps⟩ := exists_divides more
    exact ⟨p :: ps, hcs ▸ hps.cons hclosed hends⟩
termination_by cs.length

/-- Outside of quotes the reader takes up what holds no separator. -/
theorem scan_outside (hopen : s.isUntouched → cs.head? ≠ some '\'')
    (hsep : ¬ separator <:+: cs ++ rest.take 1) :
    scan false s (cs ++ rest) = scan false { s with chars := s.chars ++ cs } rest := by
  induction cs generalizing s with
  | nil => simp
  | cons c cs ih =>
    rw [List.cons_append, separator_infix_cons_iff, head?_append_take, not_or] at hsep
    have hpush : scan false s (c :: (cs ++ rest)) = scan false (s.push c) (cs ++ rest) := by
      rw [scan, if_neg]
      · simp only [Bool.and_eq_true, beq_iff_eq, not_and]
        rintro rfl huntouched
        exact hopen huntouched rfl
      · rintro more rfl hmore
        exact hsep.1 ⟨rfl, by rw [hmore]; rfl⟩
    have htouched : (s.push c).isUntouched = false := by simp [Segment.isUntouched, Segment.push]
    rw [List.cons_append, hpush, ih (by simp [htouched]) hsep.2]
    simp [Segment.push]

/-- Between quotes the reader takes up the characters that are meant. -/
theorem scan_inner (inner : List QuotedChar) (s : Segment) (rest : List Char) :
    scan true s (inner.flatMap (·.text) ++ rest) =
      scan true { s with chars := s.chars ++ inner.map (·.char) } rest := by
  induction inner generalizing s with
  | nil => simp
  | cons q inner ih =>
    cases q with
    | plain c hquote hslash =>
      have hpush : scan true s (c :: (inner.flatMap (·.text) ++ rest)) =
          scan true (s.push c) (inner.flatMap (·.text) ++ rest) :=
        scan_quoted_cons hquote hslash s _
      rw [List.flatMap_cons, List.append_assoc]
      exact hpush.trans ((ih _).trans (by simp [Segment.push, QuotedChar.char]))
    | escaped c =>
      have hpush : scan true s ('\\' :: c :: (inner.flatMap (·.text) ++ rest)) =
          scan true (s.push c) (inner.flatMap (·.text) ++ rest) := by
        rw [scan]
      rw [List.flatMap_cons, List.append_assoc]
      exact hpush.trans ((ih _).trans (by simp [Segment.push, QuotedChar.char]))

/-- What the reader holds once it has read a piece that is closed. -/
def Piece.segment : Piece → Segment
  | bare chars _ => { chars }
  | quoted inner tail => { chars := inner.map (·.char) ++ tail, quoted := true }
  | unclosed inner _ => { chars := inner.map (·.char), quoted := true }

theorem Piece.name_segment (p : Piece) : p.segment.name = p.name := by
  cases p <;> rfl

theorem scan_opening (rest : List Char) :
    scan false {} ('\'' :: rest) = scan true { quoted := true } rest := by
  simp [scan, Segment.isUntouched]

theorem scan_piece (rest : List Char) (closed : p.isUnclosed = false)
    (ends : ¬ separator <:+: p.outside ++ rest.take 1) :
    scan false {} (p.text ++ rest) = scan false p.segment rest := by
  cases p with
  | bare chars unquoted => exact scan_outside (fun _ => unquoted) ends
  | quoted inner tail =>
    have hclosing : ∀ s cs, scan true s ('\'' :: cs) = scan false s cs := fun s cs => by simp [scan]
    have htext : (Piece.quoted inner tail).text ++ rest =
        '\'' :: (inner.flatMap (·.text) ++ '\'' :: (tail ++ rest)) := by
      simp [Piece.text]
    have htail : ¬ separator <:+: tail ++ rest.take 1 := ends
    rw [htext, scan_opening, scan_inner, hclosing,
      scan_outside (by simp [Segment.isUntouched]) htail]
    simp [Piece.segment]
  | unclosed inner slash => cases closed

/-- A quote that stays open is not read. -/
theorem scan_unclosed (inner : List QuotedChar) (slash : Bool) :
    scan false {} (Piece.unclosed inner slash).text = none := by
  rw [Piece.text, scan_opening, scan_inner]
  cases slash <;> simp [scan]

/-- A piece in front of a separator is refused only if there is nothing of it. -/
theorem scan_piece_separator (closed : p.isUnclosed = false)
    (ends : ¬ separator <:+: p.outside ++ [':']) (rest : List Char) :
    scan false {} (p.text ++ (separator ++ rest)) =
      if p.isRefused then none else (scan false {} rest).map (p.name :: ·) := by
  have hrefused : p.segment.isUntouched = p.isRefused := by
    cases p with
    | bare chars unquoted => simp [Piece.segment, Segment.isUntouched, Piece.isRefused]
    | quoted inner tail => simp [Piece.segment, Segment.isUntouched, Piece.isRefused]
    | unclosed inner slash => cases closed
  have hstep := scan_piece (separator ++ rest) closed ends
  rw [hstep, separator, List.cons_append, List.cons_append, List.nil_append, scan, hrefused,
    Piece.name_segment]

/-- A piece at the end of a text that does not end in white space is treated in the same way. -/
theorem scan_piece_last (ends : ¬ separator <:+: p.outside)
    (hlast : ∀ c ∈ p.text.getLast?, ¬ isBlank c) :
    scan false {} p.text = if p.isRefused then none else some [p.name] := by
  cases hclosed : p.isUnclosed with
  | true =>
    cases p with
    | bare chars unquoted => cases hclosed
    | quoted inner tail => cases hclosed
    | unclosed inner slash => exact scan_unclosed inner slash
  | false =>
    have hrefused : (!p.segment.quoted && (trim p.segment.chars).isEmpty) = p.isRefused := by
      cases p with
      | bare chars unquoted =>
        have hblank : trim chars = [] ↔ chars = [] := trim_eq_nil_iff_of_getLast? hlast
        have hempty : (trim chars).isEmpty = chars.isEmpty := by
          rw [Bool.eq_iff_iff, List.isEmpty_iff, List.isEmpty_iff, hblank]
        exact hempty
      | quoted inner tail => rfl
      | unclosed inner slash => cases hclosed
    have hread := scan_piece [] hclosed (by simpa using ends)
    rw [List.append_nil] at hread
    rw [hread, scan, hrefused, Piece.name_segment]

/-- The pieces of a text decide whether it is read, and as which names. -/
theorem scan_divides (h : Divides cs ps) (hlast : ∀ c ∈ cs.getLast?, ¬ isBlank c) :
    scan false {} cs = if ps.any Piece.isRefused then none else some (ps.map Piece.name) := by
  obtain ⟨hdivision, rfl⟩ := h
  induction hdivision with
  | last ends =>
    rw [joined] at hlast ⊢
    rw [scan_piece_last ends hlast]
    simp
  | @cons p q ps closed ends hrest ih =>
    have hrestLast : ∀ c ∈ (joined (q :: ps)).getLast?, ¬ isBlank c := fun c hc =>
      hlast c (List.mem_getLast?_append_of_mem_getLast?
        (List.mem_getLast?_append_of_mem_getLast? hc))
    have hany : (p :: q :: ps).any Piece.isRefused =
        (p.isRefused || (q :: ps).any Piece.isRefused) := List.any_cons
    rw [joined, scan_piece_separator closed ends, ih hrestLast, hany]
    cases p.isRefused with
    | true => rfl
    | false =>
      cases (q :: ps).any Piece.isRefused with
      | true => rfl
      | false => rfl

theorem parse?_of_divides {text : String} (h : Divides (trim text.toList) ps) :
    parse? text = if ps.any Piece.isRefused then none else some (ps.map Piece.name) :=
  scan_divides h (not_isBlank_getLast?_trim _)

theorem head?_joined (hp : p.text ≠ []) : (joined (p :: ps)).head? = p.text.head? := by
  cases ps with
  | nil => rfl
  | cons q ps => rw [joined, List.head?_append_of_ne_nil _ hp]

private theorem getLast?_joined (hp : p ∈ ps.getLast?) (hne : p.text ≠ []) :
    (joined ps).getLast? = p.text.getLast? := by
  induction ps with
  | nil => cases hp
  | cons q ps ih =>
    cases ps with
    | nil =>
      cases hp
      rfl
    | cons r ps =>
      have hrest := ih (by simpa using hp)
      rw [joined, List.getLast?_append, List.getLast?_append, hrest,
        List.getLast?_eq_some_getLast hne]
      rfl

private theorem Piece.isRefused_iff : p.isRefused ↔ p.isUnclosed ∨ p = .missing := by
  cases p with
  | bare chars unquoted => simp [isRefused, isUnclosed, missing]
  | quoted inner tail => simp [isRefused, isUnclosed, missing]
  | unclosed inner slash => simp [isRefused, isUnclosed]

/-- A bare piece stands for the empty name if it is blank, and a quoted one if nothing is quoted. -/
theorem Piece.name_eq_empty_iff (h : p.isUnclosed = false) :
    p.name = "" ↔ p = .quoted [] [] ∨ p.isBlank := by
  cases p with
  | bare chars unquoted => simp [name, isBlank, trim_eq_nil_iff]
  | quoted inner tail => simp [name, isBlank]
  | unclosed inner slash => cases h

/-- At an end of a trimmed text a piece is blank only if there is nothing of it. -/
theorem Divides.eq_missing_of_isBlank (h : Divides (trim cs) ps)
    (hp : p ∈ ps.head? ∨ p ∈ ps.getLast?) (hblank : p.isBlank) : p = .missing := by
  cases p with
  | quoted inner tail => cases hblank
  | unclosed inner slash => cases hblank
  | bare chars unquoted =>
    by_cases hne : chars = []
    · subst hne
      rfl
    have hall : ∀ c ∈ chars, Text.isBlank c := List.all_eq_true.1 hblank
    exfalso
    rcases hp with hp | hp
    · obtain ⟨rest, rfl⟩ := List.head?_eq_some_iff.1 hp
      have hhead : (trim cs).head? = some (chars.head hne) := by
        rw [← h.joined_eq, head?_joined (p := .bare chars unquoted) hne]
        exact List.head?_eq_some_head hne
      exact not_isBlank_head?_trim cs _ hhead (hall _ (List.head_mem hne))
    · have hlast : (trim cs).getLast? = some (chars.getLast hne) := by
        rw [← h.joined_eq, getLast?_joined hp hne]
        exact List.getLast?_eq_some_getLast hne
      exact not_isBlank_getLast?_trim cs _ hlast (hall _ (List.getLast_mem hne))

private theorem Divides.missing_mem (h : Divides [] ps) : .missing ∈ ps := by
  obtain ⟨hdivision, hjoined⟩ := h
  cases hdivision with
  | @last p ends =>
    cases p with
    | bare chars unquoted =>
      cases hjoined
      exact List.mem_singleton_self _
    | quoted inner tail => cases hjoined
    | unclosed inner slash => cases hjoined
  | cons closed ends rest => simp [joined, separator] at hjoined

/-- Every text has its pieces. It is refused if and only if it is blank, its last quote stays open,
or there is a bare piece without any characters. At the ends of the text that is any bare piece that
is empty when trimmed. Between separators a bare piece of white space is read as the empty name,
which otherwise comes from empty quotes alone. -/
theorem parse?_eq_none_iff (text : String) :
    (∃ ps, Divides (trim text.toList) ps) ∧ ∀ ps, Divides (trim text.toList) ps →
      (parse? text = none ↔
        (∀ c ∈ text.toList, isBlank c) ∨ (∃ p ∈ ps, p.isUnclosed) ∨ .missing ∈ ps) ∧
      (∀ p, p ∈ ps.head? ∨ p ∈ ps.getLast? → p.isBlank → p = .missing) ∧
      ∀ names, parse? text = some names → names = ps.map Piece.name ∧
        ∀ p ∈ ps, p.name = "" ↔ p = .quoted [] [] ∨ p.isBlank := by
  refine ⟨exists_divides _, fun ps h => ?_⟩
  have hread := parse?_of_divides h
  have hrefused : ps.any Piece.isRefused ↔ (∃ p ∈ ps, p.isUnclosed) ∨ .missing ∈ ps := by
    simp only [List.any_eq_true, Piece.isRefused_iff, and_or_left, exists_or, exists_eq_right]
  refine ⟨?_, fun p hp hblank => h.eq_missing_of_isBlank hp hblank, fun names hnames => ?_⟩
  · rw [hread, ite_eq_left_iff, ← hrefused]
    constructor
    · intro hnone
      by_contra hnot
      rw [not_or] at hnot
      cases hnone hnot.2
    · rintro (hblank | hany) hnot
      · rw [trim_eq_nil_iff.2 hblank] at h
        exact absurd (hrefused.2 (Or.inr h.missing_mem)) hnot
      · exact absurd hany hnot
  · rw [hnames] at hread
    cases hany : ps.any Piece.isRefused with
    | true => simp [hany] at hread
    | false =>
      rw [hany, if_neg Bool.false_ne_true, Option.some.injEq] at hread
      refine ⟨hread, fun p hp => Piece.name_eq_empty_iff ?_⟩
      cases hclosed : p.isUnclosed with
      | false => rfl
      | true => exact absurd (hrefused.2 (Or.inl ⟨p, hp, hclosed⟩)) (by simp [hany])

/-- A backslash has nothing left to take, so that the quote stays open. -/
theorem parse?_eq_none_iff_openQuote :
    Divides (trim "A::'b\\".toList)
      [.bare ['A'] (by decide), .unclosed [.plain 'b' (by decide) (by decide)] true] ∧
    parse? "A::'b\\" = none := by
  have hpieces : Divides (trim "A::'b\\".toList)
      [.bare ['A'] (by decide), .unclosed [.plain 'b' (by decide) (by decide)] true] :=
    ⟨.cons rfl (by decide) (.last (by decide)), by decide⟩
  refine ⟨hpieces, ((parse?_eq_none_iff _).2 _ hpieces).1.2 (Or.inr (Or.inl ?_))⟩
  exact ⟨_, List.mem_cons_of_mem _ (List.mem_singleton_self _), rfl⟩

/-- White space between two separators is read as an empty name, although nothing is quoted. -/
theorem blankBetween_read :
    parse? "A:: ::B" = some ["A", "", "B"] ∧
    ¬ ∀ text ps, Divides (trim text.toList) ps →
      (parse? text = none ↔
        (∀ c ∈ text.toList, isBlank c) ∨ (∃ p ∈ ps, p.isUnclosed) ∨ ∃ p ∈ ps, p.isBlank) := by
  have hread : parse? "A:: ::B" = some ["A", "", "B"] := by decide +kernel
  have hpieces : Divides (trim "A:: ::B".toList)
      [.bare ['A'] (by decide), .bare [' '] (by decide), .bare ['B'] (by decide)] :=
    ⟨.cons rfl (by decide) (.cons rfl (by decide) (.last (by decide))), by decide⟩
  refine ⟨hread, fun hall => ?_⟩
  have hnone := (hall _ _ hpieces).2 (Or.inr (Or.inr ⟨.bare [' '] (by decide), by simp, by decide⟩))
  cases hread.symm.trans hnone

end QualifiedName
end Kerml
