import Kerml.Proofs.QualifiedName.Pieces
import Mathlib.Data.List.Count

/-!
# White space around separators

It changes nothing next to bare segments. After a closing quote it becomes part of the name, and
in front of an opening one it takes the quote its meaning, so that even a separator between the
quotes is split on.
-/
namespace Kerml

namespace Text

variable {c : Char} {cs blanks : List Char}

theorem ne_of_isBlank {d : Char} (h : isBlank c) (hd : isBlank d = false) : c ≠ d := by
  rintro rfl
  simp [h] at hd

theorem trimFront_blank_append (h : ∀ c ∈ blanks, isBlank c) (cs : List Char) :
    trimFront (blanks ++ cs) = trimFront cs :=
  List.dropWhile_append_of_pos h

/-- White space in front of a text is trimmed off. -/
theorem trim_blank_append (h : ∀ c ∈ blanks, isBlank c) (cs : List Char) :
    trim (blanks ++ cs) = trim cs := by
  rw [trim, trimFront_blank_append h, trim]

/-- White space after a text is trimmed off. -/
theorem trim_append_blank (h : ∀ c ∈ blanks, isBlank c) (cs : List Char) :
    trim (cs ++ blanks) = trim cs := by
  by_cases hcs : ∀ c ∈ cs, isBlank c
  · rw [trim_blank_append hcs, trim_eq_nil_iff.2 h, trim_eq_nil_iff.2 hcs]
  · have hfront : trimFront (cs ++ blanks) = trimFront cs ++ blanks := by
      rw [trimFront, List.dropWhile_append, if_neg]
      · rfl
      · rwa [List.isEmpty_iff, ← trimFront, trimFront_eq_nil_iff]
    rw [trim, hfront, trimBack, List.reverse_append, trimFront_blank_append (by simpa using h)]
    rfl

theorem count_trimFront (hc : isBlank c = false) (cs : List Char) :
    (trimFront cs).count c = cs.count c := by
  induction cs with
  | nil => rfl
  | cons d cs ih =>
    cases hd : isBlank d with
    | true =>
      have hne : d ≠ c := ne_of_isBlank hd hc
      simpa [trimFront, hd, hne] using ih
    | false => simp [trimFront, hd]

/-- Trimming takes no other character than white space. -/
theorem count_trim (hc : isBlank c = false) (cs : List Char) : (trim cs).count c = cs.count c := by
  rw [trim, trimBack, List.count_reverse, count_trimFront hc, List.count_reverse,
    count_trimFront hc]

private theorem trim_isInfix (cs : List Char) : trim cs <:+: cs :=
  (trim_prefix_trimFront cs).isInfix.trans (trimFront_suffix cs).isInfix

end Text

namespace QualifiedName

open Text

def Piece.isQuoted : Piece → Bool
  | quoted _ _ => true
  | _ => false

/-- A separator with white space on both sides, and the piece that comes after it. -/
structure SpacedPiece where
  before : List Char
  after : List Char
  piece : Piece
  blank_before : ∀ c ∈ before, isBlank c
  blank_after : ∀ c ∈ after, isBlank c

def spaced (p : Piece) : List SpacedPiece → List Char
  | [] => p.text
  | s :: steps => p.text ++ (s.before ++ (separator ++ (s.after ++ spaced s.piece steps)))

/-- Whether no white space stands next to a quoted piece. -/
def IsUndisturbed (p : Piece) : List SpacedPiece → Prop
  | [] => True
  | s :: steps => (p.isQuoted → s.before = []) ∧ (s.piece.isQuoted → s.after = []) ∧
      IsUndisturbed s.piece steps

variable {cs rest blanks chars : List Char} {p q : Piece} {ps : List Piece}
  {steps : List SpacedPiece} {names : List String}

theorem separator_infix_append_cons_iff {c : Char} (hc : c ≠ ':') :
    separator <:+: cs ++ c :: rest ↔ separator <:+: cs ∨ separator <:+: rest := by
  induction cs with
  | nil =>
    have hnil : ¬ separator <:+: [] := by decide
    simp [separator_infix_cons_iff, hc, hnil]
  | cons d cs ih =>
    have hhead : (cs ++ c :: rest).head? = some ':' ↔ cs.head? = some ':' := by
      cases cs with
      | nil => simp [hc]
      | cons e cs => simp
    rw [List.cons_append, separator_infix_cons_iff, separator_infix_cons_iff, ih, hhead, or_assoc]

theorem separator_infix_blank_append_iff (h : ∀ c ∈ blanks, isBlank c) :
    separator <:+: blanks ++ cs ↔ separator <:+: cs := by
  induction blanks with
  | nil => rfl
  | cons c blanks ih =>
    have hc : c ≠ ':' := ne_of_isBlank (h c List.mem_cons_self) (by decide)
    rw [List.cons_append, separator_infix_cons_iff, ih fun d hd => h d (List.mem_cons_of_mem c hd)]
    simp [hc]

/-- White space in front of a colon makes no separator. -/
theorem not_separator_infix_blank_colon (h : ∀ c ∈ blanks, isBlank c)
    (hcs : ¬ separator <:+: cs ++ [':']) : ¬ separator <:+: (cs ++ blanks) ++ [':'] := by
  cases blanks with
  | nil => rwa [List.append_nil]
  | cons c blanks =>
    have hc : c ≠ ':' := ne_of_isBlank (h c List.mem_cons_self) (by decide)
    have hblanks : ¬ separator <:+: blanks ++ [':'] := by
      rw [separator_infix_blank_append_iff fun d hd => h d (List.mem_cons_of_mem c hd)]
      decide
    rw [List.append_assoc, List.cons_append, separator_infix_append_cons_iff hc, not_or]
    exact ⟨fun hsep => hcs (hsep.trans (List.prefix_append cs _).isInfix), hblanks⟩

/-- A separator that is written between quotes is meant, as no backslash comes between its colons. -/
theorem separator_infix_of_inner {inner : List QuotedChar}
    (h : separator <:+: inner.flatMap (·.text)) : separator <:+: inner.map (·.char) := by
  induction inner with
  | nil => exact h
  | cons q inner ih =>
    have hhead : (inner.flatMap (·.text)).head? = some ':' →
        (inner.map (·.char)).head? = some ':' := by
      cases inner with
      | nil => simp
      | cons r inner => cases r <;> simp [QuotedChar.text, QuotedChar.char]
    rw [List.map_cons, separator_infix_cons_iff]
    cases q with
    | plain c hquote hslash =>
      rw [List.flatMap_cons, QuotedChar.text, List.singleton_append, separator_infix_cons_iff] at h
      exact h.imp (And.imp_right hhead) ih
    | escaped c =>
      have hslash : '\\' ≠ ':' := by decide
      rw [List.flatMap_cons, QuotedChar.text, List.cons_append, List.singleton_append,
        separator_infix_cons_iff, separator_infix_cons_iff] at h
      rcases h with ⟨hcolon, -⟩ | h
      · exact absurd hcolon hslash
      · exact h.imp (And.imp_right hhead) ih

private theorem count_quote_inner (inner : List QuotedChar) :
    (inner.flatMap (·.text)).count '\'' = (inner.map (·.char)).count '\'' := by
  induction inner with
  | nil => rfl
  | cons q inner ih =>
    rw [List.flatMap_cons, List.count_append, ih, List.map_cons, List.count_cons, Nat.add_comm]
    cases q with
    | plain c hquote hslash => simp [QuotedChar.text, QuotedChar.char, List.count_cons]
    | escaped c => simp [QuotedChar.text, QuotedChar.char, List.count_cons]

theorem head?_ne_quote_of_blank (h : ∀ c ∈ blanks, isBlank c) : blanks.head? ≠ some '\'' := by
  intro hhead
  exact absurd (h _ (List.mem_of_mem_head? hhead)) (by decide)

/-- The piece that white space after a piece makes of it. -/
def Piece.followed (p : Piece) (blanks : List Char) (h : ∀ c ∈ blanks, Text.isBlank c) : Piece :=
  match p with
  | bare chars unquoted => bare (chars ++ blanks) (by
      cases chars with
      | nil => exact head?_ne_quote_of_blank h
      | cons c chars => exact unquoted)
  | quoted inner tail => quoted inner (tail ++ blanks)
  | unclosed inner slash => unclosed inner slash

private theorem Piece.followed_spec (h : ∀ c ∈ blanks, Text.isBlank c) (closed : p.isUnclosed = false)
    (hread : p.isRefused = false) :
    (p.followed blanks h).text = p.text ++ blanks ∧
    (p.followed blanks h).outside = p.outside ++ blanks ∧
    (p.followed blanks h).isUnclosed = false ∧ (p.followed blanks h).isRefused = false := by
  cases p with
  | bare chars unquoted =>
    have hchars : chars ≠ [] := by simpa [isRefused] using hread
    exact ⟨rfl, rfl, rfl, by simp [followed, isRefused, hchars]⟩
  | quoted inner tail => exact ⟨by simp [followed, text], rfl, rfl, rfl⟩
  | unclosed inner slash => cases closed

theorem Piece.name_followed_bare {unquoted : chars.head? ≠ some '\''}
    (h : ∀ c ∈ blanks, Text.isBlank c) :
    ((bare chars unquoted).followed blanks h).name = (bare chars unquoted).name :=
  congrArg String.ofList (trim_append_blank h chars)

/-- White space after a piece is part of its name if and only if the piece is quoted. -/
theorem Piece.name_followed_eq_iff (h : ∀ c ∈ blanks, Text.isBlank c)
    (closed : p.isUnclosed = false) :
    (p.followed blanks h).name = p.name ↔ (p.isQuoted → blanks = []) := by
  cases p with
  | bare chars unquoted => simp [name_followed_bare h, isQuoted]
  | quoted inner tail => simp [followed, name, isQuoted]
  | unclosed inner slash => cases closed

/-- The reader on a piece, white space and a separator. -/
theorem scan_followed (h : ∀ c ∈ blanks, isBlank c) (closed : p.isUnclosed = false)
    (hread : p.isRefused = false) (ends : ¬ separator <:+: p.outside ++ [':']) (rest : List Char) :
    scan false {} (p.text ++ (blanks ++ (separator ++ rest))) =
      (scan false {} rest).map ((p.followed blanks h).name :: ·) := by
  obtain ⟨htext, houtside, hclosed, hrefused⟩ := Piece.followed_spec h closed hread
  have hends : ¬ separator <:+: (p.followed blanks h).outside ++ [':'] := by
    rw [houtside]
    exact not_separator_infix_blank_colon h ends
  have hstep := scan_piece_separator hclosed hends rest
  rwa [htext, List.append_assoc, hrefused, if_neg Bool.false_ne_true] at hstep

/-- The first of the pieces can be another one that holds no separator either. -/
theorem IsDivision.replace (h : IsDivision (p :: ps)) (closed : q.isUnclosed = false)
    (hends : ∀ rest, ¬ separator <:+: p.outside ++ rest → ¬ separator <:+: q.outside ++ rest) :
    IsDivision (q :: ps) := by
  cases h with
  | last ends => exact .last (by simpa using hends [] (by simpa using ends))
  | cons _ ends rest => exact .cons closed (hends _ ends) rest

private theorem isUndisturbed_congr (h : p.isQuoted = q.isQuoted) :
    IsUndisturbed p steps ↔ IsUndisturbed q steps := by
  cases steps with
  | nil => rfl
  | cons s steps => rw [IsUndisturbed, IsUndisturbed, h]

/-- The bare piece that white space before a piece makes of it, with the quotes that it has. -/
def Piece.preceded (p : Piece) (blanks : List Char) (h : ∀ c ∈ blanks, Text.isBlank c)
    (hne : blanks ≠ []) : Piece :=
  bare (blanks ++ p.text) (by
    rw [List.head?_append_of_ne_nil _ hne]
    exact head?_ne_quote_of_blank h)

theorem append_spaced (h : ∀ c ∈ blanks, isBlank c) (hne : blanks ≠ []) :
    blanks ++ spaced p steps = spaced (p.preceded blanks h hne) steps := by
  cases steps with
  | nil => rfl
  | cons s steps => rw [spaced, spaced, Piece.preceded, Piece.text, List.append_assoc]

/-- White space before a piece makes no new separator as long as none stands between the quotes. -/
theorem IsDivision.preceded (hdivision : IsDivision (p :: ps)) (h : ∀ c ∈ blanks, isBlank c)
    (hne : blanks ≠ [])
    (hends : ∀ rest, ¬ separator <:+: p.outside ++ rest → ¬ separator <:+: p.text ++ rest) :
    IsDivision (p.preceded blanks h hne :: ps) := by
  refine hdivision.replace rfl fun rest hrest => ?_
  rw [Piece.preceded, Piece.outside, List.append_assoc, separator_infix_blank_append_iff h]
  exact hends rest hrest

/-- A bare piece at the start of a text gives the first name. -/
theorem name_of_scan_spaced_bare {unquoted : chars.head? ≠ some '\''} {name : String}
    (hdivision : IsDivision (.bare chars unquoted :: steps.map (·.piece))) (hne : chars ≠ [])
    (hlast : ∀ c ∈ (spaced (.bare chars unquoted) steps).getLast?, ¬ isBlank c)
    (hread : scan false {} (spaced (.bare chars unquoted) steps) = some (name :: names)) :
    name = (Piece.bare chars unquoted).name := by
  have hrefused : (Piece.bare chars unquoted).isRefused = false := by simp [Piece.isRefused, hne]
  cases steps with
  | nil =>
    cases hdivision with
    | last ends =>
      rw [spaced] at hread hlast
      rw [scan_piece_last ends hlast, hrefused, if_neg Bool.false_ne_true] at hread
      cases hread
      rfl
  | cons s steps =>
    cases hdivision with
    | cons closed ends rest =>
      rw [spaced, scan_followed s.blank_before closed hrefused ends,
        Piece.name_followed_bare s.blank_before] at hread
      obtain ⟨_, _, heq⟩ := Option.map_eq_some_iff.1 hread
      cases heq
      rfl

private theorem IsDivision.not_infix_outside (h : IsDivision (p :: ps)) :
    ¬ separator <:+: p.outside := by
  cases h with
  | last ends => exact ends
  | cons _ ends _ => exact fun hsep => ends (hsep.trans (List.prefix_append _ _).isInfix)

/-- A name that is read from a text without an opening quote holds no separator. -/
theorem not_separator_infix_of_scan {name : String} (hopen : cs.head? ≠ some '\'')
    (hlast : ∀ c ∈ cs.getLast?, ¬ isBlank c)
    (hread : scan false {} cs = some (name :: names)) : ¬ separator <:+: name.toList := by
  obtain ⟨ps, hps⟩ := exists_divides cs
  obtain ⟨-, hnames⟩ : ps.any Piece.isRefused = false ∧ ps.map Piece.name = name :: names := by
    have hscan := (scan_divides hps hlast).symm.trans hread
    split at hscan
    · cases hscan
    · rename_i hnot
      exact ⟨Bool.eq_false_iff.2 hnot, Option.some.inj hscan⟩
  obtain ⟨p, ps, rfl, rfl, -⟩ := List.map_eq_cons_iff.1 hnames
  have hfirst : p.text ≠ [] → p.text.head? ≠ some '\'' := fun hne => by
    rwa [← head?_joined hne, hps.joined_eq]
  cases p with
  | quoted inner tail => exact absurd rfl (hfirst (List.cons_ne_nil _ _))
  | unclosed inner slash => exact absurd rfl (hfirst (List.cons_ne_nil _ _))
  | bare chars unquoted =>
    rw [Piece.name, String.toList_ofList]
    exact fun hsep => hps.isDivision.not_infix_outside (hsep.trans (trim_isInfix chars))

/-- White space in front of an opening quote takes the quote its meaning. -/
theorem scan_blank_append_quoted {inner : List QuotedChar} {tail : List Char}
    (h : ∀ c ∈ blanks, isBlank c) (hne : blanks ≠ [])
    (hdivision : IsDivision (.quoted inner tail :: steps.map (·.piece)))
    (hlast : ∀ c ∈ (blanks ++ spaced (.quoted inner tail) steps).getLast?, ¬ isBlank c) :
    scan false {} (blanks ++ spaced (.quoted inner tail) steps) ≠
      some ((Piece.quoted inner tail).name :: names) := by
  intro hread
  by_cases hinner : separator <:+: inner.flatMap (·.text)
  · -- the reader splits on the separator between the quotes, which the name holds
    have hopen : (blanks ++ spaced (.quoted inner tail) steps).head? ≠ some '\'' := by
      rw [List.head?_append_of_ne_nil _ hne]
      exact head?_ne_quote_of_blank h
    refine not_separator_infix_of_scan hopen hlast hread ?_
    rw [Piece.name, String.toList_ofList]
    exact (separator_infix_of_inner hinner).trans (List.prefix_append _ _).isInfix
  · -- the reader keeps the two quotes, which the name does not have
    have hdivision' := hdivision.preceded h hne fun rest hrest => by
      have hbody : ¬ separator <:+: inner.flatMap (·.text) ++ '\'' :: (tail ++ rest) := by
        rw [separator_infix_append_cons_iff (by decide), not_or]
        exact ⟨hinner, hrest⟩
      rw [Piece.text, List.cons_append, separator_infix_cons_iff, List.append_assoc,
        List.cons_append]
      simpa using hbody
    rw [append_spaced h hne] at hread hlast
    have hname := name_of_scan_spaced_bare hdivision' (List.append_ne_nil_of_left_ne_nil hne _)
      hlast hread
    have hquotes := congrArg (fun name => name.toList.count '\'') hname
    have hblanks : blanks.count '\'' = 0 :=
      List.count_eq_zero.2 fun hmem => absurd (h _ hmem) (by decide)
    have hquote : isBlank '\'' = false := by decide
    simp only [Piece.name, Piece.text, String.toList_ofList, count_trim hquote, List.count_append,
      List.count_cons_self, count_quote_inner, hblanks] at hquotes
    omega

/-- White space in front of a piece changes nothing if and only if the piece is bare. The last
hypothesis is what is known of the text that starts with a piece in its place. -/
theorem scan_blank_append_spaced_iff (h : ∀ c ∈ blanks, isBlank c)
    (hdivision : IsDivision (p :: steps.map (·.piece))) (hread : p.isRefused = false)
    (hlast : ∀ c ∈ (blanks ++ spaced p steps).getLast?, ¬ isBlank c)
    (hstart : ∀ q : Piece, IsDivision (q :: steps.map (·.piece)) → q.isRefused = false →
      (∀ c ∈ (spaced q steps).getLast?, ¬ isBlank c) →
        (scan false {} (spaced q steps) = some (q.name :: names) ↔ IsUndisturbed q steps)) :
    scan false {} (blanks ++ spaced p steps) = some (p.name :: names) ↔
      (p.isQuoted → blanks = []) ∧ IsUndisturbed p steps := by
  by_cases hne : blanks = []
  · subst hne
    simpa using hstart p hdivision hread hlast
  cases p with
  | bare chars unquoted =>
    have hpreceded := hdivision.preceded h hne fun _ hrest => hrest
    have hname : ((Piece.bare chars unquoted).preceded blanks h hne).name =
        (Piece.bare chars unquoted).name :=
      congrArg String.ofList (trim_blank_append h chars)
    have hprecededRead : ((Piece.bare chars unquoted).preceded blanks h hne).isRefused = false := by
      simp [Piece.preceded, Piece.isRefused, hne]
    have hundisturbed : IsUndisturbed ((Piece.bare chars unquoted).preceded blanks h hne) steps ↔
        IsUndisturbed (.bare chars unquoted) steps :=
      isUndisturbed_congr rfl
    rw [append_spaced h hne] at hlast ⊢
    rw [← hname, hstart _ hpreceded hprecededRead hlast, hundisturbed]
    simp [Piece.isQuoted]
  | quoted inner tail =>
    refine iff_of_false (scan_blank_append_quoted h hne hdivision hlast) fun hkept => ?_
    exact hne (hkept.1 rfl)
  | unclosed inner slash => cases hread

/-- Texts with white space around their separators are read as the pieces alone if and only if no
quoted piece is disturbed. -/
theorem scan_spaced_eq_iff (hdivision : IsDivision (p :: steps.map (·.piece)))
    (hread : p.isRefused = false) (hreads : ∀ s ∈ steps, s.piece.isRefused = false)
    (hlast : ∀ c ∈ (spaced p steps).getLast?, ¬ isBlank c) :
    scan false {} (spaced p steps) = some (p.name :: steps.map (·.piece.name)) ↔
      IsUndisturbed p steps := by
  induction steps generalizing p with
  | nil =>
    cases hdivision with
    | last ends =>
      rw [spaced] at hlast ⊢
      simp [scan_piece_last ends hlast, hread, IsUndisturbed]
  | cons s steps ih =>
    cases hdivision with
    | cons closed ends rest =>
      have hlastRest : ∀ c ∈ (s.after ++ spaced s.piece steps).getLast?, ¬ isBlank c :=
        fun c hc => hlast c (List.mem_getLast?_append_of_mem_getLast?
          (List.mem_getLast?_append_of_mem_getLast? (List.mem_getLast?_append_of_mem_getLast? hc)))
      have hrest := scan_blank_append_spaced_iff s.blank_after rest (hreads s List.mem_cons_self)
        hlastRest fun q hq hqread => ih hq hqread fun t ht => hreads t (List.mem_cons_of_mem s ht)
      rw [spaced, scan_followed s.blank_before closed hread ends, IsUndisturbed, ← hrest,
        ← Piece.name_followed_eq_iff s.blank_before closed, Option.map_eq_some_iff]
      simp [and_comm]

theorem Piece.text_ne_nil (hread : p.isRefused = false) : p.text ≠ [] := by
  cases p with
  | bare chars unquoted => simpa [isRefused, text] using hread
  | quoted inner tail => exact List.cons_ne_nil _ _
  | unclosed inner slash => exact List.cons_ne_nil _ _

private theorem head?_spaced (hread : p.isRefused = false) : (spaced p steps).head? = p.text.head? := by
  cases steps with
  | nil => rfl
  | cons s steps => rw [spaced, List.head?_append_of_ne_nil _ (Piece.text_ne_nil hread)]

private theorem joined_ne_nil (hread : p.isRefused = false) : joined (p :: ps) ≠ [] := by
  have hp := Piece.text_ne_nil hread
  cases ps with
  | nil => exact hp
  | cons q ps => exact List.append_ne_nil_of_left_ne_nil hp _

/-- White space around separators leaves the last character where it is. -/
theorem getLast?_spaced (hread : p.isRefused = false)
    (hreads : ∀ s ∈ steps, s.piece.isRefused = false) :
    (spaced p steps).getLast? = (joined (p :: steps.map (·.piece))).getLast? := by
  induction steps generalizing p with
  | nil => rfl
  | cons s steps ih =>
    have hs := hreads s List.mem_cons_self
    have hrest := ih hs fun t ht => hreads t (List.mem_cons_of_mem s ht)
    have hne : joined (s.piece :: steps.map (·.piece)) ≠ [] := joined_ne_nil hs
    have hlast := List.getLast?_eq_some_getLast hne
    rw [List.map_cons, joined, spaced]
    simp [List.getLast?_append, hrest, hlast]

/-- A text that is read stays what it is between any ends of white space. -/
theorem trim_spaced {text : List Char} (hpieces : Divides (trim text) (p :: steps.map (·.piece)))
    (hread : p.isRefused = false) (hreads : ∀ s ∈ steps, s.piece.isRefused = false) :
    trim (spaced p steps) = spaced p steps := by
  refine trim_eq_self ?_ ?_
  · rw [head?_spaced hread, ← head?_joined (Piece.text_ne_nil hread), hpieces.joined_eq]
    exact not_isBlank_head?_trim text
  · rw [getLast?_spaced hread hreads, hpieces.joined_eq]
    exact not_isBlank_getLast?_trim text

/-- A text that is read can be written with more white space around the separators between its
pieces and at its ends. It is then read as the same names if and only if no white space is put next
to a quoted piece, the ends of the text apart. -/
theorem parse?_spaced_iff {text wider : String} {lead trail : List Char}
    (hpieces : Divides (trim text.toList) (p :: steps.map (·.piece)))
    (hread : parse? text = some names) (hblank : ∀ c ∈ lead ++ trail, isBlank c)
    (hwider : wider.toList = lead ++ (spaced p steps ++ trail)) :
    parse? wider = some names ↔ IsUndisturbed p steps := by
  have hscan := (parse?_of_divides hpieces).symm.trans hread
  rw [Option.ite_none_left_eq_some] at hscan
  obtain ⟨hrefused, hnames⟩ := hscan
  have hreads : ∀ q ∈ p :: steps.map (·.piece), q.isRefused = false := by
    simpa only [Bool.not_eq_true, List.any_eq_false] using hrefused
  have hp : p.isRefused = false := hreads p List.mem_cons_self
  have hps : ∀ s ∈ steps, s.piece.isRefused = false := fun s hs =>
    hreads s.piece (List.mem_cons_of_mem p (List.mem_map_of_mem hs))
  have hends : trim wider.toList = spaced p steps := by
    rw [hwider, trim_blank_append fun c hc => hblank c (List.mem_append_left trail hc),
      trim_append_blank fun c hc => hblank c (List.mem_append_right lead hc),
      trim_spaced hpieces hp hps]
  have hlast : ∀ c ∈ (spaced p steps).getLast?, ¬ isBlank c := by
    rw [← hends]
    exact not_isBlank_getLast?_trim _
  have hspaced := scan_spaced_eq_iff hpieces.isDivision hp hps hlast
  rw [parse?, hends, ← hspaced, ← Option.some.inj hnames, List.map_cons, List.map_map]
  rfl

/-- White space after a bare segment and at both ends leaves the separator between the quotes where
it is. -/
theorem parse?_spaced_iff_afterBare :
    parse? "A::'::'" = some ["A", "::"] ∧ parse? " A ::'::' " = some ["A", "::"] := by
  have hread : parse? "A::'::'" = some ["A", "::"] := by decide +kernel
  have hpieces : Divides (trim "A::'::'".toList) [.bare ['A'] (by decide),
      .quoted [.plain ':' (by decide) (by decide), .plain ':' (by decide) (by decide)] []] :=
    ⟨.cons rfl (by decide) (.last (by decide)), by decide⟩
  have hspace : ∀ c ∈ [' '], isBlank c := List.all_eq_true.1 (by decide)
  have hblank : ∀ c ∈ [' '] ++ [' '], isBlank c := List.all_eq_true.1 (by decide)
  have hwider : " A ::'::' ".toList = [' '] ++ (spaced (.bare ['A'] (by decide))
      [⟨[' '], [], .quoted [.plain ':' (by decide) (by decide),
        .plain ':' (by decide) (by decide)] [], hspace, by simp⟩] ++ [' ']) :=
    rfl
  refine ⟨hread, (parse?_spaced_iff hpieces hread hblank hwider).2 ?_⟩
  simp [IsUndisturbed, Piece.isQuoted]

/-- White space on either side of a separator changes what a quoted segment is read as. -/
theorem blankBeforeQuote_split :
    parse? "A::'b::c'" = some ["A", "b::c"] ∧ parse? "A:: 'b::c'" = some ["A", "'b", "c'"] ∧
    parse? "'a'::b" = some ["a", "b"] ∧ parse? "'a' ::b" = some ["a ", "b"] ∧
    ¬ ∀ text wider p steps lead trail names,
      Divides (trim text.toList) (p :: steps.map (·.piece)) → parse? text = some names →
        (∀ c ∈ lead ++ trail, isBlank c) → wider.toList = lead ++ (spaced p steps ++ trail) →
          parse? wider = some names := by
  have hread : parse? "'a'::b" = some ["a", "b"] := by decide +kernel
  have hwider : parse? "'a' ::b" = some ["a ", "b"] := by decide +kernel
  refine ⟨by decide +kernel, by decide +kernel, hread, hwider, fun hall => ?_⟩
  have hpieces : Divides (trim "'a'::b".toList)
      [.quoted [.plain 'a' (by decide) (by decide)] [], .bare ['b'] (by decide)] :=
    ⟨.cons rfl (by decide) (.last (by decide)), by decide⟩
  have hspace : ∀ c ∈ [' '], isBlank c := List.all_eq_true.1 (by decide)
  have hkept := hall _ "'a' ::b" _ [⟨[' '], [], _, hspace, by simp⟩] [] [] _ hpieces hread
    (by simp) rfl
  simp [hwider] at hkept

end QualifiedName
end Kerml
