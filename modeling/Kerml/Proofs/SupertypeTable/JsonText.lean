import Kerml.Proofs.OrderedMap
import Kerml.SupertypeTable.File

/-!
# Reading back table files

What stands between quotes is whatever a path holds, written text is followed token by token from
any rest, and rows and cells come back in their order.
-/
namespace Kerml

namespace Json

variable {c : Char} {cs : List Char} {ts : List Token}

theorem hexValue?_hexDigit : ∀ n < 16, hexValue? (hexDigit n) = some n := by decide

/-- The code by which a control character is written is its own. -/
theorem hexValue4?_code (h : c.toNat < 0x20) :
    hexValue4? '0' '0' (hexDigit (c.toNat / 16)) (hexDigit (c.toNat % 16)) = some c.toNat := by
  have hzero : hexValue? '0' = some 0 := by decide
  have hhigh := hexValue?_hexDigit (c.toNat / 16) (by omega)
  have hlow := hexValue?_hexDigit (c.toNat % 16) (by omega)
  have hcode : c.toNat / 16 * 16 + c.toNat % 16 = c.toNat := by omega
  simp [hexValue4?, hzero, hhigh, hlow, hcode]

private theorem decode?_code (h : c.toNat < 0x20) (rest : List Char) :
    decode? ('\\' :: 'u' :: '0' :: '0' :: hexDigit (c.toNat / 16) :: hexDigit (c.toNat % 16) ::
      rest) = (decode? rest).map fun r => (c :: r.1, r.2) := by
  have hhigh : isHighSurrogate c.toNat = false := by simp [isHighSurrogate]; omega
  have hlow : isLowSurrogate c.toNat = false := by simp [isLowSurrogate]; omega
  rw [decode?, hexValue4?_code h]
  simp [hhigh, hlow]

/-- A character that is not escaped stands for itself. -/
theorem decode?_cons (hquote : c ≠ '"') (hslash : c ≠ '\\') (h : ¬ c.toNat < 0x20)
    (rest : List Char) : decode? (c :: rest) = (decode? rest).map fun r => (c :: r.1, r.2) := by
  rw [decode?, if_neg h]
  · exact hquote
  · exact fun _ _ _ _ _ h _ => hslash h
  · exact fun _ _ h _ => hslash h

private theorem decode?_encodeChar (c : Char) (rest : List Char) :
    decode? (encodeChar c ++ rest) = (decode? rest).map fun r => (c :: r.1, r.2) := by
  rw [encodeChar]
  split_ifs with hquote hslash _ _ _ _ _ hcontrol
  -- the escapes of one letter come first
  iterate 7
    · subst c
      rfl
  · exact decode?_code hcontrol rest
  · exact decode?_cons hquote hslash hcontrol rest

/-- Text is read back from between its quotes, and what follows the closing quote is left. -/
theorem decode?_flatMap_encodeChar (s rest : List Char) :
    decode? (s.flatMap encodeChar ++ '"' :: rest) = some (s, rest) := by
  induction s with
  | nil => rfl
  | cons c s ih =>
    rw [List.flatMap_cons, List.append_assoc, decode?_encodeChar, ih]
    rfl

/-- Text that is read as certain tokens, whatever follows it. -/
def Spells (cs : List Char) (ts : List Token) : Prop :=
  ∀ rest, tokens? (cs ++ rest) = (tokens? rest).map (ts ++ ·)

private theorem tokens?_nil : tokens? [] = some [] := by rw [tokens?]

private theorem Spells.tokens?_eq (h : Spells cs ts) : tokens? cs = some ts := by
  have hcs := h []
  rwa [tokens?_nil, List.append_nil, Option.map_some, List.append_nil] at hcs

theorem Spells.append {cs' : List Char} {ts' : List Token} (h : Spells cs ts)
    (h' : Spells cs' ts') : Spells (cs ++ cs') (ts ++ ts') := by
  intro rest
  rw [List.append_assoc, h, h', Option.map_map]
  simp [Function.comp_def]

theorem spells_nil : Spells [] [] := by
  intro rest
  rw [List.nil_append]
  exact (congrFun Option.map_id _).symm

theorem spells_spaces (h : ∀ c ∈ cs, isSpace c) : Spells cs [] := by
  induction cs with
  | nil => exact spells_nil
  | cons c cs ih =>
    intro rest
    rw [List.cons_append, tokens?, if_pos (h c List.mem_cons_self)]
    exact ih (fun d hd => h d (List.mem_cons_of_mem c hd)) rest

theorem spells_punctuation {t : Token} (hspace : isSpace c = false) (hquote : c ≠ '"')
    (h : punctuation? c = some t) : Spells [c] [t] := by
  intro rest
  rw [List.singleton_append, tokens?, if_neg (by simp [hspace]), if_neg hquote, h]
  rfl

theorem spells_encode (s : List Char) : Spells (encode s) [.text s] := by
  intro rest
  have hspace : isSpace '"' = false := by decide
  have hread : decode? (s.flatMap encodeChar ++ ['"'] ++ rest) = some (s, rest) := by
    rw [List.append_assoc]
    exact decode?_flatMap_encodeChar s rest
  rw [encode, List.cons_append, tokens?, if_neg (by simp [hspace]), if_pos rfl]
  split
  · rename_i hnone
    cases hnone.symm.trans hread
  · rename_i hsome
    cases hsome.symm.trans hread
    rfl

private theorem spells_intercalate {α : Type} {separator : List Char} {mark : List Token}
    {text : α → List Char} {tokens : α → List Token} {items : List α}
    (hseparator : Spells separator mark) (h : ∀ a ∈ items, Spells (text a) (tokens a)) :
    Spells (separator.intercalate (items.map text)) (mark.intercalate (items.map tokens)) := by
  induction items with
  | nil => exact spells_nil
  | cons a items ih =>
    have hfirst := h a List.mem_cons_self
    have hrest := ih fun b hb => h b (List.mem_cons_of_mem a hb)
    cases items with
    | nil => simpa using hfirst
    | cons b items =>
      simp only [List.map_cons, List.intercalate_cons_cons] at hrest ⊢
      exact (hfirst.append hseparator).append hrest

end Json

namespace SupertypeTable

open Json

namespace JsonText

def objectTokens (members : List (List Token)) : List Token :=
  .openBrace :: ([.comma].intercalate members ++ [.closeBrace])

def cellTokens (cell : Cell) : List Token :=
  [.text cell.1, .colon, .text cell.2]

def rowTokens (row : Row) : List Token :=
  .text row.1 :: .colon :: objectTokens (row.2.map cellTokens)

theorem spells_member {name value : List Char} {ts : List Token} (h : Spells value ts) :
    Spells (member name value) (.text name :: .colon :: ts) := by
  have hcolon : Spells [':'] [.colon] := spells_punctuation (by decide) (by decide) rfl
  have hspace : Spells [' '] [] := spells_spaces (List.all_eq_true.1 (by decide))
  have hmember := (spells_encode name).append (hcolon.append (hspace.append h))
  simpa [member] using hmember

/-- An object is read as its members, however far it is indented. -/
theorem spells_object {α : Type} {indent : List Char} {text : α → List Char}
    {tokens : α → List Token} {items : List α} (hindent : ∀ c ∈ indent, isSpace c)
    (h : ∀ a ∈ items, Spells (text a) (tokens a)) :
    Spells (object indent (items.map text)) (objectTokens (items.map tokens)) := by
  have hopen : Spells ['{'] [.openBrace] := spells_punctuation (by decide) (by decide) rfl
  have hclose : Spells ['}'] [.closeBrace] := spells_punctuation (by decide) (by decide) rfl
  have hcomma : Spells [','] [.comma] := spells_punctuation (by decide) (by decide) rfl
  have hbreak : Spells ['\n'] [] := spells_spaces (List.all_eq_true.1 (by decide))
  cases items with
  | nil => exact hopen.append hclose
  | cons a items =>
    have hmembers : ∀ b ∈ a :: items, Spells (indent ++ [' ', ' '] ++ text b) (tokens b) := by
      intro b hb
      have htwo : ∀ c ∈ [' ', ' '], isSpace c := List.all_eq_true.1 (by decide)
      exact ((spells_spaces hindent).append (spells_spaces htwo)).append (h b hb)
    have hinside := spells_intercalate (hcomma.append hbreak) hmembers
    have hwhole := hopen.append (hbreak.append
      (hinside.append (hbreak.append ((spells_spaces hindent).append hclose))))
    simpa [object, objectTokens, List.map_map, Function.comp_def] using hwhole

/-- The text of a table is read as the tokens of its rows. -/
theorem tokens?_renderRows (rows : List Row) :
    tokens? (renderRows rows) = some (objectTokens (rows.map rowTokens)) := by
  refine Spells.tokens?_eq (spells_object (by simp) fun row _ => spells_member ?_)
  exact spells_object (List.all_eq_true.1 (by decide)) fun cell _ =>
    spells_member (spells_encode cell.2)

private theorem readCells?_tokens {cells : List Cell} (h : cells ≠ []) :
    readCells? ([.comma].intercalate (cells.map cellTokens)) = some cells := by
  induction cells with
  | nil => contradiction
  | cons cell cells ih =>
    cases cells with
    | nil => rfl
    | cons next cells =>
      rw [List.map_cons, List.map_cons, List.intercalate_cons_cons, ← List.map_cons]
      have hrest := ih (List.cons_ne_nil next cells)
      simp only [cellTokens, List.cons_append, List.nil_append] at hrest ⊢
      rw [readCells?, hrest]
      rfl

theorem readRow?_tokens (cells : List Cell) :
    readRow? ([.comma].intercalate (cells.map cellTokens)) = some cells := by
  cases cells with
  | nil => rfl
  | cons cell cells =>
    have hsome : ([.comma].intercalate ((cell :: cells).map cellTokens)).isEmpty = false := by
      cases cells <;> rfl
    rw [readRow?, hsome, if_neg Bool.false_ne_true, readCells?_tokens (List.cons_ne_nil cell cells)]

private theorem ne_closeBrace_of_mem_cells {cells : List Cell} {t : Token}
    (h : t ∈ [.comma].intercalate (cells.map cellTokens)) : t ≠ .closeBrace := by
  induction cells with
  | nil => cases h
  | cons cell cells ih =>
    have hcell : t ∈ cellTokens cell → t ≠ .closeBrace := by
      rintro hmem rfl
      simp [cellTokens] at hmem
    cases cells with
    | nil => exact hcell (by simpa using h)
    | cons next cells =>
      rw [List.map_cons, List.map_cons, List.intercalate_cons_cons, ← List.map_cons,
        List.mem_append, List.mem_append, List.mem_singleton] at h
      rcases h with (h | rfl) | h
      · exact hcell h
      · exact Token.noConfusion
      · exact ih h

/-- The brace that closes a row is the first one after it. -/
theorem span_row (cells : List Cell) (rest : List Token) :
    let tokens := [.comma].intercalate (cells.map cellTokens)
    (tokens ++ .closeBrace :: rest).takeWhile (· != .closeBrace) = tokens ∧
      (tokens ++ .closeBrace :: rest).dropWhile (· != .closeBrace) = .closeBrace :: rest := by
  intro tokens
  have hinside : ∀ t ∈ tokens, (t != .closeBrace) = true := fun t ht =>
    bne_iff_ne.2 (ne_closeBrace_of_mem_cells ht)
  rw [List.takeWhile_append_of_pos hinside, List.dropWhile_append_of_pos hinside]
  simp

private theorem readRows?_last (row : Row) : readRows? (rowTokens row ++ [.closeBrace]) = some [row] := by
  obtain ⟨htake, hdrop⟩ := span_row row.2 [.closeBrace]
  have htokens : rowTokens row ++ [.closeBrace] = .text row.1 :: .colon :: .openBrace ::
      ([.comma].intercalate (row.2.map cellTokens) ++ .closeBrace :: [.closeBrace]) := by
    simp [rowTokens, objectTokens]
  rw [htokens, readRows?, htake, readRow?_tokens]
  split
  · rename_i hcells _
    cases hcells
    rfl
  · rename_i hmore
    cases hmore.symm.trans hdrop
  · rename_i hneither _
    exact absurd hdrop (hneither _ rfl)

private theorem readRows?_comma (row : Row) (more : List Token) :
    readRows? (rowTokens row ++ .comma :: more) = (readRows? more).map (row :: ·) := by
  obtain ⟨htake, hdrop⟩ := span_row row.2 (.comma :: more)
  have htokens : rowTokens row ++ .comma :: more = .text row.1 :: .colon :: .openBrace ::
      ([.comma].intercalate (row.2.map cellTokens) ++ .closeBrace :: .comma :: more) := by
    simp [rowTokens, objectTokens]
  rw [htokens, readRows?, htake, readRow?_tokens]
  split
  · rename_i hlast
    cases hlast.symm.trans hdrop
  · rename_i hcells hrest
    cases hcells
    cases hrest.symm.trans hdrop
    rfl
  · rename_i hneither
    exact absurd hdrop (hneither _ _ rfl)

private theorem readRows?_tokens {rows : List Row} (h : rows ≠ []) :
    readRows? ([.comma].intercalate (rows.map rowTokens) ++ [.closeBrace]) = some rows := by
  induction rows with
  | nil => contradiction
  | cons row rows ih =>
    cases rows with
    | nil => simpa using readRows?_last row
    | cons next rows =>
      rw [List.map_cons, List.map_cons, List.intercalate_cons_cons, ← List.map_cons,
        List.append_assoc, List.append_assoc, List.singleton_append, readRows?_comma,
        ih (List.cons_ne_nil next rows)]
      rfl

private theorem parseRows?_renderRows (rows : List Row) : parseRows? (renderRows rows) = some rows := by
  rw [parseRows?, tokens?_renderRows]
  cases rows with
  | nil => rfl
  | cons row rows =>
    have hread := readRows?_tokens (List.cons_ne_nil row rows)
    have hfirst : ∃ rest, [.comma].intercalate ((row :: rows).map rowTokens) =
        .text row.1 :: rest := by
      cases rows <;> exact ⟨_, rfl⟩
    obtain ⟨rest, hrest⟩ := hfirst
    rw [objectTokens]
    rw [hrest] at hread ⊢
    exact hread

end JsonText

/-- What is written entry by entry is read back entry by entry. -/
theorem mapM_map_eq_some {α β : Type} {f : α → β} {g : β → Option α} (h : ∀ a, g (f a) = some a)
    (as : List α) : (as.map f).mapM g = some as := by
  have hsome : g ∘ f = some := funext h
  rw [List.mapM_map, hsome]
  exact List.mapM_pure.trans (congrArg some (List.map_id as))

private theorem ofCell?_name (cell : SupertypeRole × String) :
    ofCell? (cell.1.name.toList, cell.2.toList) = some cell := by
  rw [ofCell?, String.ofList_toList, String.ofList_toList, SupertypeRole.ofName?_name]
  rfl

private theorem ofRow?_name (row : Metaclass × RolePaths) :
    ofRow? (row.1.name.toList,
      row.2.entries.map fun cell => (cell.1.name.toList, cell.2.toList)) = some row := by
  have hcells := mapM_map_eq_some ofCell?_name row.2.entries
  simp [ofRow?, Metaclass.ofName?_name, hcells, OrderedMap.ofList_entries]

/-- What a file says of a table is all that there is to the table. -/
theorem ofRows?_toRows (t : SupertypeTable) : ofRows? t.toRows = some t := by
  have hrows : t.toRows.mapM ofRow? = some t.rows.entries :=
    mapM_map_eq_some ofRow?_name t.rows.entries
  simp [ofRows?, hrows, OrderedMap.ofList_entries]

theorem parse_render_json (t : SupertypeTable) :
    TableFormat.json.parse (TableFormat.json.render t) = .ok t := by
  have hparse : JsonText.parse? (JsonText.render t) = some t := by
    rw [JsonText.parse?, JsonText.render, String.toList_ofList]
    simp [JsonText.parseRows?_renderRows, ofRows?_toRows]
  rw [TableFormat.parse, TableFormat.render]
  simp [hparse]

/-- Text that is written to a file is what the file holds. -/
theorem text?_of_write? {f g : Folder} {path text : String}
    (h : f.write? path text.toUTF8 = some g) : g.text? path = some text := by
  obtain ⟨name, hname, rfl⟩ := Option.map_eq_some_iff.1 h
  have hread : String.fromUTF8? text.toByteArray = some text := by
    rw [String.fromUTF8?, dif_pos text.isValidUTF8]
    rfl
  simp [Folder.text?, Folder.read?, hname, hread]

/-- A table is read back from its own text, with its kinds and their roles in the same order, and
is loaded from the file to which it has been saved. -/
theorem load_save_json (t : SupertypeTable) :
    TableFormat.json.parse (TableFormat.json.render t) = .ok t ∧
    ∀ path folder, (TableFile.save ⟨path, .json⟩ folder t).bind (TableFile.load ⟨path, .json⟩) =
      (TableFile.save ⟨path, .json⟩ folder t).map fun _ => t := by
  refine ⟨parse_render_json t, fun path folder => ?_⟩
  rw [TableFile.save]
  cases hwrite : folder.write? path (TableFormat.json.render t).toUTF8 with
  | none => rfl
  | some written =>
    have hload : TableFile.load ⟨path, .json⟩ written = .ok t := by
      rw [TableFile.load, text?_of_write? hwrite]
      exact parse_render_json t
    exact hload

end SupertypeTable
end Kerml
