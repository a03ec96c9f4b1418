import Conduit.Core.SqlEmbedding
import Conduit.Etl.InsertSql

/-!
# Whether the built text is one statement

The text `BuildInsertSQL` writes around a query is harmless: its identifiers hold no quote
and no semicolon, and what follows the query starts on a new line.  Whether the whole is one
statement is therefore up to the query alone, and nothing in `normalizeExtractSQL` looks for
a semicolon inside it.
-/

namespace Conduit.Etl

open SqlLexing

/-! ## The bytes of an identifier -/

section Identifier

variable {unicode : UnicodeTables}

/-- A rune that an identifier can go on with. -/
def identifierRune (unicode : UnicodeTables) (rune : ℕ) : Bool :=
  rune == underscore.toNat || unicode.isLetter rune || unicode.isDigit rune

theorem not_identifierRune_runeError (unicode : UnicodeTables) :
    identifierRune unicode runeError = false := by
  simp only [identifierRune, unicode.letter_runeError, unicode.digit_runeError]
  decide

theorem tagCont_of_identifierRune {ch : UInt8} (hch : ch < 128)
    (hrune : identifierRune unicode ch.toNat = true) : tagCont ch = true := by
  rw [identifierRune, unicode.letter_ascii ch hch, unicode.digit_ascii ch hch] at hrune
  simp only [Bool.or_eq_true, beq_iff_eq] at hrune
  simp only [tagCont, identStart, decide_eq_true_eq]
  rcases hrune with (hunderscore | hletter) | hdigit
  · exact .inl (.inr (.inl (UInt8.toNat_inj.mp hunderscore)))
  · exact .inl (.inl hletter)
  · exact .inr hdigit

theorem tagCont_of_high {ch : UInt8} (hch : 128 ≤ ch) : tagCont ch = true := by
  simp [tagCont, identStart, hch]

theorem tagCont_of_between {low high ch : UInt8} (hlow : 128 ≤ low)
    (hch : between low high ch = true) : tagCont ch = true := by
  rw [between, decide_eq_true_eq] at hch
  exact tagCont_of_high (UInt8.le_trans hlow hch.1)

theorem tagCont_of_continuation {ch : UInt8} (hch : continuation ch = true) :
    tagCont ch = true :=
  tagCont_of_between (by decide) hch

theorem tagCont_of_secondOfThree {first second : UInt8}
    (hsecond : secondOfThree first second = true) : tagCont second = true := by
  unfold secondOfThree at hsecond
  split at hsecond
  · exact tagCont_of_between (by decide) hsecond
  · split at hsecond
    · exact tagCont_of_between (by decide) hsecond
    · exact tagCont_of_continuation hsecond

theorem tagCont_of_secondOfFour {first second : UInt8}
    (hsecond : secondOfFour first second = true) : tagCont second = true := by
  unfold secondOfFour at hsecond
  split at hsecond
  · exact tagCont_of_between (by decide) hsecond
  · split at hsecond
    · exact tagCont_of_between (by decide) hsecond
    · exact tagCont_of_continuation hsecond

/-- A rune of an identifier takes up bytes of an identifier. -/
theorem decodeRune_used {first : UInt8} {rest : Text}
    (hrune : identifierRune unicode (decodeRune first rest).1 = true) :
    ∃ used, rest = used ++ (decodeRune first rest).2 ∧
      ∀ ch ∈ first :: used, tagCont ch = true := by
  have herror := not_identifierRune_runeError unicode
  unfold decodeRune at hrune ⊢
  by_cases hascii : first < 0x80
  · rw [if_pos hascii] at hrune ⊢
    refine ⟨[], rfl, ?_⟩
    simpa using tagCont_of_identifierRune hascii hrune
  rw [if_neg hascii] at hrune ⊢
  cases rest with
  | nil => simp [herror] at hrune
  | cons second rest =>
      simp only at hrune ⊢
      by_cases htwo : (between 0xC2 0xDF first && continuation second) = true
      · rw [if_pos htwo]
        rw [Bool.and_eq_true] at htwo
        refine ⟨[second], rfl, ?_⟩
        simpa using ⟨tagCont_of_between (by decide) htwo.1, tagCont_of_continuation htwo.2⟩
      rw [if_neg htwo] at hrune ⊢
      cases rest with
      | nil => simp [herror] at hrune
      | cons third rest =>
          simp only at hrune ⊢
          by_cases hthree : (between 0xE0 0xEF first && secondOfThree first second &&
              continuation third) = true
          · rw [if_pos hthree]
            simp only [Bool.and_eq_true] at hthree
            refine ⟨[second, third], rfl, ?_⟩
            simpa using ⟨tagCont_of_between (by decide) hthree.1.1,
              tagCont_of_secondOfThree hthree.1.2, tagCont_of_continuation hthree.2⟩
          rw [if_neg hthree] at hrune ⊢
          cases rest with
          | nil => simp [herror] at hrune
          | cons fourth rest =>
              simp only at hrune ⊢
              by_cases hfour : (between 0xF0 0xF4 first && secondOfFour first second &&
                  continuation third && continuation fourth) = true
              · rw [if_pos hfour]
                simp only [Bool.and_eq_true] at hfour
                refine ⟨[second, third, fourth], rfl, ?_⟩
                simpa using ⟨tagCont_of_between (by decide) hfour.1.1.1,
                  tagCont_of_secondOfFour hfour.1.1.2, tagCont_of_continuation hfour.1.2,
                  tagCont_of_continuation hfour.2⟩
              · rw [if_neg hfour] at hrune
                simp [herror] at hrune

theorem tagCont_of_runes (unicode : UnicodeTables) {rounds : ℕ} {text : Text}
    (hrounds : text.length ≤ rounds)
    (hrunes : ∀ rune ∈ runes rounds text, identifierRune unicode rune = true) :
    ∀ ch ∈ text, tagCont ch = true := by
  induction rounds generalizing text with
  | zero =>
      have hempty : text = [] := List.length_eq_zero_iff.mp (Nat.le_zero.mp hrounds)
      simp [hempty]
  | succ rounds ih =>
      cases text with
      | nil => simp
      | cons first rest =>
          obtain ⟨hfirst, hothers⟩ := List.forall_mem_cons.mp hrunes
          obtain ⟨used, hused, htags⟩ := decodeRune_used hfirst
          have hlength := congrArg List.length hused
          rw [List.length_append] at hlength
          rw [List.length_cons] at hrounds
          have hafter := ih (by omega) hothers
          rw [hused, ← List.cons_append]
          intro ch hch
          exact (List.mem_append.mp hch).elim (htags ch) (hafter ch)

theorem tagCont_of_validIdentifierPart {part : Text}
    (hvalid : validIdentifierPart unicode part = true) : ∀ ch ∈ part, tagCont ch = true := by
  unfold validIdentifierPart at hvalid
  split at hvalid
  · cases hvalid
  · rename_i first others hrunes
    rw [Bool.and_eq_true, List.all_eq_true] at hvalid
    apply tagCont_of_runes unicode le_rfl
    rw [hrunes]
    intro rune hrune
    rcases List.mem_cons.mp hrune with rfl | hother
    · rw [identifierRune, hvalid.1]
      rfl
    · exact hvalid.2 rune hother

theorem parseIdentifier_eq_ok {value : Text} {identifier : List Text}
    (hparsed : parseIdentifier unicode value = .ok identifier) :
    identifier = value.splitOn period ∧
      ∀ part ∈ identifier, validIdentifierPart unicode part = true := by
  unfold parseIdentifier at hparsed
  simp only at hparsed
  split at hparsed
  · cases hparsed
  · split at hparsed
    · rename_i hall
      cases hparsed
      exact ⟨rfl, List.all_eq_true.mp hall⟩
    · cases hparsed

theorem tagCont_of_parseIdentifier {value : Text} {identifier : List Text}
    (hparsed : parseIdentifier unicode value = .ok identifier) :
    ∀ part ∈ identifier, ∀ ch ∈ part, tagCont ch = true := by
  intro part hpart
  exact tagCont_of_validIdentifierPart ((parseIdentifier_eq_ok hparsed).2 part hpart)

end Identifier

/-! ## Quoted identifiers -/

/-- Text that the lexer reads as a token of its own, with no semicolon in it. -/
structure Harmless (text : Text) : Prop where
  separable : Separable text
  semicolon : semicolon ∉ text

theorem filter_ne_zero {part : Text} (hpart : ∀ ch ∈ part, tagCont ch = true) :
    part.filter (· ≠ 0) = part := by
  rw [List.filter_eq_self]
  intro ch hch
  rw [decide_eq_true_eq]
  rintro rfl
  cases hpart 0 hch

theorem sanitizePart_eq {part : Text} (hpart : ∀ ch ∈ part, tagCont ch = true) :
    sanitizePart part = doubleQuote :: (part ++ [doubleQuote]) := by
  have hplain : (part.flatMap fun ch =>
      if ch = doubleQuote then [doubleQuote, doubleQuote] else [ch]) = part := by
    induction part with
    | nil => rfl
    | cons ch part ih =>
        obtain ⟨hch, hothers⟩ := List.forall_mem_cons.mp hpart
        have hquote : ch ≠ doubleQuote := by
          rintro rfl
          cases hch
        rw [List.flatMap_cons, if_neg hquote, ih hothers]
        rfl
  rw [sanitizePart, filter_ne_zero hpart, hplain]

theorem harmless_sanitizePart {part : Text} (hpart : ∀ ch ∈ part, tagCont ch = true) :
    Harmless (sanitizePart part) := by
  have hquote : doubleQuote ∉ part := by
    intro hmem
    cases hpart _ hmem
  have hsemicolon : semicolon ∉ part := by
    intro hmem
    cases hpart _ hmem
  rw [sanitizePart_eq hpart]
  refine ⟨separable_quoted hquote, ?_⟩
  simp only [List.mem_cons, List.mem_append, List.not_mem_nil, or_false, not_or]
  exact ⟨by decide, hsemicolon, by decide⟩

theorem mem_of_mem_intercalate {separator : Text} {parts : List Text} {ch : UInt8}
    (hch : ch ∈ separator.intercalate parts) : ch ∈ separator ∨ ∃ part ∈ parts, ch ∈ part := by
  induction parts with
  | nil => simp [List.intercalate] at hch
  | cons part parts ih =>
      cases parts with
      | nil =>
          rw [List.intercalate_singleton] at hch
          exact .inr ⟨part, List.mem_cons_self, hch⟩
      | cons other parts =>
          rw [List.intercalate_cons_of_ne_nil (by simp), List.mem_append, List.mem_append] at hch
          rcases hch with (hpart | hseparator) | hothers
          · exact .inr ⟨part, List.mem_cons_self, hpart⟩
          · exact .inl hseparator
          · rcases ih hothers with hseparator | ⟨part', hpart', hmem⟩
            · exact .inl hseparator
            · exact .inr ⟨part', List.mem_cons_of_mem _ hpart', hmem⟩

theorem harmless_intercalate {first : UInt8} {more : Text} (hfirst : separator first = true)
    (hmore : Neutral more) (hsemicolon : semicolon ∉ first :: more) {parts : List Text}
    (hparts : ∀ part ∈ parts, Harmless part) :
    Harmless ((first :: more).intercalate parts) := by
  constructor
  · exact separable_intercalate hfirst hmore fun part hpart => (hparts part hpart).separable
  · intro hmem
    rcases mem_of_mem_intercalate hmem with hseparator | ⟨part, hpart, hinside⟩
    · exact hsemicolon hseparator
    · exact (hparts part hpart).semicolon hinside

theorem harmless_sanitize {identifier : List Text}
    (hidentifier : ∀ part ∈ identifier, ∀ ch ∈ part, tagCont ch = true) :
    Harmless (sanitize identifier) := by
  apply harmless_intercalate (by decide) neutral_nil (by decide)
  intro part hpart
  obtain ⟨raw, hraw, rfl⟩ := List.mem_map.mp hpart
  exact harmless_sanitizePart (hidentifier raw hraw)

theorem harmless_joinComma {columns : List Text}
    (hcolumns : ∀ column ∈ columns, Harmless column) : Harmless (joinComma columns) :=
  harmless_intercalate (by decide) (neutral_separator (by decide)) (by decide) hcolumns

/-! ## The text around the query -/

/-- What a loop that can fail returns comes from the elements one by one. -/
theorem forall₂_of_mapM {Error : Type} {read : Text → Except Error Text}
    {columns sanitized : List Text} (hread : columns.mapM read = .ok sanitized) :
    List.Forall₂ (fun raw column => read raw = .ok column) columns sanitized := by
  induction columns generalizing sanitized with
  | nil =>
      cases hread
      exact .nil
  | cons raw columns ih =>
      rw [List.mapM_cons] at hread
      cases hraw : read raw with
      | error error => simp [hraw, bind, Except.bind] at hread
      | ok column =>
          cases hothers : columns.mapM read with
          | error error => simp [hraw, hothers, bind, Except.bind] at hread
          | ok others =>
              simp only [hraw, hothers, bind, Except.bind, pure, Except.pure,
                Except.ok.injEq] at hread
              rw [← hread]
              exact .cons hraw (ih hothers)

theorem exists_of_mem_mapM {Error : Type} {read : Text → Except Error Text}
    {columns sanitized : List Text} (hread : columns.mapM read = .ok sanitized) :
    ∀ column ∈ sanitized, ∃ raw, read raw = .ok column := by
  have hcolumns := forall₂_of_mapM hread
  clear hread
  induction hcolumns with
  | nil => simp
  | cons hraw _ ih => exact List.forall_mem_cons.mpr ⟨⟨_, hraw⟩, ih⟩

/-- A column that the body of such a loop accepts is a single part, whatever the errors. -/
theorem column_of_loop {Error : Type} {unicode : UnicodeTables}
    {failed : IdentifierError → Error} {qualified : Error} {raw column : Text}
    (hread : (match parseIdentifier unicode raw with
      | .error error => Except.error (failed error)
      | .ok identifier =>
          if identifier.length ≠ 1 then Except.error qualified
          else Except.ok (sanitize identifier)) = .ok column) :
    ∃ identifier, parseIdentifier unicode raw = .ok identifier ∧ identifier.length = 1 ∧
      column = sanitize identifier := by
  split at hread
  · cases hread
  · rename_i identifier hidentifier
    split at hread
    · cases hread
    · rename_i hsingle
      exact ⟨identifier, hidentifier, not_not.mp hsingle, (Except.ok.inj hread).symm⟩

/-- The columns that a loop over raw columns accepts. -/
theorem harmless_of_mapM {Error : Type} {unicode : UnicodeTables}
    {failed : Text → IdentifierError → Error} {qualified : Text → Error}
    {columns sanitized : List Text}
    (hread : (columns.mapM fun column =>
      match parseIdentifier unicode column with
      | .error error => Except.error (failed column error)
      | .ok identifier =>
          if identifier.length ≠ 1 then Except.error (qualified column)
          else Except.ok (sanitize identifier)) = .ok sanitized) :
    ∀ column ∈ sanitized, Harmless column := by
  intro column hcolumn
  obtain ⟨raw, hraw⟩ := exists_of_mem_mapM hread column hcolumn
  obtain ⟨identifier, hidentifier, -, rfl⟩ := column_of_loop hraw
  exact harmless_sanitize (tagCont_of_parseIdentifier hidentifier)

theorem harmless_sanitizeUnqualifiedIdentifiers {unicode : UnicodeTables}
    {columns sanitized : List Text}
    (hread : sanitizeUnqualifiedIdentifiers unicode columns = .ok sanitized) :
    ∀ column ∈ sanitized, Harmless column :=
  harmless_of_mapM hread

theorem harmless_sanitizeTargetColumns {unicode : UnicodeTables}
    {columns sanitized : List Text}
    (hread : sanitizeTargetColumns unicode columns = .ok sanitized) :
    ∀ column ∈ sanitized, Harmless column :=
  harmless_of_mapM hread

theorem neutral_insertHead {table columns : List Text} (htable : Harmless (sanitize table))
    (hcolumns : ∀ column ∈ columns, Harmless column) :
    Neutral (insertHead table columns) ∧ semicolon ∉ insertHead table columns := by
  have hjoined := harmless_joinComma hcolumns
  have htext : insertHead table columns =
      (ascii "INSERT INTO" ++ [32]) ++ (sanitize table ++ [32]) ++ [40] ++
        (joinComma columns ++ [41]) ++ [10] := by
    have hopen : ascii " (" = [32] ++ [40] := by decide
    have hclose : ascii ")\n" = [41] ++ [10] := by decide
    have hinsert : ascii "INSERT INTO " = ascii "INSERT INTO" ++ [32] := by decide
    simp only [insertHead, hopen, hclose, hinsert, List.append_assoc]
  rw [htext]
  constructor
  · have hinsert : Neutral (ascii "INSERT INTO" ++ [32]) :=
      neutral_words (by decide) (by decide +kernel)
    exact (((hinsert.append (htable.separable 32 (by decide))).append
      (neutral_separator (by decide))).append (hjoined.separable 41 (by decide))).append
        (neutral_separator (by decide))
  · have hinsert : semicolon ∉ ascii "INSERT INTO" := by decide
    simp only [List.mem_append, List.mem_singleton, not_or]
    exact ⟨⟨⟨⟨⟨hinsert, by decide⟩, htable.semicolon, by decide⟩, by decide⟩,
      hjoined.semicolon, by decide⟩, by decide⟩

theorem newLine_upsertTail {conflictColumns updateColumns : List Text}
    (hconflict : ∀ column ∈ conflictColumns, Harmless column)
    (hupdate : ∀ column ∈ updateColumns, Harmless column) :
    NewLine (upsertTail conflictColumns updateColumns) ∧
      semicolon ∉ upsertTail conflictColumns updateColumns := by
  constructor
  · intro ch hch
    exact (Option.some.inj hch).symm
  · have hon : semicolon ∉ ascii "\nON CONFLICT (" := by decide
    have hset : semicolon ∉ ascii ") DO UPDATE SET " := by decide
    have hassignments : semicolon ∉ joinComma (updateColumns.map assignment) := by
      intro hmem
      rcases mem_of_mem_intercalate hmem with hcomma | ⟨text, htext, hinside⟩
      · revert hcomma
        decide
      · obtain ⟨column, hcolumn, rfl⟩ := List.mem_map.mp htext
        have hexcluded : semicolon ∉ ascii " = EXCLUDED." := by decide
        have hname := (hupdate column hcolumn).semicolon
        simp only [assignment, List.mem_append] at hinside
        rcases hinside with (hleft | hmiddle) | hright
        · exact hname hleft
        · exact hexcluded hmiddle
        · exact hname hright
    simp only [upsertTail, List.mem_append, not_or]
    exact ⟨⟨⟨hon, (harmless_joinComma hconflict).semicolon⟩, hset⟩, hassignments⟩

/-! ## The built text -/

/-- What an accepted pipeline comes to. -/
structure Built (unicode : UnicodeTables) (spec : PipelineSpec) (text : Text)
    (table columns : List Text) (extract tail : Text) : Prop where
  targetTable : parseIdentifier unicode spec.targetTable = .ok table
  targetColumns : ∀ column ∈ columns, Harmless column
  extractSQL : normalizeExtractSQL spec.extractSQL = .ok extract
  statement : text = insertHead table columns ++ extract ++ tail
  newLine : NewLine tail
  semicolon : semicolon ∉ tail

theorem mapError_eq_ok {α Error Wrapped : Type} {read : Except Error α}
    {wrap : Error → Wrapped} {value : α} :
    read.mapError wrap = .ok value ↔ read = .ok value := by
  cases read <;> simp [Except.mapError]

theorem bind_eq_ok {α β Error : Type} {read : Except Error α} {next : α → Except Error β}
    {result : β} :
    read >>= next = .ok result ↔ ∃ value, read = .ok value ∧ next value = .ok result := by
  cases read <;> simp [bind, Except.bind]

theorem exists_built {unicode : UnicodeTables} {spec : PipelineSpec} {text : Text}
    (hbuilt : buildInsertSQL unicode spec = .ok text) :
    ∃ table columns extract tail, Built unicode spec text table columns extract tail := by
  simp only [buildInsertSQL, bind_eq_ok, mapError_eq_ok] at hbuilt
  obtain ⟨writeMode, -, -, -, table, htable, columns, hcolumns, conflictColumns, hconflict,
    updateColumns, hupdate, -, -, extract, hextract, htext⟩ := hbuilt
  have hharmless := harmless_sanitizeTargetColumns hcolumns
  cases writeMode with
  | append =>
      refine ⟨table, columns, extract, [], htable, hharmless, hextract, ?_, ?_, ?_⟩
      · rw [List.append_nil]
        exact (Except.ok.inj htext).symm
      · simp [NewLine]
      · simp
  | upsert =>
      obtain ⟨hnewLine, hsemicolon⟩ := newLine_upsertTail
        (harmless_sanitizeUnqualifiedIdentifiers hconflict)
        (harmless_sanitizeUnqualifiedIdentifiers hupdate)
      exact ⟨table, columns, extract, _, htable, hharmless, hextract,
        (Except.ok.inj htext).symm, hnewLine, hsemicolon⟩

/-- A built text starts as an `INSERT` into the target table, and is one statement exactly
if the query it was built from has no semicolon outside literals, quoted identifiers and
comments, after the one that may end it has been cut off. -/
theorem singleStatement_iff_of_built {unicode : UnicodeTables} {spec : PipelineSpec}
    {text : Text} (hbuilt : buildInsertSQL unicode spec = .ok text) :
    ∃ table extract, parseIdentifier unicode spec.targetTable = .ok table ∧
      normalizeExtractSQL spec.extractSQL = .ok extract ∧
      ascii "INSERT INTO " ++ sanitize table ++ ascii " (" <+: text ∧
      (SingleStatement text ↔ SingleStatement extract) := by
  obtain ⟨table, columns, extract, tail, hparts⟩ := exists_built hbuilt
  have htable := harmless_sanitize (tagCont_of_parseIdentifier hparts.targetTable)
  obtain ⟨hneutral, hsemicolon⟩ := neutral_insertHead htable hparts.targetColumns
  refine ⟨table, extract, hparts.targetTable, hparts.extractSQL, ?_, ?_⟩
  · rw [hparts.statement, insertHead]
    refine ⟨joinComma columns ++ ascii ")\n" ++ extract ++ tail, ?_⟩
    simp only [List.append_assoc]
  · rw [hparts.statement]
    exact singleStatement_embed hneutral hparts.newLine hsemicolon hparts.semicolon

/-- Letters and digits of ASCII only. -/
def asciiTables : UnicodeTables where
  isLetter rune := decide (rune < 128) && SqlLexing.isLetter (UInt8.ofNat rune)
  isDigit rune := decide (rune < 128) && SqlLexing.isDigit (UInt8.ofNat rune)
  letter_ascii ch hch := by
    have hless : ch.toNat < 128 := hch
    rw [decide_eq_true hless, Bool.true_and, UInt8.ofNat_toNat]
  digit_ascii ch hch := by
    have hless : ch.toNat < 128 := hch
    rw [decide_eq_true hless, Bool.true_and, UInt8.ofNat_toNat]
  letter_runeError := by decide
  digit_runeError := by decide

/-- An upsert whose query has a semicolon in a literal and one at its end. -/
def noteSpec : PipelineSpec where
  extractSQL := ascii "SELECT id, total FROM orders WHERE note = ';';"
  targetTable := ascii "reports.totals"
  targetColumns := [ascii "id", ascii "total"]
  writeMode := ascii "upsert"
  conflictColumns := [ascii "id"]
  updateColumns := []

theorem singleStatement_noteSpec :
    ∃ text, buildInsertSQL asciiTables noteSpec = .ok text ∧ SingleStatement text := by
  have hbuilt : (buildInsertSQL asciiTables noteSpec).toOption.isSome = true := by
    decide +kernel
  cases htext : buildInsertSQL asciiTables noteSpec with
  | error error =>
      rw [htext] at hbuilt
      cases hbuilt
  | ok text =>
      obtain ⟨table, extract, -, hextract, -, hsingle⟩ := singleStatement_iff_of_built htext
      refine ⟨text, rfl, hsingle.mpr ?_⟩
      have hquery : normalizeExtractSQL noteSpec.extractSQL =
          .ok (ascii "SELECT id, total FROM orders WHERE note = ';'") := by
        decide +kernel
      rw [hquery, Except.ok.injEq] at hextract
      rw [← hextract]
      decide +kernel

/-- Two queries with a semicolon between them. -/
def twoQueries : PipelineSpec where
  extractSQL := ascii "SELECT 1; SELECT 2"
  targetTable := ascii "t"
  targetColumns := [ascii "a"]
  writeMode := []
  conflictColumns := []
  updateColumns := []

/-- A single letter is an identifier by any tables. -/
theorem parseIdentifier_letter (unicode : UnicodeTables) {ch : UInt8} (hch : ch < 128)
    (hletter : SqlLexing.isLetter ch = true) : parseIdentifier unicode [ch] = .ok [[ch]] := by
  have hperiod : period ∉ [ch] := by
    rw [List.mem_singleton]
    rintro rfl
    cases hletter
  have hvalid : validIdentifierPart unicode [ch] = true := by
    simp [validIdentifierPart, runes, decodeRune, show ch < 0x80 from hch,
      unicode.letter_ascii ch hch, hletter]
  simp [parseIdentifier, List.splitOn_eq_singleton hperiod, hvalid]

/-- Only a semicolon at the very end is cut off; one between two queries is accepted,
whatever the tables say about other scripts. -/
theorem not_forall_singleStatement :
    ¬∃ unicode : UnicodeTables,
      ∀ spec text, buildInsertSQL unicode spec = .ok text → SingleStatement text := by
  rintro ⟨unicode, hall⟩
  have htable : parseIdentifier unicode (ascii "t") = .ok [ascii "t"] :=
    parseIdentifier_letter unicode (by decide) (by decide)
  have hcolumn : parseIdentifier unicode (ascii "a") = .ok [ascii "a"] :=
    parseIdentifier_letter unicode (by decide) (by decide)
  have hmode : parseWriteMode [] = .ok .append := by decide +kernel
  have hquery : normalizeExtractSQL (ascii "SELECT 1; SELECT 2") =
      .ok (ascii "SELECT 1; SELECT 2") := by
    decide +kernel
  have hbuilt : buildInsertSQL unicode twoQueries =
      .ok (insertHead [ascii "t"] [sanitize [ascii "a"]] ++ ascii "SELECT 1; SELECT 2") := by
    simp [buildInsertSQL, twoQueries, hmode, refuse, htable, sanitizeTargetColumns, hcolumn,
      sanitizeUnqualifiedIdentifiers, hquery, bind, Except.bind, Except.mapError, pure,
      Except.pure]
  have hsingle := hall _ _ hbuilt
  revert hsingle
  decide +kernel

end Conduit.Etl
