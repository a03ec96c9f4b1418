import Conduit.Core.Quoting
import Conduit.Etl.SingleStatement

/-!
# The identifiers of the built text

The identifiers of a pipeline are its caller's, and `BuildInsertSQL` writes them into the text
in quotes.  Here the text is read back: from the text and the query inside it one recovers the
table and the columns of the pipeline, part by part.  Nothing a caller puts into an identifier
can therefore end up anywhere else in the statement.
-/

namespace Conduit.Etl

open SqlLexing

/-! ## What the text says -/

/-- What the text says around its query: where to, and what to do about conflicts. -/
structure InsertStatement where
  table : List Text
  targetColumns : List Text
  onConflict : Option (List Text × List Text)
  deriving DecidableEq

/-- Every identifier part of the statement. -/
def InsertStatement.parts (statement : InsertStatement) : List Text :=
  statement.table ++ statement.targetColumns ++
    match statement.onConflict with
    | none => []
    | some (conflictColumns, updateColumns) => conflictColumns ++ updateColumns

def quoted (part : Text) : Text :=
  Quoting.quote doubleQuote part

def quotedAssignment (column : Text) : Text :=
  quoted column ++ ascii " = EXCLUDED." ++ quoted column

def InsertStatement.render (statement : InsertStatement) (query : Text) : Text :=
  ascii "INSERT INTO " ++ [period].intercalate (statement.table.map quoted) ++ ascii " (" ++
    (ascii ", ").intercalate (statement.targetColumns.map quoted) ++ ascii ")\n" ++ query ++
    match statement.onConflict with
    | none => []
    | some (conflictColumns, updateColumns) =>
        ascii "\nON CONFLICT (" ++ (ascii ", ").intercalate (conflictColumns.map quoted) ++
          ascii ") DO UPDATE SET " ++
          (ascii ", ").intercalate (updateColumns.map quotedAssignment)

/-! ## Reading it back -/

/-- An assignment has the same column on both sides. -/
def readAssignment : Quoting.Reader UInt8 Text := fun input => do
  let (column, rest) ← Quoting.unquote doubleQuote input
  let rest ← rest.dropPrefix? (ascii " = EXCLUDED.")
  let (excluded, rest) ← Quoting.unquote doubleQuote rest
  if excluded = column then return (column, rest) else none

def readColumns : Quoting.Reader UInt8 (List Text) :=
  Quoting.readSeparated (Quoting.unquote doubleQuote) (ascii ", ")

def readOnConflict (input : Text) : Option (List Text × List Text) := do
  let rest ← input.dropPrefix? (ascii "\nON CONFLICT (")
  let (conflictColumns, rest) ← readColumns rest
  let rest ← rest.dropPrefix? (ascii ") DO UPDATE SET ")
  let (updateColumns, rest) ← Quoting.readSeparated readAssignment (ascii ", ") rest
  if rest = [] then return (conflictColumns, updateColumns) else none

/-- The statement of a text, the query in it being known. -/
def readInsert (query input : Text) : Option InsertStatement := do
  let rest ← input.dropPrefix? (ascii "INSERT INTO ")
  let (table, rest) ← Quoting.readSeparated (Quoting.unquote doubleQuote) [period] rest
  let rest ← rest.dropPrefix? (ascii " (")
  let (targetColumns, rest) ← readColumns rest
  let rest ← rest.dropPrefix? (ascii ")\n")
  let rest ← rest.dropPrefix? query
  if rest = [] then return ⟨table, targetColumns, none⟩
  else return ⟨table, targetColumns, some (← readOnConflict rest)⟩

theorem recovers_quoted (part : Text) :
    Quoting.Recovers (Quoting.unquote doubleQuote) (Quoting.Unmarked doubleQuote) quoted part :=
  Quoting.recovers_quote doubleQuote part

theorem recovers_quotedAssignment (column : Text) :
    Quoting.Recovers readAssignment (Quoting.Unmarked doubleQuote) quotedAssignment column := by
  intro rest hrest
  have hexcluded : Quoting.Unmarked doubleQuote
      (ascii " = EXCLUDED." ++ (quoted column ++ rest)) :=
    Quoting.unmarked_append (by decide) (by decide +kernel) _
  rw [quotedAssignment, List.append_assoc, List.append_assoc, readAssignment,
    recovers_quoted column _ hexcluded]
  simp only [Option.bind_eq_bind, Option.bind_some, Quoting.dropPrefix_append,
    recovers_quoted column rest hrest, if_pos]
  rfl

theorem readColumns_join (columns : List Text) {closing : UInt8} (rest : Text)
    (hquote : closing ≠ doubleQuote) (hcomma : closing ≠ 44) :
    readColumns ((ascii ", ").intercalate (columns.map quoted) ++ closing :: rest) =
      some (columns, closing :: rest) := by
  have hrest : Quoting.Unmarked doubleQuote (closing :: rest) := fun heq =>
    hquote (Option.some.inj heq)
  have hstop : (closing :: rest).dropPrefix? (ascii ", ") = none := by
    simp [ascii, List.dropPrefix?, hcomma]
  exact Quoting.readSeparated_quote (by decide) (by decide +kernel) hrest hstop columns

theorem readAssignments_join (columns : List Text) :
    Quoting.readSeparated readAssignment (ascii ", ")
        ((ascii ", ").intercalate (columns.map quotedAssignment)) =
      some (columns, []) := by
  rw [← List.append_nil ((ascii ", ").intercalate _)]
  have hcomma : ∀ more, Quoting.Unmarked doubleQuote (ascii ", " ++ more) :=
    Quoting.unmarked_append (by decide) (by decide +kernel)
  exact Quoting.readSeparated_intercalate (by decide) hcomma (by decide) (by decide +kernel)
    (by decide +kernel) fun column _ => recovers_quotedAssignment column

theorem readOnConflict_render (conflictColumns updateColumns : List Text) :
    readOnConflict
        (ascii "\nON CONFLICT (" ++ (ascii ", ").intercalate (conflictColumns.map quoted) ++
          ascii ") DO UPDATE SET " ++
          (ascii ", ").intercalate (updateColumns.map quotedAssignment)) =
      some (conflictColumns, updateColumns) := by
  have hclose : ascii ") DO UPDATE SET " = 41 :: ascii " DO UPDATE SET " := by decide
  have hcolumns : ∀ rest, readColumns
      ((ascii ", ").intercalate (conflictColumns.map quoted) ++
        (ascii ") DO UPDATE SET " ++ rest)) =
      some (conflictColumns, ascii ") DO UPDATE SET " ++ rest) := by
    intro rest
    rw [hclose]
    exact readColumns_join conflictColumns _ (by decide) (by decide)
  simp only [List.append_assoc, readOnConflict, Quoting.dropPrefix_append,
    Option.bind_eq_bind, Option.bind_some, hcolumns, readAssignments_join]
  rfl

/-- Any statement is recovered from its text, whatever its identifiers and the query are. -/
theorem readInsert_render (statement : InsertStatement) (query : Text) :
    readInsert query (statement.render query) = some statement := by
  have hopen : ascii " (" = 32 :: ascii "(" := by decide
  have hclose : ascii ")\n" = 41 :: ascii "\n" := by decide
  have htable : ∀ rest, Quoting.readSeparated (Quoting.unquote doubleQuote) [period]
      ([period].intercalate (statement.table.map quoted) ++ (ascii " (" ++ rest)) =
      some (statement.table, ascii " (" ++ rest) := by
    intro rest
    have hunmarked : Quoting.Unmarked doubleQuote (ascii " (" ++ rest) :=
      Quoting.unmarked_append (by decide) (by decide +kernel) rest
    have hstop : (ascii " (" ++ rest).dropPrefix? [period] = none := by
      rw [hopen]
      rfl
    exact Quoting.readSeparated_quote (by decide) (by decide) hunmarked hstop _
  have hcolumns : ∀ rest, readColumns
      ((ascii ", ").intercalate (statement.targetColumns.map quoted) ++ (ascii ")\n" ++ rest)) =
      some (statement.targetColumns, ascii ")\n" ++ rest) := by
    intro rest
    rw [hclose]
    exact readColumns_join _ _ (by decide) (by decide)
  obtain ⟨table, targetColumns, onConflict⟩ := statement
  simp only [InsertStatement.render, List.append_assoc, readInsert, Quoting.dropPrefix_append,
    Option.bind_eq_bind, Option.bind_some, htable, hcolumns]
  cases onConflict with
  | none => rfl
  | some columns =>
      obtain ⟨conflictColumns, updateColumns⟩ := columns
      have hread := readOnConflict_render conflictColumns updateColumns
      simp only [List.append_assoc] at hread
      simp only [hread, Option.bind_some]
      rfl

/-! ## The identifiers of a pipeline -/

/-- The tables of package `unicode`, in which no digit is a letter. -/
structure CategoryTables extends UnicodeTables where
  digit_of_letter : ∀ rune, isLetter rune = true → isDigit rune = false

/-- An identifier part of letters, digits and underscores, with no digit in front. -/
structure IdentifierPart (unicode : CategoryTables) (part : Text) : Prop where
  nonempty : part ≠ []
  runes : ∀ rune ∈ runes part.length part,
    rune = underscore.toNat ∨ unicode.isLetter rune = true ∨ unicode.isDigit rune = true
  first : ∀ rune, (Etl.runes part.length part).head? = some rune → unicode.isDigit rune = false

theorem identifierPart_of_valid {unicode : CategoryTables} {part : Text}
    (hvalid : validIdentifierPart unicode.toUnicodeTables part = true) :
    IdentifierPart unicode part := by
  have hunderscore : unicode.isDigit underscore.toNat = false :=
    unicode.digit_ascii underscore (by decide)
  unfold validIdentifierPart at hvalid
  split at hvalid
  · cases hvalid
  · rename_i first others hrunes
    simp only [Bool.and_eq_true, Bool.or_eq_true, beq_iff_eq, List.all_eq_true] at hvalid
    obtain ⟨hfirst, hothers⟩ := hvalid
    constructor
    · rintro rfl
      cases hrunes
    · rw [hrunes]
      intro rune hrune
      rcases List.mem_cons.mp hrune with rfl | hother
      · exact hfirst.imp_right Or.inl
      · exact or_assoc.mp (hothers rune hother)
    · rw [hrunes]
      intro rune hrune
      cases hrune
      rcases hfirst with rfl | hletter
      · exact hunderscore
      · exact unicode.digit_of_letter _ hletter

/-- The columns an upsert assigns: the explicit ones, or else the target columns that are no
conflict columns. -/
def PipelineSpec.assignedColumns (spec : PipelineSpec) : List Text :=
  if spec.updateColumns.length = 0 then
    nonConflictColumns spec.targetColumns spec.conflictColumns
  else spec.updateColumns

/-- What the text of a pipeline should say. -/
def PipelineSpec.statement (spec : PipelineSpec) (writeMode : WriteMode) : InsertStatement where
  table := spec.targetTable.splitOn period
  targetColumns := spec.targetColumns
  onConflict :=
    match writeMode with
    | .append => none
    | .upsert => some (spec.conflictColumns, spec.assignedColumns)

section Columns

variable {unicode : UnicodeTables}

theorem sanitizePart_of_valid {part : Text} (hvalid : validIdentifierPart unicode part = true) :
    sanitizePart part = quoted part := by
  change quoted (part.filter (· ≠ 0)) = quoted part
  rw [filter_ne_zero (tagCont_of_validIdentifierPart hvalid)]

theorem sanitize_eq {identifier : List Text}
    (hvalid : ∀ part ∈ identifier, validIdentifierPart unicode part = true) :
    sanitize identifier = [period].intercalate (identifier.map quoted) := by
  rw [sanitize, List.map_congr_left fun part hpart => sanitizePart_of_valid (hvalid part hpart)]

/-- A column accepted by one of the loops is a single part. -/
theorem column_of_parseIdentifier {column : Text} {identifier : List Text}
    (hparsed : parseIdentifier unicode column = .ok identifier)
    (hsingle : identifier.length = 1) :
    validIdentifierPart unicode column = true ∧ sanitize identifier = quoted column := by
  obtain ⟨hidentifier, hvalid⟩ := parseIdentifier_eq_ok hparsed
  obtain ⟨part, rfl⟩ := List.length_eq_one_iff.mp hsingle
  have hpart : part = column := by
    have hjoined : [period].intercalate (column.splitOn period) = column :=
      List.intercalate_splitOn period
    rwa [← hidentifier, List.intercalate_singleton] at hjoined
  rw [hpart] at hvalid ⊢
  refine ⟨hvalid column List.mem_cons_self, ?_⟩
  rw [sanitize_eq hvalid]
  exact List.intercalate_singleton

/-- The columns that a loop over raw columns accepts, and what it makes of them. -/
theorem quoted_of_mapM {Error : Type} {failed : Text → IdentifierError → Error}
    {qualified : Text → Error} {columns sanitized : List Text}
    (hread : (columns.mapM fun column =>
      match parseIdentifier unicode column with
      | .error error => Except.error (failed column error)
      | .ok identifier =>
          if identifier.length ≠ 1 then Except.error (qualified column)
          else Except.ok (sanitize identifier)) = .ok sanitized) :
    sanitized = columns.map quoted ∧
      ∀ column ∈ columns, validIdentifierPart unicode column = true := by
  have hcolumns := forall₂_of_mapM hread
  clear hread
  induction hcolumns with
  | nil => exact ⟨rfl, by simp⟩
  | @cons raw column columns sanitized hraw _ ih =>
      obtain ⟨hsanitized, hvalid⟩ := ih
      obtain ⟨identifier, hidentifier, hsingle, rfl⟩ := column_of_loop hraw
      obtain ⟨hcolumn, hquoted⟩ := column_of_parseIdentifier hidentifier hsingle
      rw [hquoted, hsanitized]
      exact ⟨rfl, List.forall_mem_cons.mpr ⟨hcolumn, hvalid⟩⟩

theorem quoted_of_sanitizeTargetColumns {columns sanitized : List Text}
    (hread : sanitizeTargetColumns unicode columns = .ok sanitized) :
    sanitized = columns.map quoted ∧
      ∀ column ∈ columns, validIdentifierPart unicode column = true :=
  quoted_of_mapM hread

theorem quoted_of_sanitizeUnqualifiedIdentifiers {columns sanitized : List Text}
    (hread : sanitizeUnqualifiedIdentifiers unicode columns = .ok sanitized) :
    sanitized = columns.map quoted ∧
      ∀ column ∈ columns, validIdentifierPart unicode column = true :=
  quoted_of_mapM hread

end Columns

/-! ## The built text -/

theorem insertHead_eq {unicode : UnicodeTables} {table : List Text}
    (hvalid : ∀ part ∈ table, validIdentifierPart unicode part = true) (columns : List Text) :
    insertHead table (columns.map quoted) =
      ascii "INSERT INTO " ++ [period].intercalate (table.map quoted) ++ ascii " (" ++
        (ascii ", ").intercalate (columns.map quoted) ++ ascii ")\n" := by
  rw [insertHead, sanitize_eq hvalid, joinComma]

theorem upsertTail_eq (conflictColumns updateColumns : List Text) :
    upsertTail (conflictColumns.map quoted) (updateColumns.map quoted) =
      ascii "\nON CONFLICT (" ++ (ascii ", ").intercalate (conflictColumns.map quoted) ++
        ascii ") DO UPDATE SET " ++
        (ascii ", ").intercalate (updateColumns.map quotedAssignment) := by
  rw [upsertTail, joinComma, joinComma, List.map_map]
  rfl

/-- An accepted pipeline is written out as the statement it stands for, and all its
identifier parts have passed the check. -/
theorem render_of_built {unicode : UnicodeTables} {spec : PipelineSpec} {text : Text}
    (hbuilt : buildInsertSQL unicode spec = .ok text) :
    ∃ writeMode extract, parseWriteMode spec.writeMode = .ok writeMode ∧
      normalizeExtractSQL spec.extractSQL = .ok extract ∧
      text = (spec.statement writeMode).render extract ∧
      ∀ part ∈ (spec.statement writeMode).parts, validIdentifierPart unicode part = true := by
  simp only [buildInsertSQL, bind_eq_ok, mapError_eq_ok] at hbuilt
  obtain ⟨writeMode, hmode, -, -, table, htable, columns, hcolumns, conflictColumns, hconflict,
    updateColumns, hupdate, -, -, extract, hextract, htext⟩ := hbuilt
  obtain ⟨rfl, hvalidTable⟩ := parseIdentifier_eq_ok htable
  obtain ⟨rfl, hvalidColumns⟩ := quoted_of_sanitizeTargetColumns hcolumns
  obtain ⟨rfl, hvalidConflict⟩ := quoted_of_sanitizeUnqualifiedIdentifiers hconflict
  obtain ⟨rfl, hvalidUpdate⟩ := quoted_of_sanitizeUnqualifiedIdentifiers hupdate
  refine ⟨writeMode, extract, hmode, hextract, ?_, ?_⟩
  · cases writeMode with
    | append =>
        rw [insertHead_eq hvalidTable] at htext
        rw [InsertStatement.render, ← Except.ok.inj htext]
        exact (List.append_nil _).symm
    | upsert =>
        rw [insertHead_eq hvalidTable, upsertTail_eq] at htext
        rw [InsertStatement.render, ← Except.ok.inj htext]
        simp [PipelineSpec.statement, PipelineSpec.assignedColumns]
  · intro part hpart
    rw [InsertStatement.parts, List.mem_append, List.mem_append] at hpart
    rcases hpart with (hpart | hpart) | hpart
    · exact hvalidTable part hpart
    · exact hvalidColumns part hpart
    · cases writeMode with
      | append => cases hpart
      | upsert =>
          rcases List.mem_append.mp hpart with hpart | hpart
          · exact hvalidConflict part hpart
          · refine hvalidUpdate part ?_
            simpa [PipelineSpec.assignedColumns] using hpart

/-- A pipeline is determined by what its text says. -/
theorem eq_of_statement_eq {spec other : PipelineSpec} {writeMode : WriteMode}
    (hstatement : other.statement writeMode = spec.statement writeMode) :
    other.targetTable = spec.targetTable ∧ other.targetColumns = spec.targetColumns ∧
      (writeMode = .upsert → other.conflictColumns = spec.conflictColumns ∧
        other.assignedColumns = spec.assignedColumns) := by
  obtain ⟨htable, hcolumns, honConflict⟩ := InsertStatement.mk.injEq .. ▸ hstatement
  refine ⟨?_, hcolumns, ?_⟩
  · calc
      other.targetTable = [period].intercalate (other.targetTable.splitOn period) :=
        (List.intercalate_splitOn period).symm
      _ = [period].intercalate (spec.targetTable.splitOn period) := by rw [htable]
      _ = spec.targetTable := List.intercalate_splitOn period
  · rintro rfl
    exact Prod.mk.inj (Option.some.inj honConflict)

/-- The text of an accepted pipeline is its statement written around the normalised query;
reading it back gives the table split on dots, the target columns and, for an upsert, the
conflict columns and the assigned columns, all of them made of identifier parts.  Two
accepted pipelines with the same query and mode therefore differ in their text if they
differ in their table or in the columns that the mode uses. -/
theorem identifiers_recovered {unicode : CategoryTables} {spec : PipelineSpec} {text : Text}
    (hbuilt : buildInsertSQL unicode.toUnicodeTables spec = .ok text) :
    ∃ writeMode extract, parseWriteMode spec.writeMode = .ok writeMode ∧
      normalizeExtractSQL spec.extractSQL = .ok extract ∧
      text = (spec.statement writeMode).render extract ∧
      readInsert extract text = some (spec.statement writeMode) ∧
      (∀ part ∈ (spec.statement writeMode).parts, IdentifierPart unicode part) ∧
      ∀ other : PipelineSpec, other.extractSQL = spec.extractSQL →
        other.writeMode = spec.writeMode →
        buildInsertSQL unicode.toUnicodeTables other = .ok text →
        other.targetTable = spec.targetTable ∧ other.targetColumns = spec.targetColumns ∧
          (writeMode = .upsert → other.conflictColumns = spec.conflictColumns ∧
            other.assignedColumns = spec.assignedColumns) := by
  obtain ⟨writeMode, extract, hmode, hextract, htext, hvalid⟩ := render_of_built hbuilt
  have hread : readInsert extract text = some (spec.statement writeMode) := by
    rw [htext]
    exact readInsert_render _ _
  refine ⟨writeMode, extract, hmode, hextract, htext, hread,
    fun part hpart => identifierPart_of_valid (hvalid part hpart), ?_⟩
  intro other hquery hsame hother
  obtain ⟨otherMode, otherExtract, hmode', hextract', htext', -⟩ := render_of_built hother
  have hmodes : otherMode = writeMode := by
    rw [hsame, hmode] at hmode'
    exact (Except.ok.inj hmode').symm
  have hqueries : otherExtract = extract := by
    rw [hquery, hextract] at hextract'
    exact (Except.ok.inj hextract').symm
  rw [hmodes, hqueries] at htext'
  apply eq_of_statement_eq
  have hagain := readInsert_render (other.statement writeMode) extract
  rw [← htext', hread] at hagain
  exact (Option.some.inj hagain).symm

theorem isDigit_of_isLetter {ch : UInt8} (hletter : SqlLexing.isLetter ch = true) :
    SqlLexing.isDigit ch = false := by
  simp only [SqlLexing.isLetter, SqlLexing.isDigit, decide_eq_true_eq, decide_eq_false_iff_not,
    UInt8.le_iff_toNat_le, UInt8.reduceToNat] at hletter ⊢
  omega

/-- Letters and digits of ASCII only. -/
def asciiCategories : CategoryTables where
  toUnicodeTables := asciiTables
  digit_of_letter rune hletter := by
    simp only [asciiTables, Bool.and_eq_true] at hletter ⊢
    rw [isDigit_of_isLetter hletter.2, Bool.and_false]

/-- The upsert is read back with its table in two parts and the column it assigns by
default. -/
theorem identifiers_recovered_noteSpec :
    ∃ extract text, buildInsertSQL asciiCategories.toUnicodeTables noteSpec = .ok text ∧
      readInsert extract text = some
        ⟨[ascii "reports", ascii "totals"], [ascii "id", ascii "total"],
          some ([ascii "id"], [ascii "total"])⟩ := by
  have hbuilt : (buildInsertSQL asciiTables noteSpec).toOption.isSome = true := by
    decide +kernel
  cases htext : buildInsertSQL asciiTables noteSpec with
  | error error =>
      rw [htext] at hbuilt
      cases hbuilt
  | ok text =>
      have hrecovered := @identifiers_recovered asciiCategories noteSpec text htext
      obtain ⟨writeMode, extract, hmode, -, -, hread, -⟩ := hrecovered
      have hupsert : writeMode = .upsert := by
        have hnote : parseWriteMode noteSpec.writeMode = .ok .upsert := by decide +kernel
        rw [hnote] at hmode
        exact (Except.ok.inj hmode).symm
      refine ⟨extract, text, htext, ?_⟩
      rw [hread, hupsert]
      decide +kernel

end Conduit.Etl
