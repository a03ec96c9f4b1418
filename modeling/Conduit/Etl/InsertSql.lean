import Conduit.Etl.ExtractSql

/-!
# The statement of the ETL executor

`BuildInsertSQL` checks the identifiers of a pipeline, quotes them and writes an `INSERT`
around the query that `normalizeExtractSQL` accepts.  The identifiers are checked rune by
rune, so the decoding of Go's `range` over a string is part of the model; what counts as a
letter or a digit outside ASCII is left to the tables of package `unicode`.
-/

namespace Conduit.Etl

open SqlLexing

/-! ## Runes -/

/-- What `range` yields for bytes that are no UTF-8. -/
def runeError : ℕ := 0xFFFD

/-- The tables of package `unicode`, as far as the checks depend on them. -/
structure UnicodeTables where
  isLetter : ℕ → Bool
  isDigit : ℕ → Bool
  letter_ascii : ∀ ch : UInt8, ch < 128 → isLetter ch.toNat = SqlLexing.isLetter ch
  digit_ascii : ∀ ch : UInt8, ch < 128 → isDigit ch.toNat = SqlLexing.isDigit ch
  letter_runeError : isLetter runeError = false
  digit_runeError : isDigit runeError = false

def between (low high ch : UInt8) : Bool :=
  low ≤ ch ∧ ch ≤ high

def continuation (ch : UInt8) : Bool :=
  between 0x80 0xBF ch

/-- The second bytes that a first byte of three admits: no overlong form, no surrogate. -/
def secondOfThree (first second : UInt8) : Bool :=
  if first = 0xE0 then between 0xA0 0xBF second
  else if first = 0xED then between 0x80 0x9F second
  else continuation second

/-- The second bytes that a first byte of four admits: no overlong form, nothing beyond the
last code point. -/
def secondOfFour (first second : UInt8) : Bool :=
  if first = 0xF0 then between 0x90 0xBF second
  else if first = 0xF4 then between 0x80 0x8F second
  else continuation second

/-- The low bits of the bytes of a rune, put together. -/
def runeOf (first : ℕ) (others : Text) : ℕ :=
  others.foldl (fun rune ch => rune * 64 + ch.toNat % 64) first

/-- `utf8.DecodeRuneInString`: the rune and the bytes after it. -/
def decodeRune (first : UInt8) (rest : Text) : ℕ × Text :=
  if first < 0x80 then (first.toNat, rest)
  else
    match rest with
    | [] => (runeError, rest)
    | second :: rest₂ =>
        if between 0xC2 0xDF first && continuation second then
          (runeOf (first.toNat % 32) [second], rest₂)
        else
          match rest₂ with
          | [] => (runeError, rest)
          | third :: rest₃ =>
              if between 0xE0 0xEF first && secondOfThree first second && continuation third then
                (runeOf (first.toNat % 16) [second, third], rest₃)
              else
                match rest₃ with
                | [] => (runeError, rest)
                | fourth :: rest₄ =>
                    if between 0xF0 0xF4 first && secondOfFour first second &&
                        continuation third && continuation fourth then
                      (runeOf (first.toNat % 8) [second, third, fourth], rest₄)
                    else (runeError, rest)

/-- The runes of a string, at most `rounds` of them. -/
def runes : ℕ → Text → List ℕ
  | 0, _ => []
  | _, [] => []
  | rounds + 1, first :: rest =>
      (decodeRune first rest).1 :: runes rounds (decodeRune first rest).2

/-! ## Identifiers -/

def validIdentifierPart (unicode : UnicodeTables) (value : Text) : Bool :=
  match runes value.length value with
  | [] => false
  | first :: others =>
      (first == underscore.toNat || unicode.isLetter first) &&
        others.all fun rune =>
          rune == underscore.toNat || unicode.isLetter rune || unicode.isDigit rune

inductive IdentifierError
  | parts
  | invalid
  deriving DecidableEq

def IdentifierError.message : IdentifierError → Text
  | .parts => ascii "must have one to three parts"
  | .invalid => ascii "invalid identifier"

def period : UInt8 := 46

def parseIdentifier (unicode : UnicodeTables) (value : Text) :
    Except IdentifierError (List Text) :=
  let parts := value.splitOn period
  if parts.length = 0 ∨ 3 < parts.length then .error .parts
  else if parts.all (validIdentifierPart unicode) then .ok parts
  else .error .invalid

/-- A part of `pgx.Identifier.Sanitize`: zero bytes dropped, quotes doubled. -/
def sanitizePart (part : Text) : Text :=
  doubleQuote ::
    (((part.filter (· ≠ 0)).flatMap fun ch =>
      if ch = doubleQuote then [doubleQuote, doubleQuote] else [ch]) ++ [doubleQuote])

def sanitize (identifier : List Text) : Text :=
  [period].intercalate (identifier.map sanitizePart)

inductive ColumnError
  | identifier (column : Text) (error : IdentifierError)
  | qualified (column : Text)
  deriving DecidableEq

/-- The text of an error; `quote` is the `%q` verb of `fmt`. -/
def ColumnError.message (quote : Text → Text) : ColumnError → Text
  | .identifier column error => quote column ++ ascii ": " ++ error.message
  | .qualified column => quote column ++ ascii ": column must be unqualified"

def sanitizeUnqualifiedIdentifiers (unicode : UnicodeTables) (columns : List Text) :
    Except ColumnError (List Text) :=
  columns.mapM fun column =>
    match parseIdentifier unicode column with
    | .error error => .error (.identifier column error)
    | .ok identifier =>
        if identifier.length ≠ 1 then .error (.qualified column)
        else .ok (sanitize identifier)

def nonConflictColumns (targetColumns conflictColumns : List Text) : List Text :=
  targetColumns.filter (!conflictColumns.contains ·)

/-! ## The statement -/

structure PipelineSpec where
  extractSQL : Text
  targetTable : Text
  targetColumns : List Text
  writeMode : Text
  conflictColumns : List Text
  updateColumns : List Text

inductive InsertError
  | writeMode
  | conflictRequired
  | targetTable (error : IdentifierError)
  | targetColumn (column : Text) (error : IdentifierError)
  | qualifiedTarget
  | conflictColumns (error : ColumnError)
  | updateColumns (error : ColumnError)
  | noUpdateColumn
  | extractSQL (error : ExtractError)
  deriving DecidableEq

def InsertError.message (quote : Text → Text) : InsertError → Text
  | .writeMode => ascii "write_mode must be append or upsert"
  | .conflictRequired => ascii "conflict_columns is required for upsert"
  | .targetTable error => ascii "target_table: " ++ error.message
  | .targetColumn column error =>
      ascii "target_columns: " ++ quote column ++ ascii ": " ++ error.message
  | .qualifiedTarget => ascii "target column must be unqualified"
  | .conflictColumns error => ascii "conflict_columns: " ++ error.message quote
  | .updateColumns error => ascii "update_columns: " ++ error.message quote
  | .noUpdateColumn => ascii "upsert requires at least one update column"
  | .extractSQL error => ascii "extract_sql: " ++ error.message

inductive WriteMode
  | append
  | upsert
  deriving DecidableEq

def parseWriteMode (writeMode : Text) : Except InsertError WriteMode :=
  let writeMode := trimSpace (toLower writeMode)
  if writeMode = [] ∨ writeMode = ascii "append" then .ok .append
  else if writeMode = ascii "upsert" then .ok .upsert
  else .error .writeMode

/-- The loop over the target columns, which has error texts of its own. -/
def sanitizeTargetColumns (unicode : UnicodeTables) (columns : List Text) :
    Except InsertError (List Text) :=
  columns.mapM fun column =>
    match parseIdentifier unicode column with
    | .error error => .error (.targetColumn column error)
    | .ok identifier =>
        if identifier.length ≠ 1 then .error .qualifiedTarget else .ok (sanitize identifier)

def joinComma (columns : List Text) : Text :=
  (ascii ", ").intercalate columns

def insertHead (targetTable : List Text) (targetColumns : List Text) : Text :=
  ascii "INSERT INTO " ++ sanitize targetTable ++ ascii " (" ++ joinComma targetColumns ++
    ascii ")\n"

def assignment (column : Text) : Text :=
  column ++ ascii " = EXCLUDED." ++ column

def upsertTail (conflictColumns updateColumns : List Text) : Text :=
  ascii "\nON CONFLICT (" ++ joinComma conflictColumns ++ ascii ") DO UPDATE SET " ++
    joinComma (updateColumns.map assignment)

/-- `if condition { return "", error }`. -/
def refuse (condition : Prop) [Decidable condition] (error : InsertError) :
    Except InsertError Unit :=
  if condition then .error error else .ok ()

def buildInsertSQL (unicode : UnicodeTables) (spec : PipelineSpec) : Except InsertError Text := do
  let writeMode ← parseWriteMode spec.writeMode
  refuse (writeMode = .upsert ∧ spec.conflictColumns.length = 0) .conflictRequired
  let targetTable ← (parseIdentifier unicode spec.targetTable).mapError .targetTable
  let targetColumns ← sanitizeTargetColumns unicode spec.targetColumns
  let conflictColumns ←
    (sanitizeUnqualifiedIdentifiers unicode spec.conflictColumns).mapError .conflictColumns
  let updateColumns :=
    if writeMode = .upsert ∧ spec.updateColumns.length = 0 then
      nonConflictColumns spec.targetColumns spec.conflictColumns
    else spec.updateColumns
  let sanitizedUpdateColumns ←
    (sanitizeUnqualifiedIdentifiers unicode updateColumns).mapError .updateColumns
  refuse (writeMode = .upsert ∧ sanitizedUpdateColumns.length = 0) .noUpdateColumn
  let extractSQL ← (normalizeExtractSQL spec.extractSQL).mapError .extractSQL
  let statement := insertHead targetTable targetColumns ++ extractSQL
  match writeMode with
  | .append => return statement
  | .upsert => return statement ++ upsertTail conflictColumns sanitizedUpdateColumns

end Conduit.Etl
