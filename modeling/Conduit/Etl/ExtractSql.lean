import Conduit.Core.SqlLexing

/-!
# The statement filter of the ETL executor

`normalizeExtractSQL` trims the query of a pipeline, splits it into words with a
byte scanner of its own and refuses it when one of the words can write.  A Go
string is the list of its bytes here.
-/

namespace Conduit.Etl

open SqlLexing

abbrev Text := List UInt8

/-- The bytes of an ASCII string. -/
def ascii (text : String) : Text :=
  text.toList.map fun ch => UInt8.ofNat ch.toNat

/-! ## Package strings -/

/-- The encodings of the runes `unicode.IsSpace` accepts. -/
def spaces : List Text :=
  [[9], [10], [11], [12], [13], [32], [0xC2, 0x85], [0xC2, 0xA0], [0xE1, 0x9A, 0x80],
    [0xE2, 0x80, 0x80], [0xE2, 0x80, 0x81], [0xE2, 0x80, 0x82], [0xE2, 0x80, 0x83],
    [0xE2, 0x80, 0x84], [0xE2, 0x80, 0x85], [0xE2, 0x80, 0x86], [0xE2, 0x80, 0x87],
    [0xE2, 0x80, 0x88], [0xE2, 0x80, 0x89], [0xE2, 0x80, 0x8A], [0xE2, 0x80, 0xA8],
    [0xE2, 0x80, 0xA9], [0xE2, 0x80, 0xAF], [0xE2, 0x81, 0x9F], [0xE3, 0x80, 0x80]]

/-- Drop leading patterns, at most `rounds` of them. -/
def trimPatterns (patterns : List Text) : ℕ → Text → Text
  | 0, text => text
  | rounds + 1, text =>
      match patterns.find? (·.isPrefixOf text) with
      | none => text
      | some pattern => trimPatterns patterns rounds (text.drop pattern.length)

def trimLeft (patterns : List Text) (text : Text) : Text :=
  trimPatterns patterns text.length text

/-- `strings.TrimSpace`.  A trailing space rune is recognised by its encoding, read
backwards. -/
def trimSpace (text : Text) : Text :=
  (trimLeft (spaces.map List.reverse) (trimLeft spaces text).reverse).reverse

def trimSuffix (suffix text : Text) : Text :=
  if suffix.isSuffixOf text then text.take (text.length - suffix.length) else text

def lowerByte (ch : UInt8) : UInt8 :=
  if 65 ≤ ch ∧ ch ≤ 90 then ch + 32 else ch

/-- `strings.ToLower`, as far as a comparison with ASCII text can tell.  Two runes
outside ASCII have an ASCII lower case: the dotted capital I and the Kelvin sign. -/
def toLower : Text → Text
  | 0xC4 :: 0xB0 :: text => 105 :: toLower text
  | 0xE2 :: 0x84 :: 0xAA :: text => 107 :: toLower text
  | ch :: text => lowerByte ch :: toLower text
  | [] => []

/-! ## The scanner -/

/-- `unicode.IsLetter(rune(ch))`: the byte is taken for a Latin-1 character. -/
def isLetterByte (ch : UInt8) : Bool :=
  isLetter ch ∨ ch = 0xAA ∨ ch = 0xB5 ∨ ch = 0xBA ∨ (0xC0 ≤ ch ∧ ch ≠ 0xD7 ∧ ch ≠ 0xF7)

/-- The bytes `sqlTokens` builds its tokens of. -/
def isTokenByte (ch : UInt8) : Bool :=
  isLetterByte ch ∨ isDigit ch ∨ ch = underscore

/-- The four flags of `sqlTokens`, of which at most one is ever set. -/
inductive ScanMode
  | outside
  | lineComment
  | blockComment
  | singleQuote
  | doubleQuote
  deriving DecidableEq

/-- The variables of `sqlTokens`; `skip` is set where the loop adds one to its
index. -/
structure Scan where
  mode : ScanMode
  skip : Bool
  builder : Text
  tokens : List Text

def Scan.init : Scan := ⟨.outside, false, [], []⟩

def Scan.flush (scan : Scan) : Scan :=
  if scan.builder = [] then scan
  else { scan with tokens := scan.tokens ++ [toLower scan.builder], builder := [] }

/-- The body of the loop; `next` is the following byte, or zero at the end. -/
def Scan.step (scan : Scan) (ch next : UInt8) : Scan :=
  if scan.skip then { scan with skip := false }
  else match scan.mode with
    | .lineComment => if ch = newline then { scan with mode := .outside } else scan
    | .blockComment =>
        if ch = asterisk ∧ next = slash then { scan with mode := .outside, skip := true }
        else scan
    | .singleQuote =>
        if ch = singleQuote then
          if next = singleQuote then { scan with skip := true }
          else { scan with mode := .outside }
        else scan
    | .doubleQuote =>
        if ch = doubleQuote then
          if next = doubleQuote then { scan with skip := true }
          else { scan with mode := .outside }
        else scan
    | .outside =>
        if ch = hyphen ∧ next = hyphen then
          { scan.flush with mode := .lineComment, skip := true }
        else if ch = slash ∧ next = asterisk then
          { scan.flush with mode := .blockComment, skip := true }
        else if ch = singleQuote then { scan.flush with mode := .singleQuote }
        else if ch = doubleQuote then { scan.flush with mode := .doubleQuote }
        else if isTokenByte ch then { scan with builder := scan.builder ++ [ch] }
        else scan.flush

/-- The loop over `text`, when `rest` follows it. -/
def Scan.run : Scan → Text → Text → Scan
  | scan, [], _ => scan
  | scan, ch :: text, rest =>
      Scan.run (scan.step ch ((text ++ rest).headD 0)) text rest

def sqlTokens (sql : Text) : List Text :=
  (Scan.init.run sql []).flush.tokens

/-! ## The filter -/

def forbiddenWords : List Text :=
  ["insert", "update", "delete", "merge", "create", "alter", "drop", "truncate", "copy",
    "grant", "revoke", "call", "do", "vacuum", "analyze"].map ascii

def forbiddenSQLToken (token : Text) : Bool :=
  token ∈ forbiddenWords

inductive ExtractError
  | mustStart
  | empty
  | forbidden (token : Text)
  deriving DecidableEq

def ExtractError.message : ExtractError → Text
  | .mustStart => ascii "must start with SELECT or WITH"
  | .empty => ascii "empty SQL"
  | .forbidden token => ascii "forbidden token \"" ++ token ++ ascii "\""

def normalizeExtractSQL (sql : Text) : Except ExtractError Text :=
  let sql := trimSpace (trimSuffix (ascii ";") (trimSpace sql))
  let lowerSQL := toLower sql
  if ¬ (ascii "select ").isPrefixOf lowerSQL ∧ ¬ (ascii "with ").isPrefixOf lowerSQL then
    .error .mustStart
  else match sqlTokens sql with
    | [] => .error .empty
    | first :: others =>
        if first ≠ ascii "select" ∧ first ≠ ascii "with" then .error .mustStart
        else match (first :: others).find? forbiddenSQLToken with
          | some token => .error (.forbidden token)
          | none => .ok sql

example : normalizeExtractSQL (ascii " SELECT id FROM orders ; ") =
    .ok (ascii "SELECT id FROM orders") := by
  decide +kernel

example : normalizeExtractSQL (ascii "SELECT id FROM orders; DROP TABLE users") =
    .error (.forbidden (ascii "drop")) := by
  decide +kernel

end Conduit.Etl
