import Mathlib.Data.List.Basic

/-!
# Reading back quoted text

A quoted word stands between two marks, and a mark inside the word is written twice.  The
readers of this file recover a quoted word, and a list of words with separators between them,
whatever the words are.  All they need to know about the text that follows is that it does not
go on with a mark or with a separator.
-/

namespace Conduit.Quoting

variable {Symbol Value : Type*}

/-- A reader returns what it has read and the text it has left over. -/
abbrev Reader (Symbol Value : Type*) := List Symbol → Option (Value × List Symbol)

/-- The reader recovers a value from its written form in front of any text of a kind. -/
def Recovers (read : Reader Symbol Value) (follow : List Symbol → Prop)
    (write : Value → List Symbol) (value : Value) : Prop :=
  ∀ rest, follow rest → read (write value ++ rest) = some (value, rest)

/-- Text that does not go on with the mark. -/
def Unmarked (mark : Symbol) (rest : List Symbol) : Prop :=
  rest.head? ≠ some mark

theorem unmarked_append {mark : Symbol} {text : List Symbol} (hempty : text ≠ [])
    (htext : Unmarked mark text) (rest : List Symbol) : Unmarked mark (text ++ rest) := by
  rwa [Unmarked, List.head?_append_of_ne_nil _ hempty]

theorem intercalate_eq_flatMap (write : Value → List Symbol) (separator : List Symbol)
    (value : Value) (values : List Value) :
    separator.intercalate ((value :: values).map write) =
      write value ++ values.flatMap fun other => separator ++ write other := by
  induction values generalizing value with
  | nil => simp
  | cons other values ih =>
      rw [List.map_cons, List.map_cons, List.intercalate_cons_cons, ← List.map_cons, ih,
        List.flatMap_cons, List.append_assoc, List.append_assoc]

/-- The first text behind a value is a separator or the text behind the whole list. -/
theorem follow_flatMap {follow : List Symbol → Prop} {separator rest : List Symbol}
    (write : Value → List Symbol) (hseparator : ∀ more, follow (separator ++ more))
    (hrest : follow rest) (values : List Value) :
    follow ((values.flatMap fun other => separator ++ write other) ++ rest) := by
  cases values with
  | nil => exact hrest
  | cons value values =>
      rw [List.flatMap_cons, List.append_assoc, List.append_assoc]
      exact hseparator _

theorem length_le_flatMap (write : Value → List Symbol) {separator : List Symbol}
    (hempty : separator ≠ []) (values : List Value) :
    values.length ≤ (values.flatMap fun other => separator ++ write other).length := by
  have hpositive := List.length_pos_of_ne_nil hempty
  induction values with
  | nil => exact Nat.le_refl 0
  | cons value values ih =>
      rw [List.flatMap_cons, List.length_append, List.length_append, List.length_cons]
      omega

variable [DecidableEq Symbol]

instance (mark : Symbol) (rest : List Symbol) : Decidable (Unmarked mark rest) :=
  inferInstanceAs (Decidable (rest.head? ≠ some mark))

@[simp]
theorem dropPrefix_append (text rest : List Symbol) :
    (text ++ rest).dropPrefix? text = some rest :=
  List.dropPrefix?_append_of_beq rest (by simp)

/-! ## Quoted words -/

def escape (mark : Symbol) (word : List Symbol) : List Symbol :=
  word.flatMap fun symbol => if symbol = mark then [mark, mark] else [symbol]

def quote (mark : Symbol) (word : List Symbol) : List Symbol :=
  mark :: (escape mark word ++ [mark])

/-- The word up to the first mark that is not followed by another one. -/
def readEscaped (mark : Symbol) : Reader Symbol (List Symbol)
  | [] => none
  | [symbol] => if symbol = mark then some ([], []) else none
  | symbol :: next :: rest =>
      if symbol ≠ mark then
        (readEscaped mark (next :: rest)).map fun read => (symbol :: read.1, read.2)
      else if next = mark then
        (readEscaped mark rest).map fun read => (mark :: read.1, read.2)
      else some ([], next :: rest)

def unquote (mark : Symbol) : Reader Symbol (List Symbol)
  | [] => none
  | symbol :: rest => if symbol = mark then readEscaped mark rest else none

theorem readEscaped_of_ne {mark symbol : Symbol} (hsymbol : symbol ≠ mark)
    (input : List Symbol) :
    readEscaped mark (symbol :: input) =
      (readEscaped mark input).map fun read => (symbol :: read.1, read.2) := by
  cases input <;> simp [readEscaped, hsymbol]

theorem readEscaped_mark {mark : Symbol} {rest : List Symbol} (hrest : Unmarked mark rest) :
    readEscaped mark (mark :: rest) = some ([], rest) := by
  cases rest with
  | nil => simp [readEscaped]
  | cons next rest =>
      have hnext : next ≠ mark := fun heq => hrest (congrArg some heq)
      simp [readEscaped, hnext]

theorem readEscaped_escape {mark : Symbol} (word : List Symbol) {rest : List Symbol}
    (hrest : Unmarked mark rest) :
    readEscaped mark (escape mark word ++ mark :: rest) = some (word, rest) := by
  induction word with
  | nil => exact readEscaped_mark hrest
  | cons symbol word ih =>
      rw [escape, List.flatMap_cons]
      by_cases hsymbol : symbol = mark
      · rw [if_pos hsymbol, hsymbol]
        change (if mark ≠ mark then _ else if mark = mark then
          (readEscaped mark (escape mark word ++ mark :: rest)).map _ else _) = _
        rw [if_neg (not_not.mpr rfl), if_pos rfl, ih]
        rfl
      · rw [if_neg hsymbol]
        change readEscaped mark (symbol :: (escape mark word ++ mark :: rest)) = _
        rw [readEscaped_of_ne hsymbol, ih]
        rfl

theorem recovers_quote (mark : Symbol) (word : List Symbol) :
    Recovers (unquote mark) (Unmarked mark) (quote mark) word := by
  intro rest hrest
  rw [quote, List.cons_append, List.append_assoc, List.singleton_append, unquote, if_pos rfl]
  exact readEscaped_escape word hrest

theorem unquote_eq_none {mark : Symbol} {rest : List Symbol} (hrest : Unmarked mark rest) :
    unquote mark rest = none := by
  cases rest with
  | nil => rfl
  | cons symbol rest => exact if_neg fun heq => hrest (congrArg some heq)

/-! ## Lists with separators -/

/-- At most so many further values, each behind a separator. -/
def readMore (read : Reader Symbol Value) (separator : List Symbol) :
    ℕ → Reader Symbol (List Value)
  | 0, input => some ([], input)
  | rounds + 1, input =>
      match input.dropPrefix? separator with
      | none => some ([], input)
      | some rest => do
          let (value, rest) ← read rest
          let (values, rest) ← readMore read separator rounds rest
          return (value :: values, rest)

def readSeparated (read : Reader Symbol Value) (separator : List Symbol) :
    Reader Symbol (List Value) := fun input =>
  match read input with
  | none => some ([], input)
  | some (value, rest) => do
      let (values, rest) ← readMore read separator rest.length rest
      return (value :: values, rest)

section Separated

variable {read : Reader Symbol Value} {write : Value → List Symbol}
  {follow : List Symbol → Prop} {separator rest : List Symbol}

theorem readMore_flatMap (hseparator : ∀ more, follow (separator ++ more))
    (hrest : follow rest) (hstop : rest.dropPrefix? separator = none) {values : List Value}
    (hvalues : ∀ value ∈ values, Recovers read follow write value) {rounds : ℕ}
    (hrounds : values.length ≤ rounds) :
    readMore read separator rounds
        ((values.flatMap fun other => separator ++ write other) ++ rest) =
      some (values, rest) := by
  induction values generalizing rounds with
  | nil =>
      cases rounds with
      | zero => rfl
      | succ rounds => simp [readMore, hstop]
  | cons value values ih =>
      cases rounds with
      | zero => exact absurd hrounds (by simp)
      | succ rounds =>
          obtain ⟨hvalue, hothers⟩ := List.forall_mem_cons.mp hvalues
          rw [List.flatMap_cons, List.append_assoc, List.append_assoc, readMore,
            dropPrefix_append]
          have hfirst := hvalue _ (follow_flatMap write hseparator hrest values)
          have hmore := ih hothers (Nat.le_of_succ_le_succ hrounds)
          simp only [hfirst, hmore, Option.bind_eq_bind, Option.bind_some]
          rfl

theorem readSeparated_intercalate (hempty : separator ≠ [])
    (hseparator : ∀ more, follow (separator ++ more)) (hrest : follow rest)
    (hstop : rest.dropPrefix? separator = none) (hnone : read rest = none)
    {values : List Value} (hvalues : ∀ value ∈ values, Recovers read follow write value) :
    readSeparated read separator (separator.intercalate (values.map write) ++ rest) =
      some (values, rest) := by
  cases values with
  | nil => simp [readSeparated, hnone]
  | cons value values =>
      obtain ⟨hvalue, hothers⟩ := List.forall_mem_cons.mp hvalues
      have hrounds : values.length ≤
          ((values.flatMap fun other => separator ++ write other) ++ rest).length := by
        rw [List.length_append]
        exact Nat.le_add_right_of_le (length_le_flatMap write hempty values)
      have hfirst := hvalue _ (follow_flatMap write hseparator hrest values)
      have hmore := readMore_flatMap hseparator hrest hstop hothers hrounds
      rw [intercalate_eq_flatMap, List.append_assoc, readSeparated, hfirst]
      simp only [hmore, Option.bind_eq_bind, Option.bind_some]
      rfl

end Separated

/-- A list of quoted words is recovered whatever the words are: a separator inside a word
stands between marks. -/
theorem readSeparated_quote {mark : Symbol} {separator rest : List Symbol}
    (hempty : separator ≠ []) (hseparator : Unmarked mark separator)
    (hrest : Unmarked mark rest) (hstop : rest.dropPrefix? separator = none)
    (words : List (List Symbol)) :
    readSeparated (unquote mark) separator
        (separator.intercalate (words.map (quote mark)) ++ rest) =
      some (words, rest) :=
  readSeparated_intercalate hempty (unmarked_append hempty hseparator) hrest hstop
    (unquote_eq_none hrest) fun word _ => recovers_quote mark word

end Conduit.Quoting
