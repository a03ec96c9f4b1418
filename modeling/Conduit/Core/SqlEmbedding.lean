import Conduit.Core.SqlLexing
import Mathlib.Data.List.TakeWhile

/-!
# A query inside a statement

A program that builds a statement puts text of its own before and after a query.  Text that
leaves the lexer where a statement begins does not change how the query is read, and neither
does text that follows on a new line, although the lexer looks ahead.  So the statement has
a semicolon outside quotes and comments exactly if the query has one.
-/

namespace Conduit.SqlLexing

def semicolon : UInt8 := 59

/-- No semicolon of the text is outside literals, quoted identifiers and comments. -/
def SingleStatement (text : List UInt8) : Prop :=
  ∀ before after, text = before ++ semicolon :: after →
    (run postgres start before (semicolon :: after)).outside = false

/-- The semicolons of a text can be looked at one by one. -/
theorem singleStatement_iff_forall_lt (text : List UInt8) :
    SingleStatement text ↔ ∀ index < text.length, text[index]? = some semicolon →
      (run postgres start (text.take index) (text.drop index)).outside = false := by
  constructor
  · intro hsingle index hindex hsemicolon
    have hdrop : text.drop index = semicolon :: text.drop (index + 1) := by
      rw [List.drop_eq_getElem_cons hindex]
      rw [List.getElem?_eq_getElem hindex, Option.some.injEq] at hsemicolon
      rw [hsemicolon]
    have htext : text = text.take index ++ semicolon :: text.drop (index + 1) := by
      rw [← hdrop, List.take_append_drop]
    rw [hdrop]
    exact hsingle _ _ htext
  · intro hall before after htext
    have hplace := hall before.length (by simp [htext]) (by simp [htext])
    rw [htext, List.take_left, List.drop_left] at hplace
    exact hplace

instance (text : List UInt8) : Decidable (SingleStatement text) :=
  decidable_of_iff _ (singleStatement_iff_forall_lt text).symm

/-! ## Text that leaves the lexer where it was -/

/-- After the text the lexer is between tokens, whatever follows. -/
def Neutral (text : List UInt8) : Prop :=
  ∀ rest, run postgres start text rest = start

/-- A byte that ends a token and starts none. -/
def separator (ch : UInt8) : Bool :=
  !identCont ch && !(ch == hyphen) && !(ch == slash) && !(ch == singleQuote) &&
    !(ch == doubleQuote)

section Neutral

variable {text more rest : List UInt8} {ch : UInt8} {mode : Mode}

theorem neutral_nil : Neutral [] :=
  fun _ => rfl

theorem Neutral.append (htext : Neutral text) (hmore : Neutral more) :
    Neutral (text ++ more) := by
  intro rest
  rw [run_append, htext, hmore]

theorem readOutside_separator (hch : separator ch = true) :
    readOutside postgres mode ch rest = start := by
  simp only [separator, Bool.and_eq_true, Bool.not_eq_true', beq_eq_false_iff_ne] at hch
  obtain ⟨⟨⟨⟨hcont, hhyphen⟩, hslash⟩, hsingle⟩, hdouble⟩ := hch
  have hdollar : ch ≠ dollarSign := by
    rintro rfl
    cases hcont
  have htag : tagCont ch = false := by
    simpa [identCont, hdollar] using hcont
  have hboth : identStart ch = false ∧ isDigit ch = false := by
    simpa [tagCont] using htag
  simp [readOutside, openQuote, hcont, hboth.1, hboth.2, hhyphen, hslash, hsingle, hdouble,
    hdollar, start]

/-- A separator after text outside quotes leaves the lexer between tokens. -/
theorem next_separator (hch : separator ch = true) (hmode : mode.outside = true) :
    next postgres ⟨mode, 0⟩ ch rest = start := by
  cases mode with
  | plain | word | number | glued => exact readOutside_separator hch
  | _ => cases hmode

theorem neutral_separator (hch : separator ch = true) : Neutral [ch] := by
  intro rest
  show next postgres ⟨.plain, 0⟩ ch ([] ++ rest) = start
  exact next_separator hch rfl

/-- Letters keep the lexer outside quotes. -/
theorem next_letter (hch : identStart ch = true) (hmode : mode.outside = true) :
    ∃ mode', next postgres ⟨mode, 0⟩ ch rest = ⟨mode', 0⟩ ∧ mode'.outside = true := by
  have hread : ∃ mode', readOutside postgres mode ch rest = ⟨mode', 0⟩ ∧
      mode'.outside = true := by
    unfold readOutside
    repeat' split
    all_goals exact ⟨_, rfl, rfl⟩
  cases mode with
  | plain | word | number | glued => exact hread
  | _ => cases hmode

/-- Words and separators, ending in a separator. -/
theorem run_words {last : UInt8} (hlast : separator last = true)
    (htext : ∀ ch ∈ text, identStart ch = true ∨ separator ch = true)
    (hmode : mode.outside = true) :
    run postgres ⟨mode, 0⟩ (text ++ [last]) rest = start := by
  induction text generalizing mode with
  | nil => exact next_separator hlast hmode
  | cons ch text ih =>
      obtain ⟨hch, hrest⟩ := List.forall_mem_cons.mp htext
      rw [List.cons_append, run]
      rcases hch with hletter | hseparator
      · obtain ⟨mode', hnext, hmode'⟩ := next_letter hletter hmode
        rw [hnext]
        exact ih hrest hmode'
      · rw [next_separator hseparator hmode]
        exact ih hrest rfl

theorem neutral_words {last : UInt8} (hlast : separator last = true)
    (htext : ∀ ch ∈ text, identStart ch = true ∨ separator ch = true) :
    Neutral (text ++ [last]) :=
  fun _ => run_words hlast htext rfl

/-- Inside a quoted identifier nothing but a quote matters. -/
theorem run_double (htext : doubleQuote ∉ text) :
    run postgres ⟨.double, 0⟩ text rest = ⟨.double, 0⟩ := by
  induction text with
  | nil => rfl
  | cons ch text ih =>
      rw [List.mem_cons, not_or] at htext
      have hnext : next postgres ⟨.double, 0⟩ ch (text ++ rest) = ⟨.double, 0⟩ :=
        if_neg (Ne.symm htext.1)
      rw [run, hnext]
      exact ih htext.2

/-- A quoted identifier and a separator. -/
theorem neutral_quoted (htext : doubleQuote ∉ text) {last : UInt8}
    (hlast : separator last = true) :
    Neutral (doubleQuote :: (text ++ [doubleQuote]) ++ [last]) := by
  intro rest
  have hdifferent : last ≠ doubleQuote := by
    rintro rfl
    cases hlast
  have hopens : next postgres start doubleQuote (text ++ [doubleQuote] ++ [last] ++ rest) =
      ⟨.double, 0⟩ := rfl
  have hcloses : next postgres ⟨.double, 0⟩ doubleQuote ([last] ++ rest) = start := by
    simp [next, readQuoted, hdifferent, start]
  rw [List.cons_append, run, hopens, List.append_assoc, run_append, run_double htext,
    List.singleton_append, run, hcloses]
  exact neutral_separator hlast rest

/-- Text after which any separator leaves the lexer between tokens. -/
def Separable (text : List UInt8) : Prop :=
  ∀ last, separator last = true → Neutral (text ++ [last])

theorem separable_quoted (htext : doubleQuote ∉ text) :
    Separable (doubleQuote :: (text ++ [doubleQuote])) :=
  fun _ hlast => neutral_quoted htext hlast

/-- Such texts joined by text that starts with a separator. -/
theorem separable_intercalate {first : UInt8} (hfirst : separator first = true)
    (hmore : Neutral more) {parts : List (List UInt8)}
    (hparts : ∀ part ∈ parts, Separable part) :
    Separable ((first :: more).intercalate parts) := by
  intro last hlast
  induction parts with
  | nil => exact neutral_separator hlast
  | cons part parts ih =>
      obtain ⟨hpart, hothers⟩ := List.forall_mem_cons.mp hparts
      cases parts with
      | nil =>
          rw [List.intercalate_singleton]
          exact hpart last hlast
      | cons other parts =>
          have hjoined : (first :: more).intercalate (part :: other :: parts) ++ [last] =
              (part ++ [first]) ++ more ++
                ((first :: more).intercalate (other :: parts) ++ [last]) := by
            rw [List.intercalate_cons_of_ne_nil (by simp)]
            simp
          rw [hjoined]
          exact ((hpart first hfirst).append hmore).append (ih hothers)

end Neutral

/-! ## Looking ahead -/

/-- Text that is empty or starts on a new line. -/
def NewLine (tail : List UInt8) : Prop :=
  ∀ ch ∈ tail.head?, ch = newline

/-- The tag of the dollar quote that is open goes over no line. -/
def State.OneLine (state : State) : Prop :=
  ∀ tag, state.mode = .dollar tag → newline ∉ tag

section LookAhead

variable {state : State} {ch : UInt8} {text rest tail tag : List UInt8}

theorem head?_append_newLine (htail : NewLine tail) (hch : ch ≠ newline) :
    (rest ++ tail).head? = some ch ↔ rest.head? = some ch := by
  cases rest with
  | nil =>
      refine iff_of_false ?_ (by simp)
      intro hhead
      exact hch (htail ch hhead)
  | cons => exact Iff.rfl

theorem takeWhile_append_newLine (htail : NewLine tail) :
    (rest ++ tail).takeWhile tagCont = rest.takeWhile tagCont := by
  induction rest with
  | nil =>
      cases tail with
      | nil => rfl
      | cons ch tail =>
          have hch : ch = newline := htail ch rfl
          rw [hch]
          rfl
  | cons ch rest ih => rw [List.cons_append, List.takeWhile_cons, List.takeWhile_cons, ih]

theorem dollarTag_append_newLine (htail : NewLine tail) :
    dollarTag (rest ++ tail) = dollarTag rest := by
  have hlength : (rest.takeWhile tagCont).length ≤ rest.length :=
    (List.takeWhile_prefix tagCont).length_le
  simp only [dollarTag, takeWhile_append_newLine htail, List.drop_append_of_le_length hlength,
    head?_append_newLine htail (show dollarSign ≠ newline by decide)]

theorem isPrefixOf_append_newLine (htail : NewLine tail) (htag : newline ∉ tag) :
    tag.isPrefixOf (rest ++ tail) = tag.isPrefixOf rest := by
  induction tag generalizing rest with
  | nil => rfl
  | cons ch tag ih =>
      rw [List.mem_cons, not_or] at htag
      cases rest with
      | nil =>
          cases tail with
          | nil => rfl
          | cons other tail =>
              have hother : other = newline := htail other rfl
              have hdifferent : (ch == newline) = false := by
                simpa using Ne.symm htag.1
              simp [hother, List.isPrefixOf, hdifferent]
      | cons other rest => rw [List.cons_append, List.isPrefixOf, List.isPrefixOf, ih htag.2]

/-- What follows on a new line does not change how a byte is read. -/
theorem next_append_newLine (hstate : state.OneLine) (htail : NewLine tail) :
    next postgres state ch (rest ++ tail) = next postgres state ch rest := by
  obtain ⟨mode, skip⟩ := state
  cases skip with
  | succ skip => rfl
  | zero =>
      have hhead : ∀ mark : UInt8, mark ≠ newline →
          ((rest ++ tail).head? = some mark ↔ rest.head? = some mark) := by
        intro mark hmark
        exact head?_append_newLine htail hmark
      cases mode with
      | single | escape | double =>
          simp only [next, readQuoted, hhead singleQuote (by decide),
            hhead doubleQuote (by decide)]
      | line => rfl
      | block depth =>
          simp only [next, readBlock, hhead slash (by decide), hhead asterisk (by decide)]
      | dollar tag =>
          have htag : newline ∉ tag ++ [dollarSign] := by
            rw [List.mem_append, not_or]
            exact ⟨hstate tag rfl, by decide⟩
          simp only [next, isPrefixOf_append_newLine htail htag]
      | plain | word | number | glued =>
          simp only [next, readOutside, openQuote, hhead hyphen (by decide),
            hhead asterisk (by decide), dollarTag_append_newLine htail]

theorem openQuote_oneLine {mode : Mode} : (openQuote postgres mode ch rest).OneLine := by
  intro tag htag
  unfold openQuote at htag
  repeat' split at htag
  all_goals cases htag
  rename_i hdollar
  simp only [dollarTag] at hdollar
  split at hdollar
  · cases hdollar
    intro hmem
    have hcont := List.mem_takeWhile_imp hmem
    cases hcont
  · cases hdollar

theorem next_oneLine (hstate : state.OneLine) : (next postgres state ch rest).OneLine := by
  obtain ⟨mode, skip⟩ := state
  cases skip with
  | succ skip => exact hstate
  | zero =>
      cases mode with
      | single | escape | double | line | block =>
          simp only [next, readQuoted, readBlock]
          repeat' split
          all_goals
            intro tag htag
            cases htag
      | dollar tag =>
          simp only [next]
          split
          · intro other hother
            cases hother
          · exact hstate
      | plain | word | number | glued =>
          simp only [next, readOutside]
          repeat' split
          all_goals first | exact openQuote_oneLine | (intro tag htag; cases htag)

theorem run_append_newLine (hstate : state.OneLine) (htail : NewLine tail) :
    run postgres state text (rest ++ tail) = run postgres state text rest := by
  induction text generalizing state with
  | nil => rfl
  | cons ch text ih =>
      rw [run, run, ← List.append_assoc, next_append_newLine hstate htail]
      exact ih (next_oneLine hstate)

end LookAhead

/-! ## Embedding a query -/

section Embed

variable {front back before after : List UInt8} {ch : UInt8}

/-- A byte that is not in the first part stands in the second. -/
theorem exists_of_not_mem_front (htext : front ++ back = before ++ ch :: after)
    (hfront : ch ∉ front) :
    ∃ middle, before = front ++ middle ∧ back = middle ++ ch :: after := by
  rcases List.append_eq_append_iff.mp htext with hlater | ⟨between, rfl, hbetween⟩
  · exact hlater
  · cases between with
    | nil => exact ⟨[], by simp, hbetween.symm⟩
    | cons other between =>
        rw [List.cons_append, List.cons.injEq] at hbetween
        rw [hbetween.1] at hfront
        simp at hfront

/-- A byte that is not in the second part stands in the first. -/
theorem exists_of_not_mem_back (htext : front ++ back = before ++ ch :: after)
    (hback : ch ∉ back) :
    ∃ middle, front = before ++ ch :: middle ∧ after = middle ++ back := by
  rcases List.append_eq_append_iff.mp htext with ⟨between, rfl, rfl⟩ | ⟨between, rfl, hbetween⟩
  · simp at hback
  · cases between with
    | nil =>
        rw [List.nil_append] at hbetween
        rw [← hbetween] at hback
        simp at hback
    | cons other between =>
        rw [List.cons_append, List.cons.injEq] at hbetween
        exact ⟨between, by rw [hbetween.1], hbetween.2⟩

end Embed

/-- A query between text that leaves the lexer alone and text on a new line, neither with a
semicolon: the whole is a single statement exactly if the query is. -/
theorem singleStatement_embed {head query tail : List UInt8} (hhead : Neutral head)
    (htail : NewLine tail) (hfirst : semicolon ∉ head) (hlast : semicolon ∉ tail) :
    SingleStatement (head ++ query ++ tail) ↔ SingleStatement query := by
  -- The lexer is in the same state at a semicolon of the query and at its place in the whole.
  have hstate : ∀ before after,
      run postgres start (head ++ before) (semicolon :: (after ++ tail)) =
        run postgres start before (semicolon :: after) := by
    intro before after
    rw [run_append, hhead, ← List.cons_append]
    apply run_append_newLine _ htail
    intro tag htag
    cases htag
  constructor
  · intro hsingle before after hquery
    rw [← hstate before after]
    apply hsingle
    simp [hquery]
  · intro hsingle before after htext
    rw [List.append_assoc] at htext
    obtain ⟨inner, rfl, hrest⟩ := exists_of_not_mem_front htext hfirst
    obtain ⟨middle, hquery, rfl⟩ := exists_of_not_mem_back hrest hlast
    rw [hstate inner middle]
    exact hsingle inner middle hquery

end Conduit.SqlLexing
