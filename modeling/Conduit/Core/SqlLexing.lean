import Mathlib.Data.List.Induction
import Mathlib.Data.List.TakeWhile

/-!
# Where SQL text is quoted

A lexer of SQL is read here as an automaton over the bytes of a statement.  Its
mode says what the next byte belongs to: a quoted string, a quoted identifier, a
comment, or text outside all of these.  `Dialect` switches the rules on which SQL
lexers differ, so that two readings of one statement can be compared byte by byte.
With all of them on the automaton follows Postgres, but for a string that goes on after a
newline: it is read as a new string, which differs where the first part is an `E'...'` string
and a later one has a backslash.
-/

namespace Conduit.SqlLexing

/-! ## Bytes -/

def newline : UInt8 := 10

def carriageReturn : UInt8 := 13

def space : UInt8 := 32

def doubleQuote : UInt8 := 34

def dollarSign : UInt8 := 36

def singleQuote : UInt8 := 39

def asterisk : UInt8 := 42

def hyphen : UInt8 := 45

def slash : UInt8 := 47

def backslash : UInt8 := 92

def underscore : UInt8 := 95

def isLetter (ch : UInt8) : Bool :=
  (65 ≤ ch ∧ ch ≤ 90) ∨ (97 ≤ ch ∧ ch ≤ 122)

def isDigit (ch : UInt8) : Bool :=
  48 ≤ ch ∧ ch ≤ 57

/-- The bytes an unquoted identifier can start with. -/
def identStart (ch : UInt8) : Bool :=
  isLetter ch ∨ ch = underscore ∨ 128 ≤ ch

/-- The bytes the tag of a dollar quote goes on with. -/
def tagCont (ch : UInt8) : Bool :=
  identStart ch ∨ isDigit ch

/-- The bytes an unquoted identifier goes on with. -/
def identCont (ch : UInt8) : Bool :=
  tagCont ch ∨ ch = dollarSign

/-! ## The automaton -/

structure Dialect where
  /-- `E'...'` strings, in which a backslash escapes the next byte. -/
  escapes : Bool
  /-- `$tag$...$tag$` strings. -/
  dollars : Bool
  /-- Block comments nest. -/
  nests : Bool
  /-- A carriage return ends a line comment. -/
  returns : Bool

def postgres : Dialect := ⟨true, true, true, true⟩

/-- Quotes with doubling, line comments up to a newline, flat block comments. -/
def simple : Dialect := ⟨false, false, false, false⟩

inductive Mode
  /-- Between tokens. -/
  | plain
  /-- In an identifier or keyword; `lone` while it is the single letter E. -/
  | word (lone : Bool)
  | number
  /-- In letters glued to a number, which is an error and no word. -/
  | glued
  | single
  | escape
  | double
  | line
  | block (depth : ℕ)
  | dollar (tag : List UInt8)
  deriving DecidableEq

/-- The text is outside quotes and comments. -/
def Mode.outside : Mode → Bool
  | .plain | .word _ | .number | .glued => true
  | _ => false

def Mode.isWord : Mode → Bool
  | .word _ => true
  | _ => false

/-- A mode, and how many bytes are still to be passed over in it. -/
structure State where
  mode : Mode
  skip : ℕ
  deriving DecidableEq

def start : State := ⟨.plain, 0⟩

/-- The next byte is read as text outside quotes and comments. -/
def State.outside (state : State) : Bool :=
  state.mode.outside ∧ state.skip = 0

/-- The tag of a dollar quote, `rest` being what follows its first dollar sign. -/
def dollarTag (rest : List UInt8) : Option (List UInt8) :=
  let tag := rest.takeWhile tagCont
  if tag.head?.all identStart ∧ (rest.drop tag.length).head? = some dollarSign
  then some tag else none

/-- Read a byte that may open a string or a quoted identifier. -/
def openQuote (dialect : Dialect) (mode : Mode) (ch : UInt8) (rest : List UInt8) : State :=
  if ch = singleQuote then
    if dialect.escapes ∧ mode = .word true then ⟨.escape, 0⟩ else ⟨.single, 0⟩
  else if ch = doubleQuote then ⟨.double, 0⟩
  else if dialect.dollars ∧ ch = dollarSign then
    match dollarTag rest with
    | some tag => ⟨.dollar tag, tag.length + 1⟩
    | none => ⟨.plain, 0⟩
  else ⟨.plain, 0⟩

/-- Read a byte that goes on with a word, or starts a token. -/
def readOutside (dialect : Dialect) (mode : Mode) (ch : UInt8) (rest : List UInt8) : State :=
  if mode.isWord ∧ identCont ch then ⟨.word false, 0⟩
  else if mode = .glued ∧ identCont ch then ⟨.glued, 0⟩
  else if identStart ch then
    if mode = .number then ⟨.glued, 0⟩ else ⟨.word (ch = 69 ∨ ch = 101), 0⟩
  else if isDigit ch then ⟨.number, 0⟩
  else if ch = hyphen ∧ rest.head? = some hyphen then ⟨.line, 1⟩
  else if ch = slash ∧ rest.head? = some asterisk then ⟨.block 0, 1⟩
  else openQuote dialect mode ch rest

/-- Read a byte inside quotes that a doubled `mark` does not close. -/
def readQuoted (mode : Mode) (mark ch : UInt8) (rest : List UInt8) : State :=
  if ch = mark then
    if rest.head? = some mark then ⟨mode, 1⟩ else ⟨.plain, 0⟩
  else ⟨mode, 0⟩

def readBlock (dialect : Dialect) (depth : ℕ) (ch : UInt8) (rest : List UInt8) : State :=
  if ch = asterisk ∧ rest.head? = some slash then
    match depth with
    | 0 => ⟨.plain, 1⟩
    | outer + 1 => ⟨.block outer, 1⟩
  else if dialect.nests ∧ ch = slash ∧ rest.head? = some asterisk then ⟨.block (depth + 1), 1⟩
  else ⟨.block depth, 0⟩

/-- The state after the byte `ch`, when `rest` follows it. -/
def next (dialect : Dialect) (state : State) (ch : UInt8) (rest : List UInt8) : State :=
  match state.skip with
  | skip + 1 => ⟨state.mode, skip⟩
  | 0 =>
    match state.mode with
    | .single => readQuoted .single singleQuote ch rest
    | .escape =>
        if ch = backslash then ⟨.escape, 1⟩ else readQuoted .escape singleQuote ch rest
    | .double => readQuoted .double doubleQuote ch rest
    | .line =>
        if ch = newline ∨ (dialect.returns ∧ ch = carriageReturn) then ⟨.plain, 0⟩
        else ⟨.line, 0⟩
    | .block depth => readBlock dialect depth ch rest
    | .dollar tag =>
        if ch = dollarSign ∧ (tag ++ [dollarSign]).isPrefixOf rest
        then ⟨.plain, tag.length + 1⟩ else ⟨.dollar tag, 0⟩
    | mode => readOutside dialect mode ch rest

/-- The state after `text`, when `rest` follows it. -/
def run (dialect : Dialect) : State → List UInt8 → List UInt8 → State
  | state, [], _ => state
  | state, ch :: text, rest => run dialect (next dialect state ch (text ++ rest)) text rest

/-- `word` stands between `before` and `after` as a word of its own, outside
quotes and comments. -/
structure WordAt (dialect : Dialect) (before word after : List UInt8) : Prop where
  free : run dialect start before (word ++ after) = ⟨.plain, 0⟩
  nonempty : word ≠ []
  first : word.head?.all identStart
  letters : ∀ ch ∈ word, identCont ch
  ends : ∀ ch ∈ after.head?, identCont ch = false

section Run

variable {dialect : Dialect} {state : State} {ch : UInt8} {text rest : List UInt8}

theorem run_append (dialect : Dialect) (state : State) (text more rest : List UInt8) :
    run dialect state (text ++ more) rest =
      run dialect (run dialect state text (more ++ rest)) more rest := by
  induction text generalizing state with
  | nil => rfl
  | cons ch text ih =>
      rw [List.cons_append, run, run, ih, List.append_assoc]

/-! ## The byte before a token -/

/-- The last byte passed over on the way out of a comment or a dollar quote is no
byte of a word. -/
def Closes (state : State) (rest : List UInt8) : Prop :=
  ∀ skip, state = ⟨.plain, skip + 1⟩ → ∃ ch ∈ rest[skip]?, tagCont ch = false

theorem closes_of_skip_eq_zero (hskip : state.skip = 0) : Closes state rest := by
  intro skip hstate
  rw [hstate] at hskip
  cases hskip

theorem closes_of_mode_ne (hmode : state.mode ≠ .plain) : Closes state rest := by
  intro skip hstate
  rw [hstate] at hmode
  exact absurd rfl hmode

theorem openQuote_plain {mode : Mode}
    (hplain : (openQuote dialect mode ch rest).mode = .plain) :
    (openQuote dialect mode ch rest).skip = 0 := by
  unfold openQuote at hplain ⊢
  grind

theorem readOutside_plain {mode : Mode}
    (hplain : (readOutside dialect mode ch rest).mode = .plain) :
    (readOutside dialect mode ch rest).skip = 0 ∧ tagCont ch = false := by
  unfold readOutside at hplain ⊢
  by_cases hword : mode.isWord ∧ identCont ch
  · rw [if_pos hword] at hplain
    cases hplain
  by_cases hglued : mode = .glued ∧ identCont ch
  · rw [if_neg hword, if_pos hglued] at hplain
    cases hplain
  rw [if_neg hword, if_neg hglued] at hplain ⊢
  by_cases hstart : identStart ch
  · rw [if_pos hstart] at hplain
    split at hplain <;> cases hplain
  by_cases hdigit : isDigit ch
  · rw [if_neg hstart, if_pos hdigit] at hplain
    cases hplain
  have htag : tagCont ch = false := by simp [tagCont, hstart, hdigit]
  rw [if_neg hstart, if_neg hdigit] at hplain ⊢
  refine ⟨?_, htag⟩
  split at hplain
  · cases hplain
  · rename_i hline
    rw [if_neg hline]
    split at hplain
    · cases hplain
    · rename_i hblock
      rw [if_neg hblock]
      exact openQuote_plain hplain

theorem readQuoted_plain {mode : Mode} {mark : UInt8} (hmode : mode ≠ .plain)
    (hplain : (readQuoted mode mark ch rest).mode = .plain) :
    (readQuoted mode mark ch rest).skip = 0 ∧ ch = mark := by
  unfold readQuoted at hplain ⊢
  split at hplain
  · split at hplain
    · exact absurd hplain hmode
    · rename_i hch hdoubled
      rw [if_pos hch, if_neg hdoubled]
      exact ⟨rfl, hch⟩
  · exact absurd hplain hmode

theorem readBlock_plain {depth : ℕ}
    (hplain : (readBlock dialect depth ch rest).mode = .plain) :
    (readBlock dialect depth ch rest).skip = 1 ∧ rest.head? = some slash := by
  unfold readBlock at hplain ⊢
  split at hplain
  · rename_i hcloses
    rw [if_pos hcloses]
    split at hplain
    · exact ⟨rfl, hcloses.2⟩
    · cases hplain
  · split at hplain <;> cases hplain

/-- A block comment closes with a slash. -/
theorem closes_readBlock {depth : ℕ}
    (hplain : (readBlock dialect depth ch rest).mode = .plain) :
    Closes (readBlock dialect depth ch rest) rest := by
  obtain ⟨hone, hhead⟩ := readBlock_plain hplain
  intro skip hstate
  rw [hstate] at hone
  have hzero : skip = 0 := Nat.succ.inj hone
  rw [hzero, ← List.head?_eq_getElem?, hhead]
  exact ⟨slash, rfl, by decide⟩

/-- A dollar quote closes with the dollar sign after its tag. -/
theorem closes_dollar {tag : List UInt8} (hcloses : (tag ++ [dollarSign]).isPrefixOf rest) :
    Closes ⟨.plain, tag.length + 1⟩ rest := by
  intro skip hstate
  have hlength : tag.length = skip := Nat.succ.inj (congrArg State.skip hstate)
  obtain ⟨tail, rfl⟩ := List.isPrefixOf_iff_prefix.1 hcloses
  rw [← hlength]
  refine ⟨dollarSign, ?_, by decide⟩
  simp

/-- What a byte leaves when no byte is passed over. -/
theorem next_plain_of_skip_eq_zero (hskip : state.skip = 0)
    (hplain : (next dialect state ch rest).mode = .plain) :
    (next dialect state ch rest).skip = 0 ∧ tagCont ch = false ∨
      Closes (next dialect state ch rest) rest ∧ (next dialect state ch rest).skip ≠ 0 := by
  obtain ⟨mode, skip⟩ := state
  cases hskip
  cases mode with
  | single =>
      obtain ⟨hzero, rfl⟩ := readQuoted_plain (by decide) hplain
      exact .inl ⟨hzero, by decide⟩
  | double =>
      obtain ⟨hzero, rfl⟩ := readQuoted_plain (by decide) hplain
      exact .inl ⟨hzero, by decide⟩
  | escape =>
      simp only [next] at hplain ⊢
      split at hplain
      · cases hplain
      · rename_i hch
        rw [if_neg hch]
        obtain ⟨hzero, rfl⟩ := readQuoted_plain (by decide) hplain
        exact .inl ⟨hzero, by decide⟩
  | line =>
      simp only [next] at hplain ⊢
      split at hplain
      · rename_i hends
        rw [if_pos hends]
        rcases hends with rfl | ⟨-, rfl⟩
        · exact .inl ⟨rfl, by decide⟩
        · exact .inl ⟨rfl, by decide⟩
      · cases hplain
  | block depth =>
      refine .inr ⟨closes_readBlock hplain, ?_⟩
      change (readBlock dialect depth ch rest).skip ≠ 0
      rw [(readBlock_plain hplain).1]
      decide
  | dollar tag =>
      simp only [next] at hplain ⊢
      split at hplain
      · rename_i hcloses
        rw [if_pos hcloses]
        exact .inr ⟨closes_dollar hcloses.2, Nat.succ_ne_zero _⟩
      · cases hplain
  | plain | word | number | glued =>
      exact .inl (readOutside_plain hplain)

theorem closes_next (hcloses : Closes state (ch :: rest)) :
    Closes (next dialect state ch rest) rest := by
  by_cases hskip : state.skip = 0
  · by_cases hplain : (next dialect state ch rest).mode = .plain
    · rcases next_plain_of_skip_eq_zero hskip hplain with ⟨hzero, -⟩ | ⟨hcloses, -⟩
      · exact closes_of_skip_eq_zero hzero
      · exact hcloses
    · exact closes_of_mode_ne hplain
  · obtain ⟨mode, skip⟩ := state
    cases skip with
    | zero => exact absurd rfl hskip
    | succ skip =>
        intro left hstate
        cases hstate
        exact hcloses _ rfl

theorem tagCont_of_next_eq_plain (hcloses : Closes state (ch :: rest))
    (hplain : next dialect state ch rest = ⟨.plain, 0⟩) : tagCont ch = false := by
  by_cases hskip : state.skip = 0
  · rcases next_plain_of_skip_eq_zero hskip (congrArg State.mode hplain) with
      ⟨-, htag⟩ | ⟨-, hne⟩
    · exact htag
    · exact absurd (congrArg State.skip hplain) hne
  · obtain ⟨mode, skip⟩ := state
    cases skip with
    | zero => exact absurd rfl hskip
    | succ skip =>
        cases hplain
        obtain ⟨last, hlast, htag⟩ := hcloses 0 rfl
        cases hlast
        exact htag

theorem closes_run (hcloses : Closes state (text ++ rest)) :
    Closes (run dialect state text rest) rest := by
  induction text generalizing state with
  | nil => exact hcloses
  | cons ch text ih => exact ih (closes_next hcloses)

/-- A token can only begin after a byte that no word goes on with. -/
theorem tagCont_of_run_eq_plain
    (hplain : run dialect start (text ++ [ch]) rest = ⟨.plain, 0⟩) : tagCont ch = false := by
  rw [run_append] at hplain
  have hstart : Closes start (text ++ (ch :: rest)) := closes_of_skip_eq_zero rfl
  exact tagCont_of_next_eq_plain (closes_run hstart) hplain

end Run

/-! ## What follows a text -/

section Lookahead

variable {dialect : Dialect} {state : State} {ch : UInt8} {text rest more : List UInt8}

/-- The tag of a dollar quote consists of bytes of a word. -/
def Tagged (state : State) : Prop :=
  ∀ tag, state.mode = .dollar tag → ∀ ch ∈ tag, tagCont ch

theorem tagged_start : Tagged start := by
  intro tag hmode
  cases hmode

theorem tagged_openQuote {mode : Mode} : Tagged (openQuote dialect mode ch rest) := by
  intro tag hmode
  unfold openQuote at hmode
  split at hmode
  · split at hmode <;> cases hmode
  · split at hmode
    · cases hmode
    · split at hmode
      · split at hmode
        · rename_i htag
          cases hmode
          simp only [dollarTag, Option.ite_none_right_eq_some, Option.some.injEq] at htag
          rw [← htag.2]
          exact fun ch hch => List.mem_takeWhile_imp hch
        · cases hmode
      · cases hmode

theorem tagged_next (htagged : Tagged state) : Tagged (next dialect state ch rest) := by
  obtain ⟨mode, skip⟩ := state
  cases skip with
  | succ skip => exact htagged
  | zero =>
      cases mode with
      | plain | word | number | glued =>
          simp only [next, readOutside]
          repeat' split
          all_goals first | exact tagged_openQuote | (intro tag hmode; cases hmode)
      | dollar tag =>
          simp only [next]
          split
          · intro tag hmode
            cases hmode
          · exact htagged
      | _ =>
          intro tag hmode
          simp only [next, readQuoted, readBlock] at hmode
          grind

/-- The two readings of a byte are one, or the first of them reaches over the end of
`text`. -/
def Reaching (text : List UInt8) (state other : State) : Prop :=
  state = other ∨ text.length < state.skip

/-- A test comes out the same in two readings, or in the first of them it has found a mark of
`length` bytes that reaches over the end of `text`. -/
def Tested (text : List UInt8) (length : ℕ) (holds other : Prop) : Prop :=
  (holds ↔ other) ∨ holds ∧ text.length < length

theorem Tested.and {length : ℕ} {holds other : Prop} (guard : Prop)
    (htested : Tested text length holds other) :
    Tested text length (guard ∧ holds) (guard ∧ other) := by
  by_cases hguard : guard
  · simpa [hguard] using htested
  · exact .inl (by simp [hguard])

theorem Tested.reaching {opened state other : State} {holds found : Prop} [Decidable holds]
    [Decidable found] (htested : Tested text opened.skip holds found)
    (hreaching : Reaching text state other) :
    Reaching text (if holds then opened else state) (if found then opened else other) := by
  rcases htested with hiff | ⟨hholds, hlength⟩
  · by_cases hholds : holds
    · rw [if_pos hholds, if_pos (hiff.mp hholds)]
      exact .inl rfl
    · rw [if_neg hholds, if_neg (mt hiff.mpr hholds)]
      exact hreaching
  · rw [if_pos hholds]
    exact .inr hlength

theorem tested_head {mark : UInt8} (hmark : mark ≠ space) :
    Tested text 1 ((text ++ rest).head? = some mark)
      ((text ++ space :: more).head? = some mark) := by
  cases text with
  | cons ch text => exact .inl Iff.rfl
  | nil =>
      by_cases hhead : rest.head? = some mark
      · exact .inr ⟨hhead, Nat.one_pos⟩
      · exact .inl (iff_of_false hhead fun hspace => hmark (Option.some.inj hspace).symm)

theorem tested_isPrefixOf (text rest more : List UInt8) {mark : List UInt8}
    (hmark : space ∉ mark) :
    Tested text mark.length (mark.isPrefixOf (text ++ rest))
      (mark.isPrefixOf (text ++ space :: more)) := by
  induction text generalizing mark with
  | nil =>
      cases mark with
      | nil => exact .inl Iff.rfl
      | cons first mark =>
          have hfirst : first ≠ space := fun heq => hmark (heq ▸ List.mem_cons_self)
          by_cases hbegins : (first :: mark).isPrefixOf rest
          · exact .inr ⟨hbegins, Nat.succ_pos _⟩
          · exact .inl (iff_of_false hbegins (by simp [hfirst]))
  | cons ch text ih =>
      cases mark with
      | nil => exact .inl Iff.rfl
      | cons first mark =>
          have htail := (ih fun hmem => hmark (List.mem_cons_of_mem _ hmem)).and (first = ch)
          simpa [Tested, List.isPrefixOf] using htail

theorem dollarTag_append_space (text rest more : List UInt8) :
    dollarTag (text ++ rest) = dollarTag (text ++ space :: more) ∨
      ∃ tag, dollarTag (text ++ rest) = some tag ∧ text.length ≤ tag.length := by
  by_cases hall : (text.takeWhile tagCont).length = text.length
  · have hspace : dollarTag (text ++ space :: more) = none := by
      have htag : (text ++ space :: more).takeWhile tagCont = text := by
        rw [List.takeWhile_append, if_pos hall]
        simp [space, tagCont, identStart, isLetter, isDigit, underscore]
      rw [dollarTag, htag, List.drop_left, if_neg]
      rintro ⟨-, hclosed⟩
      cases hclosed
    cases htag : dollarTag (text ++ rest) with
    | none => exact .inl hspace.symm
    | some tag =>
        refine .inr ⟨tag, rfl, ?_⟩
        simp only [dollarTag, Option.ite_none_right_eq_some, Option.some.injEq] at htag
        rw [← htag.2, List.takeWhile_append, if_pos hall]
        simp
  · left
    have hsame : ∀ after, (text ++ after).takeWhile tagCont = text.takeWhile tagCont := by
      intro after
      rw [List.takeWhile_append, if_neg hall]
    have hlt : (text.takeWhile tagCont).length < text.length :=
      lt_of_le_of_ne (List.takeWhile_prefix _).length_le hall
    have hdrop : (text.drop (text.takeWhile tagCont).length).head?.isSome := by
      rw [List.head?_drop]
      simpa using hlt
    have hhead : ∀ after, ((text ++ after).drop (text.takeWhile tagCont).length).head? =
        (text.drop (text.takeWhile tagCont).length).head? := by
      intro after
      rw [List.drop_append_of_le_length hlt.le, List.head?_append, Option.or_of_isSome hdrop]
    simp only [dollarTag, hsame, hhead]

theorem reaching_openQuote {mode : Mode} :
    Reaching text (openQuote dialect mode ch (text ++ rest))
      (openQuote dialect mode ch (text ++ space :: more)) := by
  rcases dollarTag_append_space text rest more with heq | ⟨tag, htag, hlength⟩
  · left
    simp only [openQuote, heq]
  · simp only [Reaching, openQuote, htag]
    repeat' split
    all_goals first | exact .inl rfl | exact .inr (Nat.lt_succ_of_le hlength)

theorem reaching_readOutside {mode : Mode} :
    Reaching text (readOutside dialect mode ch (text ++ rest))
      (readOutside dialect mode ch (text ++ space :: more)) := by
  unfold readOutside
  split
  · exact .inl rfl
  split
  · exact .inl rfl
  split
  · exact .inl rfl
  split
  · exact .inl rfl
  apply ((tested_head (by decide)).and _).reaching
  apply ((tested_head (by decide)).and _).reaching
  exact reaching_openQuote

theorem reaching_readQuoted {mode : Mode} {mark : UInt8} (hmark : mark ≠ space) :
    Reaching text (readQuoted mode mark ch (text ++ rest))
      (readQuoted mode mark ch (text ++ space :: more)) := by
  unfold readQuoted
  split
  · exact (tested_head hmark).reaching (.inl rfl)
  · exact .inl rfl

theorem reaching_readBlock {depth : ℕ} :
    Reaching text (readBlock dialect depth ch (text ++ rest))
      (readBlock dialect depth ch (text ++ space :: more)) := by
  have hnested : Reaching text
      (if dialect.nests ∧ ch = slash ∧ (text ++ rest).head? = some asterisk
        then ⟨.block (depth + 1), 1⟩ else ⟨.block depth, 0⟩)
      (if dialect.nests ∧ ch = slash ∧ (text ++ space :: more).head? = some asterisk
        then ⟨.block (depth + 1), 1⟩ else ⟨.block depth, 0⟩) :=
    (((tested_head (by decide)).and _).and _).reaching (.inl rfl)
  unfold readBlock
  cases depth with
  | zero => exact ((tested_head (by decide)).and _).reaching hnested
  | succ outer => exact ((tested_head (by decide)).and _).reaching hnested

/-- What follows a text matters to a byte of it only if a mark reaches over its end. -/
theorem reaching_next (dialect : Dialect) (ch : UInt8) (text rest more : List UInt8)
    (htagged : Tagged state) :
    Reaching text (next dialect state ch (text ++ rest))
      (next dialect state ch (text ++ space :: more)) := by
  obtain ⟨mode, skip⟩ := state
  cases skip with
  | succ skip => exact .inl rfl
  | zero =>
      cases mode with
      | plain | word | number | glued => exact reaching_readOutside
      | single => exact reaching_readQuoted (by decide)
      | double => exact reaching_readQuoted (by decide)
      | escape =>
          unfold next
          dsimp only
          split
          · exact .inl rfl
          · exact reaching_readQuoted (by decide)
      | line => exact .inl rfl
      | block depth => exact reaching_readBlock
      | dollar tag =>
          have hmark : space ∉ tag ++ [dollarSign] := by
            intro hmem
            rcases List.mem_append.mp hmem with htag | hdollar
            · have hspace := htagged tag rfl space htag
              cases hspace
            · cases List.mem_singleton.mp hdollar
          have htested := (tested_isPrefixOf text rest more hmark).and (ch = dollarSign)
          rw [List.length_append] at htested
          exact htested.reaching (.inl rfl)

theorem skip_run (hskip : text.length < state.skip) :
    (run dialect state text rest).skip = state.skip - text.length := by
  induction text generalizing state with
  | nil => rfl
  | cons ch text ih =>
      obtain ⟨mode, skip⟩ := state
      cases skip with
      | zero => cases hskip
      | succ skip =>
          have hstep : next dialect ⟨mode, skip + 1⟩ ch (text ++ rest) = ⟨mode, skip⟩ := rfl
          rw [run, hstep, ih (Nat.lt_of_succ_lt_succ hskip), List.length_cons]
          exact (Nat.succ_sub_succ skip text.length).symm

/-- A text at whose end no byte is passed over is read alike when a space follows it. -/
theorem run_space (htagged : Tagged state) (hskip : (run dialect state text rest).skip = 0) :
    run dialect state text (space :: more) = run dialect state text rest := by
  induction text generalizing state with
  | nil => rfl
  | cons ch text ih =>
      rw [run] at hskip
      rw [run, run]
      rcases reaching_next dialect ch text rest more htagged with heq | hlength
      · rw [← heq]
        exact ih (tagged_next htagged) hskip
      · rw [skip_run hlength] at hskip
        omega

end Lookahead

/-! ## Where the dialects part -/

/-- The places at which `postgres` reads a byte differently from `simple`: an
escape string or a dollar quote opens, a block comment opens inside another one, or
a carriage return stands in a line comment. -/
inductive Special : State → UInt8 → List UInt8 → Prop
  | escape (rest : List UInt8) : Special ⟨.word true, 0⟩ singleQuote rest
  | dollar (mode : Mode) (rest tag : List UInt8) (hmode : mode.outside)
      (htag : dollarTag rest = some tag) : Special ⟨mode, 0⟩ dollarSign rest
  | nested (depth : ℕ) (rest : List UInt8) (hopens : rest.head? = some asterisk) :
      Special ⟨.block depth, 0⟩ slash rest
  | carriageReturn (rest : List UInt8) : Special ⟨.line, 0⟩ carriageReturn rest

section Special

variable {state : State} {ch : UInt8} {text before rest : List UInt8}

theorem openQuote_of_not_special {mode : Mode} (hmode : mode.outside)
    (hspecial : ¬ Special ⟨mode, 0⟩ ch rest) :
    openQuote postgres mode ch rest = openQuote simple mode ch rest := by
  have hquote : ch = singleQuote → mode ≠ .word true := by
    rintro rfl rfl
    exact hspecial (.escape rest)
  have hdollar : ch = dollarSign → dollarTag rest = none := by
    rintro rfl
    by_contra hsome
    obtain ⟨tag, htag⟩ := Option.ne_none_iff_exists'.1 hsome
    exact hspecial (.dollar mode rest tag hmode htag)
  simp only [openQuote, postgres, simple]
  grind

theorem next_of_not_special (hspecial : ¬ Special state ch rest) :
    next postgres state ch rest = next simple state ch rest := by
  obtain ⟨mode, skip⟩ := state
  cases skip with
  | succ skip => rfl
  | zero =>
      cases mode with
      | line =>
          have hch : ch ≠ carriageReturn := by
            rintro rfl
            exact hspecial (.carriageReturn rest)
          simp [next, hch]
      | block depth =>
          have hopens : ch = slash → rest.head? ≠ some asterisk := by
            rintro rfl hhead
            exact hspecial (.nested depth rest hhead)
          simp only [next, readBlock]
          grind
      | single | escape | double | dollar => rfl
      | plain | word | number | glued =>
          simp only [next, readOutside, openQuote_of_not_special rfl hspecial]

/-- Nothing in the text is read differently by the two dialects. -/
def Unspecial (text : List UInt8) : Prop :=
  ∀ before ch rest, text = before ++ ch :: rest →
    ¬ Special (run postgres start before (ch :: rest)) ch rest

theorem run_of_unspecial (hunspecial : Unspecial text) (htext : text = before ++ rest) :
    run postgres start before rest = run simple start before rest := by
  induction before using List.reverseRecOn generalizing rest with
  | nil => rfl
  | append_singleton before ch ih =>
      have hsplit : text = before ++ ch :: rest := by
        rw [htext, List.append_assoc]
        rfl
      rw [run_append, run_append, List.singleton_append, ← ih hsplit]
      exact next_of_not_special (hunspecial before ch rest hsplit)

/-- `postgres` may start a token between `before` and `rest`, where `simple` reads a quote or
a comment. -/
structure Hidden (text before rest : List UInt8) : Prop where
  text : text = before ++ rest
  free : run postgres start before rest = ⟨.plain, 0⟩
  skip : (run simple start before rest).skip = 0
  quoted : (run simple start before rest).mode.outside = false

theorem not_hidden_of_unspecial (hunspecial : Unspecial text) : ¬ Hidden text before rest := by
  intro hhidden
  have hquoted := hhidden.quoted
  rw [← run_of_unspecial hunspecial hhidden.text, hhidden.free] at hquoted
  cases hquoted

/-- The bytes at which the dialects can part. -/
theorem Special.byte (hspecial : Special state ch rest) :
    ch ∈ [singleQuote, dollarSign, slash, SqlLexing.carriageReturn] := by
  cases hspecial <;> decide

theorem unspecial_of_bytes
    (hbytes : ∀ ch ∈ text, ch ∉ [singleQuote, dollarSign, slash, carriageReturn]) :
    Unspecial text := by
  intro before ch rest htext hspecial
  apply hbytes ch _ hspecial.byte
  rw [htext]
  exact List.mem_append_right _ (List.mem_cons_self ..)

end Special

end Conduit.SqlLexing
