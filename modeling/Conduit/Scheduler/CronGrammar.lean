import Conduit.Scheduler.CronLoops
import Conduit.Scheduler.NextOccurrence

/-!
# The cron grammar

The forms a part of a field can have, when a text is written in one of them and which
values it then denotes, without the parser's order of tests.  `Parse` accepts exactly the
five-field expressions written in these forms, and the sets it builds are what the parts
denote.

Both bounds of a range are integers as `Atoi` reads them, so the upper one can have a sign.
The lower one cannot have a minus: the first `-` of a part separates the two.
-/

namespace Conduit.Cron

/-! ## Forms -/

inductive Form
  | every
  | step (count : ℤ)
  | range (low high : ℤ)
  | value (number : ℤ)
  deriving DecidableEq

/-- A part is written in a form, for a field from `min` to `max`.  `Lower` says which texts
can be the lower bound of a range. -/
def Form.Written (Lower : List Char → Prop) (min max : ℤ) (part : List Char) : Form → Prop
  | .every => part = ['*']
  | .step count => ∃ number, part = '*' :: '/' :: number ∧ atoi number = some count ∧ 0 < count
  | .range low high =>
      ¬['*', '/'] <+: part ∧
        ∃ left right, part = left ++ '-' :: right ∧ Lower left ∧
          atoi left = some low ∧ atoi right = some high ∧ min ≤ low ∧ low ≤ high ∧ high ≤ max
  | .value number => '-' ∉ part ∧ atoi part = some number ∧ min ≤ number ∧ number ≤ max

/-- The values a form denotes in a field that starts at `min`. -/
def Form.Denotes (min : ℤ) : Form → ℤ → Prop
  | .every, _ => True
  | .step count, denoted => ∃ times : ℕ, denoted = min + times * count
  | .range low high, denoted => low ≤ denoted ∧ denoted ≤ high
  | .value number, denoted => denoted = number

/-- The first dash separates the bounds of a range. -/
def Unsigned (left : List Char) : Prop :=
  '-' ∉ left

/-- Every part of a field is written in some form. -/
def Grammatical (Lower : List Char → Prop) (min max : ℤ) (text : List Char) : Prop :=
  ∀ part ∈ text.splitOn ',', ∃ form : Form, form.Written Lower min max part

/-- Some part of a field denotes the value. -/
def Denoted (min max : ℤ) (text : List Char) (value : ℤ) : Prop :=
  ∃ part ∈ text.splitOn ',', ∃ form : Form,
    form.Written Unsigned min max part ∧ form.Denotes min value

namespace FieldName

def min : FieldName → ℤ
  | .minute | .hour | .dayOfWeek => 0
  | .dayOfMonth | .month => 1

def max : FieldName → ℤ
  | .minute => 59
  | .hour => 23
  | .dayOfMonth => 31
  | .month => 12
  | .dayOfWeek => 6

theorem bounds (name : FieldName) : 0 ≤ name.min ∧ name.min ≤ name.max ∧ name.max < 2 ^ 62 := by
  cases name <;> decide

end FieldName

def CronSchedule.entries (cron : CronSchedule) : FieldName → List Bool
  | .minute => cron.minutes
  | .hour => cron.hours
  | .dayOfMonth => cron.doms
  | .month => cron.months
  | .dayOfWeek => cron.dows

/-- The five fields of an expression. -/
def FiveFields (expr : String) (texts : FieldName → List Char) : Prop :=
  fields expr.toList =
    [texts .minute, texts .hour, texts .dayOfMonth, texts .month, texts .dayOfWeek]

/-! ## One part -/

/-- The entries a form covers. -/
def Form.covers (min : ℤ) : Form → ℤ → Bool
  | .every, _ => true
  | .step count, offset => offset % count = 0
  | .range low high, offset => low ≤ min + offset ∧ min + offset ≤ high
  | .value number, offset => min + offset = number

section Part

variable {min max : ℤ} {result written : List Bool} {part : List Char} {form : Form}

theorem atoi_star (rest : List Char) : atoi ('*' :: rest) = none := by
  simp [atoi, decimal]

theorem ne_dash_of_unsigned {left : List Char} (hleft : Unsigned left) :
    ∀ char ∈ left, decide (char ≠ '-') = true := by
  intro char hchar
  rw [decide_eq_true_eq]
  rintro rfl
  exact hleft hchar

theorem takeWhile_of_unsigned {left : List Char} (hleft : Unsigned left) (right : List Char) :
    (left ++ '-' :: right).takeWhile (· ≠ '-') = left := by
  rw [List.takeWhile_append_of_pos (ne_dash_of_unsigned hleft)]
  simp

theorem dropWhile_of_unsigned {left : List Char} (hleft : Unsigned left) (right : List Char) :
    ((left ++ '-' :: right).dropWhile (· ≠ '-')).tail = right := by
  rw [List.dropWhile_append_of_pos (ne_dash_of_unsigned hleft)]
  simp

/-- A part that is written in a form marks what the form covers. -/
theorem parsePart_of_written (hwritten : form.Written Unsigned min max part)
    (result : List Bool) :
    parsePart min max result part = .ok (mark result (form.covers min)) := by
  cases form with
  | every =>
      have hpart : part = ['*'] := hwritten
      rw [parsePart, if_pos hpart]
      rfl
  | step count =>
      obtain ⟨number, rfl, hnumber, hpositive⟩ := hwritten
      have hslash : ['*', '/'].isPrefixOf ('*' :: '/' :: number) = true := by simp
      rw [parsePart, if_neg (by simp), if_pos hslash]
      simp only [List.drop_succ_cons, List.drop_zero, hnumber, if_neg (not_le.mpr hpositive)]
      rfl
  | range low high =>
      obtain ⟨hslash, left, right, rfl, hleft, hlow, hhigh, hmin, horder, hmax⟩ := hwritten
      have hdash : '-' ∈ left ++ '-' :: right := by simp
      have hstar : left ++ '-' :: right ≠ ['*'] := by
        intro hstar
        rw [hstar] at hdash
        simp at hdash
      have hslash' : ¬['*', '/'].isPrefixOf (left ++ '-' :: right) = true := by
        rwa [List.isPrefixOf_iff_prefix]
      rw [parsePart, if_neg hstar, if_neg hslash', if_pos hdash,
        takeWhile_of_unsigned hleft, dropWhile_of_unsigned hleft, hlow, hhigh]
      have hinside : ¬(low < min ∨ max < high ∨ high < low) := by omega
      simp only [if_neg hinside]
      rfl
  | value number =>
      obtain ⟨hdash, hnumber, hmin, hmax⟩ := hwritten
      have hstar : part ≠ ['*'] := by
        rintro rfl
        rw [atoi_star] at hnumber
        cases hnumber
      have hslash : ¬['*', '/'].isPrefixOf part = true := by
        rw [List.isPrefixOf_iff_prefix]
        rintro ⟨rest, rfl⟩
        rw [List.cons_append, atoi_star] at hnumber
        cases hnumber
      have hinside : ¬(number < min ∨ max < number) := by omega
      rw [parsePart, if_neg hstar, if_neg hslash, if_neg hdash]
      simp only [hnumber, if_neg hinside]
      rfl

/-- A part that is accepted is written in a form. -/
theorem written_of_parsePart (hok : parsePart min max result part = .ok written) :
    ∃ form : Form, form.Written Unsigned min max part := by
  unfold parsePart at hok
  by_cases hevery : part = ['*']
  · exact ⟨.every, hevery⟩
  rw [if_neg hevery] at hok
  by_cases hslash : ['*', '/'].isPrefixOf part = true
  · rw [if_pos hslash] at hok
    obtain ⟨number, rfl⟩ := List.isPrefixOf_iff_prefix.mp hslash
    cases hnumber : atoi number with
    | none => simp [hnumber] at hok
    | some step =>
        by_cases hstep : step ≤ 0
        · simp [hnumber, hstep] at hok
        · exact ⟨.step step, number, rfl, hnumber, not_le.mp hstep⟩
  rw [if_neg hslash] at hok
  by_cases hdash : '-' ∈ part
  · rw [if_pos hdash] at hok
    obtain ⟨left, right, rfl, hleft⟩ := List.eq_append_cons_of_mem hdash
    rw [takeWhile_of_unsigned hleft, dropWhile_of_unsigned hleft] at hok
    cases hlow : atoi left with
    | none => simp [hlow] at hok
    | some low =>
        cases hhigh : atoi right with
        | none => simp [hlow, hhigh] at hok
        | some high =>
            by_cases houtside : low < min ∨ max < high ∨ high < low
            · simp [hlow, hhigh, houtside] at hok
            · refine ⟨.range low high, ?_, left, right, rfl, hleft, hlow, hhigh, ?_⟩
              · rwa [List.isPrefixOf_iff_prefix] at hslash
              · omega
  · rw [if_neg hdash] at hok
    cases hnumber : atoi part with
    | none => simp [hnumber] at hok
    | some value =>
        by_cases houtside : value < min ∨ max < value
        · simp [hnumber, houtside] at hok
        · exact ⟨.value value, hdash, hnumber, by omega, by omega⟩

theorem getD_mark {covers : ℤ → Bool} {index : ℕ} (hindex : index < result.length) :
    (mark result covers).getD index false = (result.getD index false || covers index) := by
  rw [List.getD_eq_getElem?_getD, List.getD_eq_getElem?_getD, getElem?_mark,
    List.getElem?_eq_getElem hindex]
  rfl

/-- A part means one thing: two forms it is written in cover the same entries. -/
theorem Form.covers_eq {other : Form} (hform : form.Written Unsigned min max part)
    (hother : other.Written Unsigned min max part) (index : ℕ) :
    form.covers min index = other.covers min index := by
  have hsame := (parsePart_of_written hform (List.replicate (index + 1) false)).symm.trans
    (parsePart_of_written hother (List.replicate (index + 1) false))
  have hindex : index < (List.replicate (index + 1) false).length := by simp
  have hentry := congrArg (fun entries => entries.getD index false) (Except.ok.inj hsame)
  simp only [getD_mark hindex] at hentry
  simpa using hentry

/-- A form covers the entries of the values it denotes. -/
theorem Form.covers_iff (hwritten : form.Written Unsigned min max part) {value : ℤ}
    (hvalue : min ≤ value) :
    form.covers min (value - min) = true ↔ form.Denotes min value := by
  cases form with
  | every => exact iff_of_true rfl trivial
  | step count =>
      obtain ⟨number, -, -, hpositive⟩ := hwritten
      rw [Form.covers, decide_eq_true_eq, ← Int.dvd_iff_emod_eq_zero]
      constructor
      · rintro ⟨times, htimes⟩
        have hnonneg : 0 ≤ times := by
          by_contra hnegative
          have hless : count * times < 0 := Int.mul_neg_of_pos_of_neg hpositive (by omega)
          omega
        refine ⟨times.toNat, ?_⟩
        rw [Int.toNat_of_nonneg hnonneg, mul_comm, ← htimes]
        omega
      · rintro ⟨times, rfl⟩
        exact ⟨times, by rw [add_sub_cancel_left, mul_comm]⟩
  | range low high =>
      rw [Form.covers, decide_eq_true_eq, Form.Denotes]
      omega
  | value number =>
      rw [Form.covers, decide_eq_true_eq, Form.Denotes]
      omega

/-- A form that a part is written in denotes some value of the field. -/
theorem Form.exists_denotes (hrange : min ≤ max) (hwritten : form.Written Unsigned min max part) :
    ∃ value, min ≤ value ∧ value ≤ max ∧ form.Denotes min value := by
  cases form with
  | every => exact ⟨min, le_rfl, hrange, trivial⟩
  | step count => exact ⟨min, le_rfl, hrange, 0, by simp⟩
  | range low high =>
      obtain ⟨-, left, right, -, -, -, -, hmin, horder, hmax⟩ := hwritten
      exact ⟨low, hmin, by omega, le_rfl, horder⟩
  | value number => exact ⟨number, hwritten.2.2.1, hwritten.2.2.2, rfl⟩

end Part

/-! ## One field -/

section Field

variable {min max : ℤ} {result entries : List Bool} {parts : List (List Char)}

theorem parseParts_of_written (result : List Bool)
    (hwritten : ∀ part ∈ parts, ∃ form : Form, form.Written Unsigned min max part) :
    ∃ entries, parts.foldlM (parsePart min max) result = .ok entries := by
  induction parts generalizing result with
  | nil => exact ⟨result, rfl⟩
  | cons part parts ih =>
      obtain ⟨⟨form, hpart⟩, hparts⟩ := List.forall_mem_cons.mp hwritten
      rw [List.foldlM_cons, parsePart_of_written hpart]
      exact ih _ hparts

/-- When the parts of a field are accepted they are written in forms, and the entries set
are those that were set before and those that some part covers. -/
theorem parseParts_spec (hok : parts.foldlM (parsePart min max) result = .ok entries) :
    (∀ part ∈ parts, ∃ form : Form, form.Written Unsigned min max part) ∧
      entries.length = result.length ∧
      ∀ index < result.length, (entries.getD index false = true ↔
        result.getD index false = true ∨
          ∃ part ∈ parts, ∃ form : Form,
            form.Written Unsigned min max part ∧ form.covers min index = true) := by
  induction parts generalizing result with
  | nil =>
      cases hok
      simp
  | cons part parts ih =>
      rw [List.foldlM_cons] at hok
      cases hpart : parsePart min max result part with
      | error error => simp [hpart, bind, Except.bind] at hok
      | ok marked =>
          obtain ⟨form, hform⟩ := written_of_parsePart hpart
          have hmarked : marked = mark result (form.covers min) := by
            rw [parsePart_of_written hform] at hpart
            exact (Except.ok.inj hpart).symm
          rw [hpart] at hok
          obtain ⟨hparts, hlength, hentries⟩ := ih hok
          rw [hmarked, length_mark] at hlength hentries
          refine ⟨List.forall_mem_cons.mpr ⟨⟨form, hform⟩, hparts⟩, hlength, ?_⟩
          intro index hindex
          rw [hentries index hindex, getD_mark hindex, Bool.or_eq_true, or_assoc,
            List.exists_mem_cons_iff]
          apply or_congr_right
          apply or_congr_left
          constructor
          · intro hcovers
            exact ⟨form, hform, hcovers⟩
          · rintro ⟨other, hother, hcovers⟩
            rwa [Form.covers_eq hform hother]

/-- The pieces of a text hold its characters, and no separator. -/
theorem mem_of_mem_splitOnP {separates : Char → Bool} {text piece : List Char}
    (hpiece : piece ∈ text.splitOnP separates) :
    ∀ char ∈ piece, char ∈ text ∧ separates char = false := by
  induction text generalizing piece with
  | nil =>
      rw [List.splitOnP_nil, List.mem_singleton] at hpiece
      simp [hpiece]
  | cons head text ih =>
      have hrest : ∀ other ∈ text.splitOnP separates, ∀ char ∈ other,
          char ∈ head :: text ∧ separates char = false := by
        intro other hother char hchar
        obtain ⟨hmem, hplain⟩ := ih hother char hchar
        exact ⟨List.mem_cons_of_mem head hmem, hplain⟩
      rw [List.splitOnP_cons_eq_if_modifyHead] at hpiece
      by_cases hhead : separates head = true
      · rw [if_pos hhead, List.mem_cons] at hpiece
        rcases hpiece with rfl | hpiece
        · simp
        · exact hrest piece hpiece
      · rw [if_neg hhead] at hpiece
        cases hpieces : text.splitOnP separates with
        | nil => exact absurd hpieces (List.splitOnP_ne_nil separates text)
        | cons first others =>
            rw [hpieces] at hpiece hrest
            rcases List.mem_cons.mp hpiece with rfl | hother
            · intro char hchar
              rcases List.mem_cons.mp hchar with rfl | hchar
              · exact ⟨List.mem_cons_self, Bool.eq_false_of_not_eq_true hhead⟩
              · exact hrest first List.mem_cons_self char hchar
            · exact hrest piece (List.mem_cons_of_mem first hother)

/-- In a field there is no space left to trim. -/
theorem parseField_eq {text : List Char} (htext : ∀ char ∈ text, isSpace char = false) :
    parseField text min max =
      (text.splitOn ',').foldlM (parsePart min max)
        (List.replicate (max - min + 1).toNat false) := by
  have hparts : ∀ part ∈ text.splitOn ',', trimSpace part = part := by
    intro part hpart
    apply trimSpace_eq_self
    intro char hchar
    exact htext char (mem_of_mem_splitOnP hpart char hchar).1
  unfold parseField
  generalize List.replicate (max - min + 1).toNat false = result
  generalize text.splitOn ',' = parts at hparts
  induction parts generalizing result with
  | nil => rfl
  | cons part parts ih =>
      obtain ⟨hpart, hrest⟩ := List.forall_mem_cons.mp hparts
      rw [List.foldlM_cons, List.foldlM_cons, hpart]
      congr 1
      funext written
      exact ih written hrest

variable {text : List Char}

/-- A field is accepted exactly when it is grammatical. -/
theorem parseField_iff (htext : ∀ char ∈ text, isSpace char = false) :
    (∃ entries, parseField text min max = .ok entries) ↔
      Grammatical Unsigned min max text := by
  rw [parseField_eq htext]
  constructor
  · rintro ⟨entries, hok⟩
    exact (parseParts_spec hok).1
  · exact parseParts_of_written _

/-- The set of an accepted field holds the values that some part denotes. -/
theorem contains_iff_denoted (htext : ∀ char ∈ text, isSpace char = false)
    (hok : parseField text min max = .ok entries) {value : ℤ} (hmin : min ≤ value)
    (hmax : value ≤ max) :
    CronSchedule.contains entries (value - min) = true ↔ Denoted min max text value := by
  rw [parseField_eq htext] at hok
  have hindex : (value - min).toNat < (List.replicate (max - min + 1).toNat false).length := by
    rw [List.length_replicate]
    omega
  have hentry := (parseParts_spec hok).2.2 _ hindex
  have hoffset : ((value - min).toNat : ℤ) = value - min := Int.toNat_of_nonneg (by omega)
  rw [hoffset] at hentry
  have hempty : (List.replicate (max - min + 1).toNat false).getD (value - min).toNat false =
      false := by
    rw [List.getD_eq_getElem?_getD, List.getElem?_replicate]
    split <;> rfl
  rw [hempty] at hentry
  rw [CronSchedule.contains, hentry, Denoted]
  simp only [Bool.false_eq_true, false_or]
  constructor
  · rintro ⟨part, hpart, form, hform, hcovers⟩
    exact ⟨part, hpart, form, hform, (form.covers_iff hform hmin).mp hcovers⟩
  · rintro ⟨part, hpart, form, hform, hdenotes⟩
    exact ⟨part, hpart, form, hform, (form.covers_iff hform hmin).mpr hdenotes⟩

theorem exists_denoted (hrange : min ≤ max) (hgrammatical : Grammatical Unsigned min max text) :
    ∃ value, min ≤ value ∧ value ≤ max ∧ Denoted min max text value := by
  cases hparts : text.splitOn ',' with
  | nil => exact absurd hparts (List.splitOn_ne_nil ',' text)
  | cons part parts =>
      have hpart : part ∈ text.splitOn ',' := by
        rw [hparts]
        exact List.mem_cons_self
      obtain ⟨form, hform⟩ := hgrammatical part hpart
      obtain ⟨value, hmin, hmax, hdenotes⟩ := form.exists_denotes hrange hform
      exact ⟨value, hmin, hmax, part, hpart, form, hform, hdenotes⟩

end Field

/-! ## The whole expression -/

theorem isSpace_of_mem_fields {text field : List Char} (hfield : field ∈ fields text) :
    ∀ char ∈ field, isSpace char = false := by
  intro char hchar
  exact (mem_of_mem_splitOnP (List.mem_filter.mp hfield).1 char hchar).2

theorem FiveFields.isSpace {expr : String} {texts : FieldName → List Char}
    (hfive : FiveFields expr texts) (name : FieldName) :
    ∀ char ∈ texts name, Cron.isSpace char = false := by
  apply isSpace_of_mem_fields
  rw [hfive]
  cases name <;> simp

theorem mapError_bind_eq_ok {α β : Type} {read : Except FieldError α}
    {wrap : FieldError → ParseError} {next : α → Except ParseError β} {result : β} :
    read.mapError wrap >>= next = .ok result ↔
      ∃ value, read = .ok value ∧ next value = .ok result := by
  cases read <;> simp [Except.mapError, bind, Except.bind]

theorem FieldName.forall_iff {P : FieldName → Prop} :
    (∀ name, P name) ↔ P .minute ∧ P .hour ∧ P .dayOfMonth ∧ P .month ∧ P .dayOfWeek := by
  constructor
  · intro hall
    exact ⟨hall _, hall _, hall _, hall _, hall _⟩
  · rintro ⟨hminute, hhour, hdom, hmonth, hdow⟩ name
    cases name <;> assumption

/-- `Parse` accepts an expression of five fields when it accepts each of them. -/
theorem parse_eq_ok_iff {expr : String} {texts : FieldName → List Char}
    (hfive : FiveFields expr texts) (cron : CronSchedule) :
    parse expr = .ok cron ↔
      ∀ name, parseField (texts name) name.min name.max = .ok (cron.entries name) := by
  rw [parse, hfive, FieldName.forall_iff]
  simp only [mapError_bind_eq_ok]
  constructor
  · rintro ⟨minutes, hminutes, hours, hhours, doms, hdoms, months, hmonths, dows, hdows, hcron⟩
    cases hcron
    exact ⟨hminutes, hhours, hdoms, hmonths, hdows⟩
  · rintro ⟨hminutes, hhours, hdoms, hmonths, hdows⟩
    exact ⟨_, hminutes, _, hhours, _, hdoms, _, hmonths, _, hdows, rfl⟩

/-- It accepts no others. -/
theorem fiveFields_of_parse {expr : String} {cron : CronSchedule}
    (hparse : parse expr = .ok cron) : ∃ texts, FiveFields expr texts := by
  unfold parse at hparse
  split at hparse
  · rename_i minute hour dom month dow hfields
    refine ⟨fun name => match name with
      | .minute => minute
      | .hour => hour
      | .dayOfMonth => dom
      | .month => month
      | .dayOfWeek => dow, hfields⟩
  · cases hparse

/-- An expression of five fields each of which is written in the grammar. -/
def InGrammar (Lower : List Char → Prop) (expr : String) : Prop :=
  ∃ texts, FiveFields expr texts ∧
    ∀ name : FieldName, Grammatical Lower name.min name.max (texts name)

theorem parse_iff_inGrammar (expr : String) :
    (∃ cron, parse expr = .ok cron) ↔ InGrammar Unsigned expr := by
  constructor
  · rintro ⟨cron, hparse⟩
    obtain ⟨texts, hfive⟩ := fiveFields_of_parse hparse
    refine ⟨texts, hfive, ?_⟩
    intro name
    rw [← parseField_iff (hfive.isSpace name)]
    exact ⟨cron.entries name, (parse_eq_ok_iff hfive cron).mp hparse name⟩
  · rintro ⟨texts, hfive, hgrammatical⟩
    have hentries : ∀ name, ∃ entries,
        parseField (texts name) name.min name.max = .ok entries := by
      intro name
      exact (parseField_iff (hfive.isSpace name)).mpr (hgrammatical name)
    choose entries hok using hentries
    refine ⟨⟨entries .minute, entries .hour, entries .dayOfMonth, entries .month,
      entries .dayOfWeek⟩, ?_⟩
    rw [parse_eq_ok_iff hfive, FieldName.forall_iff]
    exact ⟨hok _, hok _, hok _, hok _, hok _⟩

/-- `Parse` accepts exactly the expressions of the grammar; the set of each field holds the
values its parts denote, at least one of them; and no text makes `parseField` leave its
slice or loop. -/
theorem parse_means_grammar (expr : String) :
    ((∃ cron, parse expr = .ok cron) ↔ InGrammar Unsigned expr) ∧
      (∀ cron texts, parse expr = .ok cron → FiveFields expr texts →
        ∀ name : FieldName,
          (∀ value, name.min ≤ value → value ≤ name.max →
            (CronSchedule.contains (cron.entries name) (value - name.min) = true ↔
              Denoted name.min name.max (texts name) value)) ∧
          ∃ value, name.min ≤ value ∧ value ≤ name.max ∧
            CronSchedule.contains (cron.entries name) (value - name.min) = true) ∧
      ∀ (text : List Char) (name : FieldName),
        writeField text name.min name.max = some (parseField text name.min name.max) := by
  refine ⟨parse_iff_inGrammar expr, ?_, ?_⟩
  · intro cron texts hparse hfive name
    have htext := hfive.isSpace name
    have hok := (parse_eq_ok_iff hfive cron).mp hparse name
    have hcontains : ∀ value, name.min ≤ value → value ≤ name.max →
        (CronSchedule.contains (cron.entries name) (value - name.min) = true ↔
          Denoted name.min name.max (texts name) value) := by
      intro value hmin hmax
      exact contains_iff_denoted htext hok hmin hmax
    refine ⟨hcontains, ?_⟩
    obtain ⟨value, hmin, hmax, hdenoted⟩ :=
      exists_denoted name.bounds.2.1 ((parseField_iff htext).mp ⟨_, hok⟩)
    exact ⟨value, hmin, hmax, (hcontains value hmin hmax).mpr hdenoted⟩
  · intro text name
    exact writeField_eq text name.bounds.1 name.bounds.2.2 name.bounds.2.1

/-- The fields of an expression that uses every form. -/
def weekdayTexts : FieldName → List Char
  | .minute => ['*', '/', '1', '5']
  | .hour => ['9', '-', '1', '7']
  | .dayOfMonth => ['*']
  | .month => ['1', ',', '7']
  | .dayOfWeek => ['1', '-', '5']

theorem parse_means_grammar_weekdays :
    (∃ cron, parse "*/15 9-17 * 1,7 1-5" = .ok cron) ∧
      Denoted 0 59 (weekdayTexts .minute) 45 ∧ ¬Denoted 0 6 (weekdayTexts .dayOfWeek) 0 := by
  have hfive : FiveFields "*/15 9-17 * 1,7 1-5" weekdayTexts := by
    unfold FiveFields
    decide +kernel
  have hsets : (parse "*/15 9-17 * 1,7 1-5").map (fun cron =>
      (CronSchedule.contains cron.minutes 45, CronSchedule.contains cron.dows 0)) =
        .ok (true, false) := by
    decide +kernel
  cases hparse : parse "*/15 9-17 * 1,7 1-5" with
  | error error =>
      rw [hparse] at hsets
      cases hsets
  | ok cron =>
      rw [hparse] at hsets
      obtain ⟨hminute, hdow⟩ := Prod.mk.inj (Except.ok.inj hsets)
      have hspec := (parse_means_grammar _).2.1 cron weekdayTexts hparse hfive
      refine ⟨⟨cron, rfl⟩, ?_, ?_⟩
      · exact ((hspec .minute).1 45 (by decide) (by decide)).mp hminute
      · intro hdenoted
        have hsunday := ((hspec .dayOfWeek).1 0 (by decide) (by decide)).mpr hdenoted
        exact Bool.false_ne_true (hdow.symm.trans hsunday)

def signedTexts (name : FieldName) : List Char :=
  if name = .minute then ['-', '0', '-', '5'] else ['*']

/-- A lower bound can be an integer that `Atoi` reads, with a sign and inside the field, and
is refused all the same: the sign is taken for the dash of the range. -/
theorem not_forall_parse_iff :
    ¬∀ expr : String, (∃ cron, parse expr = .ok cron) ↔ InGrammar (fun _ => True) expr := by
  intro hall
  have hrefused : (parse "-0-5 * * * *").toOption = none := by decide +kernel
  have hgrammar : InGrammar (fun _ => True) "-0-5 * * * *" := by
    refine ⟨signedTexts, ?_, ?_⟩
    · unfold FiveFields
      decide +kernel
    · intro name part hpart
      by_cases hminute : name = .minute
      · rw [signedTexts, if_pos hminute, List.splitOn_eq_singleton (by decide),
          List.mem_singleton] at hpart
        refine ⟨.range 0 5, ?_, ['-', '0'], ['5'], ?_⟩
        · rw [hpart]
          decide
        · rw [hpart, hminute]
          exact ⟨rfl, trivial, by decide +kernel, by decide +kernel, by decide⟩
      · rw [signedTexts, if_neg hminute, List.splitOn_eq_singleton (by decide),
          List.mem_singleton] at hpart
        exact ⟨.every, hpart⟩
  obtain ⟨cron, hparse⟩ := (hall _).mpr hgrammar
  rw [hparse] at hrefused
  cases hrefused

end Conduit.Cron
