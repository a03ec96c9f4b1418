import Conduit.Etl.ExtractSql

/-!
# What the statement filter reads

`sqlTokens` knows quotes with doubling, line comments and flat block comments; it
reads a statement in the dialect `simple`.  What it finds are the words outside all of these,
and what is put inside one of them changes nothing of what it finds.
-/

namespace Conduit.StatementFilter

open SqlLexing Etl

/-! ## The scanner reads the simple dialect -/

/-- The scanner and the automaton are at the same place of a statement. -/
structure Follows (state : State) (scan : Scan) : Prop where
  skip : state.skip = if scan.skip then 1 else 0
  mode : match scan.mode with
    | .outside => state.mode.outside
    | .lineComment => state.mode = .line
    | .blockComment => state.mode = .block 0
    | .singleQuote => state.mode = .single
    | .doubleQuote => state.mode = .double

section Follows

variable {state : State} {scan : Scan} {ch : UInt8} {rest text : Text}

@[simp]
theorem flush_mode (scan : Scan) : scan.flush.mode = scan.mode := by
  rw [Scan.flush]
  split <;> rfl

@[simp]
theorem flush_skip (scan : Scan) : scan.flush.skip = scan.skip := by
  rw [Scan.flush]
  split <;> rfl

@[simp]
theorem flush_builder (scan : Scan) : scan.flush.builder = [] := by
  rw [Scan.flush]
  split
  · assumption
  · rfl

/-- A following byte that is not zero can be told from the end of the text. -/
theorem headD_eq_iff {mark : UInt8} (hmark : mark ≠ 0) :
    rest.headD 0 = mark ↔ rest.head? = some mark := by
  cases rest with
  | nil => simp [hmark.symm]
  | cons head tail => simp

/-- The bytes that open a comment or a quote are no bytes of a word. -/
theorem readOutside_of_not_identCont {dialect : Dialect} {mode : Mode}
    (hch : identCont ch = false) :
    readOutside dialect mode ch rest =
      if ch = hyphen ∧ rest.head? = some hyphen then ⟨.line, 1⟩
      else if ch = slash ∧ rest.head? = some asterisk then ⟨.block 0, 1⟩
      else openQuote dialect mode ch rest := by
  have htag : tagCont ch = false := by
    simp only [identCont, decide_eq_false_iff_not, not_or] at hch
    simpa using hch.1
  have hboth : identStart ch = false ∧ isDigit ch = false := by
    simpa [tagCont] using htag
  simp [readOutside, hch, hboth.1, hboth.2]

theorem tagCont_of_isTokenByte (htoken : isTokenByte ch) : tagCont ch := by
  simp only [isTokenByte, isLetterByte, tagCont, identStart, decide_eq_true_eq] at htoken ⊢
  rcases htoken with (hletter | rfl | rfl | rfl | ⟨hlatin, -⟩) | hdigit | rfl
  · exact .inl (.inl hletter)
  · decide
  · decide
  · decide
  · exact .inl (.inr (.inr (UInt8.le_trans (by decide) hlatin)))
  · exact .inr hdigit
  · decide

theorem follows_outside {mode : Mode} {builder : Text} {tokens : List Text} :
    Follows (readOutside simple mode ch rest)
      (Scan.step ⟨.outside, false, builder, tokens⟩ ch (rest.headD 0)) := by
  have hhyphen : rest.headD 0 = hyphen ↔ rest.head? = some hyphen := headD_eq_iff (by decide)
  have hasterisk : rest.headD 0 = asterisk ↔ rest.head? = some asterisk :=
    headD_eq_iff (by decide)
  simp only [Scan.step, hhyphen, hasterisk, Bool.false_eq_true, if_false]
  by_cases hline : ch = hyphen ∧ rest.head? = some hyphen
  · rw [readOutside_of_not_identCont (by rw [hline.1]; decide), if_pos hline, if_pos hline]
    exact ⟨rfl, rfl⟩
  by_cases hblock : ch = slash ∧ rest.head? = some asterisk
  · rw [readOutside_of_not_identCont (by rw [hblock.1]; decide), if_neg hline, if_neg hline,
      if_pos hblock, if_pos hblock]
    exact ⟨rfl, rfl⟩
  rw [if_neg hline, if_neg hblock]
  by_cases hsingle : ch = singleQuote
  · rw [readOutside_of_not_identCont (by rw [hsingle]; decide), if_neg hline, if_neg hblock,
      if_pos hsingle, openQuote, if_pos hsingle]
    exact ⟨by simp [simple], by simp [simple]⟩
  by_cases hdouble : ch = doubleQuote
  · rw [readOutside_of_not_identCont (by rw [hdouble]; decide), if_neg hline, if_neg hblock,
      if_neg hsingle, if_pos hdouble, openQuote, if_neg hsingle, if_pos hdouble]
    exact ⟨by simp, rfl⟩
  rw [if_neg hsingle, if_neg hdouble]
  have houtside : (readOutside simple mode ch rest).mode.outside ∧
      (readOutside simple mode ch rest).skip = 0 := by
    have hquote : openQuote simple mode ch rest = ⟨.plain, 0⟩ := by
      rw [openQuote, if_neg hsingle, if_neg hdouble, if_neg (by simp [simple])]
    simp only [readOutside, if_neg hline, if_neg hblock, hquote]
    repeat' split
    all_goals exact ⟨rfl, rfl⟩
  split
  · exact ⟨houtside.2, houtside.1⟩
  · refine ⟨?_, ?_⟩
    · rw [flush_skip]
      exact houtside.2
    · rw [flush_mode]
      exact houtside.1

/-- Both readings of quotes close them at a mark that is not doubled. -/
theorem follows_quoted {mode : Mode} {mark : UInt8} (hmark : mark ≠ 0)
    (hskip : scan.skip = false) (hfollows : Follows ⟨mode, 0⟩ scan) :
    Follows (readQuoted mode mark ch rest)
      (if ch = mark then
        if rest.headD 0 = mark then { scan with skip := true }
        else { scan with mode := .outside }
      else scan) := by
  rw [readQuoted]
  by_cases hch : ch = mark
  · rw [if_pos hch, if_pos hch]
    by_cases hdoubled : rest.head? = some mark
    · rw [if_pos hdoubled, if_pos ((headD_eq_iff hmark).2 hdoubled)]
      exact ⟨rfl, hfollows.mode⟩
    · rw [if_neg hdoubled, if_neg (mt (headD_eq_iff hmark).1 hdoubled)]
      exact ⟨by rw [hskip]; rfl, rfl⟩
  · rw [if_neg hch, if_neg hch]
    exact hfollows

theorem follows_step (hfollows : Follows state scan) :
    Follows (next simple state ch rest) (scan.step ch (rest.headD 0)) := by
  obtain ⟨mode, skip⟩ := state
  obtain ⟨scanMode, scanSkip, builder, tokens⟩ := scan
  obtain ⟨hskip, hmode⟩ := hfollows
  cases scanSkip with
  | true =>
      cases hskip
      exact ⟨rfl, hmode⟩
  | false =>
      cases hskip
      cases scanMode with
      | outside =>
          cases mode with
          | plain | word | number | glued => exact follows_outside
          | _ => cases hmode
      | lineComment =>
          cases hmode
          by_cases hch : ch = newline
          · simp only [next, Scan.step, hch, if_true, true_or]
            exact ⟨rfl, rfl⟩
          · simp only [next, Scan.step, hch, simple, Bool.false_eq_true, false_and, or_self,
              if_false]
            exact ⟨rfl, rfl⟩
      | blockComment =>
          cases hmode
          have hslash : rest.headD 0 = slash ↔ rest.head? = some slash :=
            headD_eq_iff (by decide)
          simp only [next, readBlock, Scan.step, hslash, simple, Bool.false_eq_true, false_and,
            if_false]
          split
          · exact ⟨rfl, rfl⟩
          · exact ⟨rfl, rfl⟩
      | singleQuote =>
          cases hmode
          exact follows_quoted (by decide) rfl ⟨rfl, rfl⟩
      | doubleQuote =>
          cases hmode
          exact follows_quoted (by decide) rfl ⟨rfl, rfl⟩

theorem follows_run (hfollows : Follows state scan) :
    Follows (run simple state text rest) (scan.run text rest) := by
  induction text generalizing state scan with
  | nil => exact hfollows
  | cons ch text ih => exact ih (follows_step hfollows)

theorem follows_init (text rest : Text) :
    Follows (run simple start text rest) (Scan.init.run text rest) :=
  follows_run ⟨rfl, rfl⟩

end Follows

/-! ## The tokens it builds -/

section Tokens

variable {scan : Scan} {ch following : UInt8} {text rest word : Text}

theorem scan_run_append (scan : Scan) (text more rest : Text) :
    scan.run (text ++ more) rest = (scan.run text (more ++ rest)).run more rest := by
  induction text generalizing scan with
  | nil => rfl
  | cons ch text ih => rw [List.cons_append, Scan.run, Scan.run, ih, List.append_assoc]

/-- The builder is empty inside quotes and comments. -/
def Idle (scan : Scan) : Prop :=
  scan.mode ≠ .outside ∨ scan.skip = true → scan.builder = []

/-- The builder holds something only right after a byte of a token. -/
theorem idle_step (hidle : Idle scan) :
    Idle (scan.step ch following) ∧
      ((scan.step ch following).builder ≠ [] → isTokenByte ch) := by
  obtain ⟨mode, skip, builder, tokens⟩ := scan
  simp only [Idle] at hidle
  cases skip with
  | true =>
      have hempty := hidle (.inr rfl)
      simp [Scan.step, Idle, hempty]
  | false =>
      cases mode with
      | outside =>
          simp only [Scan.step, Idle]
          grind [flush_builder, flush_mode, flush_skip]
      | _ =>
          have hempty := hidle (.inl (by decide))
          simp only [Scan.step, Idle]
          grind

theorem idle_run (hidle : Idle scan) : Idle (scan.run text rest) := by
  induction text generalizing scan with
  | nil => exact hidle
  | cons ch text ih => exact ih (idle_step hidle).1

theorem isTokenByte_of_builder
    (hbuilder : (Scan.init.run (text ++ [ch]) rest).builder ≠ []) : isTokenByte ch := by
  rw [scan_run_append] at hbuilder
  have hinit : Idle Scan.init := fun _ => rfl
  exact (idle_step (idle_run hinit)).2 hbuilder

theorem tokens_flush (scan : Scan) : scan.tokens <+: scan.flush.tokens := by
  rw [Scan.flush]
  split
  · exact List.prefix_refl _
  · exact List.prefix_append ..

theorem tokens_step (scan : Scan) (ch following : UInt8) :
    scan.tokens <+: (scan.step ch following).tokens := by
  have hflush := tokens_flush scan
  have hself := List.prefix_refl scan.tokens
  obtain ⟨mode, skip, builder, tokens⟩ := scan
  cases skip with
  | true => exact hself
  | false =>
      cases mode <;> simp only [Scan.step, Bool.false_eq_true, if_false] <;>
        repeat' split
      all_goals first | exact hself | exact hflush

theorem tokens_run (scan : Scan) (text rest : Text) :
    scan.tokens <+: (scan.run text rest).tokens := by
  induction text generalizing scan with
  | nil => exact List.prefix_refl _
  | cons ch text ih => exact (tokens_step ..).trans (ih _)

/-- A token ends at a byte that no token goes on with. -/
theorem tokens_step_of_not_isTokenByte (hmode : scan.mode = .outside)
    (hskip : scan.skip = false) (hch : isTokenByte ch = false) :
    (scan.step ch following).tokens = scan.flush.tokens := by
  obtain ⟨mode, skip, builder, tokens⟩ := scan
  cases hmode
  cases hskip
  simp only [Scan.step, hch, Bool.false_eq_true, if_false]
  repeat' split
  all_goals rfl

theorem step_of_isLetter {builder : Text} {tokens : List Text} (hch : isLetter ch) :
    Scan.step ⟨.outside, false, builder, tokens⟩ ch following =
      ⟨.outside, false, builder ++ [ch], tokens⟩ := by
  have hhyphen : ch ≠ hyphen := by
    rintro rfl
    cases hch
  have hslash : ch ≠ slash := by
    rintro rfl
    cases hch
  have hsingle : ch ≠ singleQuote := by
    rintro rfl
    cases hch
  have hdouble : ch ≠ doubleQuote := by
    rintro rfl
    cases hch
  have htoken : isTokenByte ch := by simp [isTokenByte, isLetterByte, hch]
  simp [Scan.step, hhyphen, hslash, hsingle, hdouble, htoken]

theorem run_of_isLetter {builder : Text} {tokens : List Text}
    (hword : ∀ ch ∈ word, isLetter ch) :
    Scan.run ⟨.outside, false, builder, tokens⟩ word rest =
      ⟨.outside, false, builder ++ word, tokens⟩ := by
  induction word generalizing builder with
  | nil => rw [Scan.run, List.append_nil]
  | cons ch word ih =>
      rw [Scan.run, step_of_isLetter (hword ch (List.mem_cons_self ..)),
        ih fun other hother => hword other (List.mem_cons_of_mem _ hother),
        List.append_assoc, List.singleton_append]

/-- A word of letters that the scanner meets outside quotes and comments, between
bytes of no token, is one of its tokens. -/
theorem toLower_mem_sqlTokens {before after : Text} (hword : ∀ ch ∈ word, isLetter ch)
    (hnonempty : word ≠ []) {tokens : List Text}
    (hbefore : Scan.init.run before (word ++ after) = ⟨.outside, false, [], tokens⟩)
    (hafter : ∀ ch ∈ after.head?, isTokenByte ch = false) :
    toLower word ∈ sqlTokens (before ++ word ++ after) := by
  have hread : Scan.init.run (before ++ word) after = ⟨.outside, false, word, tokens⟩ := by
    rw [scan_run_append, hbefore, run_of_isLetter hword, List.nil_append]
  have hflushed : toLower word ∈ (Scan.flush ⟨.outside, false, word, tokens⟩).tokens := by
    rw [Scan.flush, if_neg hnonempty]
    exact List.mem_append_right _ (List.mem_singleton_self _)
  rw [sqlTokens, scan_run_append, List.append_nil, hread]
  cases after with
  | nil => exact hflushed
  | cons ch after =>
      have hends :
          (Scan.step ⟨.outside, false, word, tokens⟩ ch ((after ++ []).headD 0)).tokens =
            (Scan.flush ⟨.outside, false, word, tokens⟩).tokens :=
        tokens_step_of_not_isTokenByte rfl rfl (hafter ch rfl)
      rw [← hends] at hflushed
      rw [Scan.run]
      exact ((tokens_run ..).trans (tokens_flush _)).subset hflushed

end Tokens

/-! ## What it passes over -/

section Pass

variable {scan : Scan} {ch following other : UInt8} {text rest more : Text}

/-- The bytes a mark of two bytes ends with. -/
def secondBytes : List UInt8 := [hyphen, asterisk, slash, singleQuote, doubleQuote]

theorem mem_secondBytes_of_skip (hskip : (scan.step ch following).skip = true) :
    following ∈ secondBytes := by
  obtain ⟨mode, skip, builder, tokens⟩ := scan
  simp only [Scan.step, secondBytes, List.mem_cons] at hskip ⊢
  cases mode <;> grind [flush_skip]

/-- The following byte is looked at for the end of a mark only. -/
theorem step_of_skip_eq_false (hskip : (scan.step ch following).skip = false)
    (hother : other ∉ secondBytes) : scan.step ch other = scan.step ch following := by
  obtain ⟨mode, skip, builder, tokens⟩ := scan
  simp only [secondBytes, List.mem_cons, not_or, List.not_mem_nil] at hother
  simp only [Scan.step] at hskip ⊢
  cases mode <;> grind

theorem scan_run_congr (hhead : rest.headD 0 = more.headD 0) :
    scan.run text rest = scan.run text more := by
  induction text generalizing scan with
  | nil => rfl
  | cons ch text ih =>
      have hfollowing : (text ++ rest).headD 0 = (text ++ more).headD 0 := by
        cases text with
        | nil => exact hhead
        | cons => rfl
      rw [Scan.run, Scan.run, hfollowing]
      exact ih

theorem mem_secondBytes_of_run (hskip : (Scan.init.run text rest).skip = true) :
    rest.headD 0 ∈ secondBytes := by
  rcases List.eq_nil_or_concat text with rfl | ⟨text, ch, rfl⟩
  · cases hskip
  · rw [List.concat_eq_append, scan_run_append] at hskip
    exact mem_secondBytes_of_skip hskip

/-- A text is scanned alike when a space follows it instead of what it is not cut from. -/
theorem scan_run_space (hskip : (Scan.init.run text rest).skip = false) :
    Scan.init.run text (space :: more) = Scan.init.run text rest := by
  rcases List.eq_nil_or_concat text with rfl | ⟨text, ch, rfl⟩
  · rfl
  · rw [List.concat_eq_append, scan_run_append] at hskip
    rw [List.concat_eq_append, scan_run_append, scan_run_append,
      scan_run_congr (show (([ch] ++ space :: more).headD 0) = ([ch] ++ rest).headD 0 from rfl)]
    exact step_of_skip_eq_false hskip (show space ∉ secondBytes by decide)

/-- Inside quotes and comments a byte that ends none of them is passed over. -/
theorem step_quoted (hmode : scan.mode ≠ .outside) (hskip : scan.skip = false)
    (hch : ch ∉ [newline, asterisk, singleQuote, doubleQuote]) :
    scan.step ch following = scan := by
  obtain ⟨mode, skip, builder, tokens⟩ := scan
  simp only [List.mem_cons, not_or, List.not_mem_nil] at hch
  simp only [Scan.step] at hskip hmode ⊢
  cases mode <;> grind

theorem run_quoted (hmode : scan.mode ≠ .outside) (hskip : scan.skip = false)
    (htext : ∀ ch ∈ text, ch ∉ [newline, asterisk, singleQuote, doubleQuote]) :
    scan.run text rest = scan := by
  induction text with
  | nil => rfl
  | cons ch text ih =>
      rw [Scan.run, step_quoted hmode hskip (htext ch List.mem_cons_self)]
      exact ih fun other hother => htext other (List.mem_cons_of_mem _ hother)

/-- Text inside quotes and comments that ends none of them makes no token. -/
theorem sqlTokens_pass (text : Text) {before : Text}
    (hmode : (Scan.init.run before rest).mode ≠ .outside)
    (hskip : (Scan.init.run before rest).skip = false)
    (htext : ∀ ch ∈ text, ch ∉ [newline, asterisk, singleQuote, doubleQuote]) :
    sqlTokens (before ++ space :: text ++ rest) = sqlTokens (before ++ rest) := by
  have hbefore : Scan.init.run before (space :: text ++ rest) = Scan.init.run before rest :=
    scan_run_space hskip
  have hspace : ∀ ch ∈ space :: text, ch ∉ [newline, asterisk, singleQuote, doubleQuote] :=
    List.forall_mem_cons.mpr ⟨by decide, htext⟩
  rw [sqlTokens, sqlTokens, List.append_assoc, scan_run_append, scan_run_append Scan.init,
    List.append_nil, List.append_nil, hbefore, scan_run_append, run_quoted hmode hskip hspace]

/-- Bytes that open no quote and no comment leave the scanner outside of them. -/
theorem run_unmarked (hmode : scan.mode = .outside) (hskip : scan.skip = false)
    (htext : ∀ ch ∈ text, ch ∉ [hyphen, slash, singleQuote, doubleQuote]) :
    (scan.run text rest).mode = .outside := by
  induction text generalizing scan with
  | nil => exact hmode
  | cons ch text ih =>
      obtain ⟨mode, skip, builder, tokens⟩ := scan
      cases hmode
      cases hskip
      obtain ⟨hch, htext⟩ := List.forall_mem_cons.mp htext
      simp only [List.mem_cons, List.not_mem_nil, or_false, not_or] at hch
      rw [Scan.run]
      apply ih _ _ htext
      · simp only [Scan.step, hch]
        grind [flush_mode]
      · simp only [Scan.step, hch]
        grind [flush_skip]

end Pass

end Conduit.StatementFilter
