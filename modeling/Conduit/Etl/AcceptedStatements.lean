import Mathlib.Data.Bool.AllAny
import Conduit.Etl.StatementFilter

/-!
# What the statement filter lets through

A word the filter forbids passes it only where one of the rules that Postgres has and the
scanner lacks has led the two readings apart, so that the scanner takes the word for quoted
text or a comment.  Each place of that kind in an accepted statement lets one through.
-/

namespace Conduit.StatementFilter

open SqlLexing Etl

/-! ## Accepted statements -/

section Trim

variable {patterns : List Text} {text : Text}

/-- None of the patterns starts the text. -/
def Bare (patterns : List Text) (text : Text) : Prop :=
  ∀ pattern ∈ patterns, pattern.isPrefixOf text = false

theorem find_eq_none_of_bare (hbare : Bare patterns text) :
    patterns.find? (·.isPrefixOf text) = none :=
  List.find?_eq_none.mpr fun pattern hpattern => by simp [hbare pattern hpattern]

theorem trimLeft_of_bare (hbare : Bare patterns text) : trimLeft patterns text = text := by
  rw [trimLeft]
  cases text.length with
  | zero => rfl
  | succ rounds => rw [trimPatterns, find_eq_none_of_bare hbare]

/-- Enough rounds leave no pattern in front. -/
theorem bare_trimPatterns (hpatterns : [] ∉ patterns) {rounds : ℕ}
    (hrounds : text.length ≤ rounds) : Bare patterns (trimPatterns patterns rounds text) := by
  induction rounds generalizing text with
  | zero =>
      rw [trimPatterns, List.length_eq_zero_iff.mp (Nat.le_zero.mp hrounds)]
      intro pattern hpattern
      cases pattern with
      | nil => exact absurd hpattern hpatterns
      | cons ch pattern => rfl
  | succ rounds ih =>
      rw [trimPatterns]
      cases hfind : patterns.find? (·.isPrefixOf text) with
      | none =>
          intro pattern hpattern
          exact Bool.eq_false_iff.mpr (List.find?_eq_none.mp hfind pattern hpattern)
      | some pattern =>
          have hmem := List.mem_of_find?_eq_some hfind
          have hpositive : 0 < pattern.length := by
            rw [List.length_pos_iff]
            rintro rfl
            exact hpatterns hmem
          apply ih
          rw [List.length_drop]
          omega

theorem bare_trimLeft (hpatterns : [] ∉ patterns) : Bare patterns (trimLeft patterns text) :=
  bare_trimPatterns hpatterns le_rfl

/-- A pattern without the byte ends before it. -/
theorem prefix_of_notMem {pattern more : Text} {ch : UInt8} (hch : ch ∉ pattern)
    (hbegins : pattern <+: text ++ ch :: more) : pattern <+: text := by
  rcases List.prefix_or_prefix_of_prefix hbegins (List.prefix_append ..) with hshort | ⟨tail, rfl⟩
  · exact hshort
  · cases tail with
    | nil => exact (List.append_nil text).symm ▸ List.prefix_refl text
    | cons first tail =>
        have hfirst : first = ch := (List.cons_prefix_cons.mp
          ((List.prefix_append_right_inj text).mp hbegins)).1
        exact absurd (List.mem_append_right _ (hfirst ▸ List.mem_cons_self)) hch

theorem bare_append (text rest more : Text) {ch : UInt8}
    (hch : ∀ pattern ∈ patterns, ch ∉ pattern) (hbare : Bare patterns (text ++ rest)) :
    Bare patterns (text ++ ch :: more) := by
  intro pattern hpattern
  rw [Bool.eq_false_iff]
  intro hbegins
  have hshort := prefix_of_notMem (hch pattern hpattern) (List.isPrefixOf_iff_prefix.mp hbegins)
  have hlong := List.isPrefixOf_iff_prefix.mpr (hshort.trans (List.prefix_append text rest))
  rw [hbare pattern hpattern] at hlong
  cases hlong

end Trim

/-- What a statement that passes the filter is like. -/
structure Accepted (out : Text) : Prop where
  trimmed : Bare (spaces.map List.reverse) out.reverse
  starts : (ascii "select ").isPrefixOf (toLower out) ∨ (ascii "with ").isPrefixOf (toLower out)
  first : ∃ token ∈ (sqlTokens out).head?, token = ascii "select" ∨ token = ascii "with"
  allowed : ∀ token ∈ sqlTokens out, forbiddenSQLToken token = false

theorem Accepted.of_normalizeExtractSQL {sql out : Text}
    (haccepted : normalizeExtractSQL sql = .ok out) : Accepted out := by
  have htrimmed : ∀ text, Bare (spaces.map List.reverse) (trimSpace text).reverse := by
    intro text
    rw [trimSpace, List.reverse_reverse]
    exact bare_trimLeft (by decide)
  rw [normalizeExtractSQL] at haccepted
  generalize trimSuffix (ascii ";") (trimSpace sql) = text at haccepted
  specialize htrimmed text
  generalize trimSpace text = trimmed at haccepted htrimmed
  split at haccepted
  · cases haccepted
  · rename_i hstarts
    split at haccepted
    · cases haccepted
    · rename_i first others htokens
      split at haccepted
      · cases haccepted
      · rename_i hfirst
        split at haccepted
        · cases haccepted
        · rename_i hfind
          cases haccepted
          refine ⟨htrimmed, ?_, ?_, ?_⟩
          · tauto
          · rw [htokens]
            exact ⟨first, rfl, by tauto⟩
          · rw [htokens]
            intro token htoken
            exact Bool.eq_false_iff.2 (List.find?_eq_none.1 hfind token htoken)

/-- A text that does not start like one of the spaces. -/
theorem bare_spaces {ch : UInt8} {text : Text} (hch : lowerByte ch ∈ [115, 119]) :
    Bare spaces (ch :: text) := by
  have hspaces : ∀ pattern ∈ spaces, ∃ first ∈ pattern.head?, lowerByte first ∉ [115, 119] := by
    decide
  intro pattern hpattern
  obtain ⟨first, hfirst, hlower⟩ := hspaces pattern hpattern
  rw [Bool.eq_false_iff]
  intro hbegins
  obtain ⟨tail, htail⟩ := List.isPrefixOf_iff_prefix.mp hbegins
  cases pattern with
  | nil => cases hfirst
  | cons head pattern =>
      cases hfirst
      cases htail
      exact hlower hch

/-- The first byte of a text whose lower case starts with a letter of one form only. -/
theorem lowerByte_of_toLower {text lower : Text} {ch : UInt8} (hlower : toLower text = ch :: lower)
    (hch : ch ∉ [105, 107]) : ∃ first tail, text = first :: tail ∧ lowerByte first = ch := by
  unfold toLower at hlower
  split at hlower
  · cases hlower
    simp at hch
  · cases hlower
    simp at hch
  · cases hlower
    exact ⟨_, _, rfl, rfl⟩
  · cases hlower

theorem Accepted.head {out : Text} (haccepted : Accepted out) :
    ∃ first tail, out = first :: tail ∧ lowerByte first ∈ [115, 119] := by
  rcases haccepted.starts with hselect | hwith
  · obtain ⟨lower, hlower⟩ := List.isPrefixOf_iff_prefix.mp hselect
    obtain ⟨first, tail, hout, hfirst⟩ := lowerByte_of_toLower hlower.symm (by decide)
    exact ⟨first, tail, hout, hfirst ▸ by decide⟩
  · obtain ⟨lower, hlower⟩ := List.isPrefixOf_iff_prefix.mp hwith
    obtain ⟨first, tail, hout, hfirst⟩ := lowerByte_of_toLower hlower.symm (by decide)
    exact ⟨first, tail, hout, hfirst ▸ by decide⟩

theorem trimSpace_of_bare {text : Text} (hleft : Bare spaces text)
    (hright : Bare (spaces.map List.reverse) text.reverse) : trimSpace text = text := by
  rw [trimSpace, trimLeft_of_bare hleft, trimLeft_of_bare hright, List.reverse_reverse]

/-- Every such statement is accepted, from itself with a semicolon. -/
theorem Accepted.normalizeExtractSQL_eq {out : Text} (haccepted : Accepted out) :
    normalizeExtractSQL (out ++ ascii ";") = .ok out := by
  obtain ⟨first, tail, rfl, hfirst⟩ := haccepted.head
  have hsemicolon : trimSpace (first :: tail ++ ascii ";") = first :: tail ++ ascii ";" := by
    apply trimSpace_of_bare
    · exact bare_spaces hfirst
    · rw [List.reverse_append]
      exact bare_append [] _ _ (by decide) haccepted.trimmed
  have hsuffix : trimSuffix (ascii ";") (first :: tail ++ ascii ";") = first :: tail := by
    rw [trimSuffix, if_pos (List.isSuffixOf_iff_suffix.mpr (List.suffix_append ..)),
      List.length_append, Nat.add_sub_cancel, List.take_left]
  have htrim : trimSpace (first :: tail) = first :: tail :=
    trimSpace_of_bare (bare_spaces hfirst) haccepted.trimmed
  obtain ⟨token, htoken, hstart⟩ := haccepted.first
  have hallowed := haccepted.allowed
  rw [normalizeExtractSQL, hsemicolon, hsuffix, htrim, if_neg (by have := haccepted.starts; tauto)]
  cases htokens : sqlTokens (first :: tail) with
  | nil =>
      rw [htokens] at htoken
      cases htoken
  | cons head others =>
      rw [htokens] at htoken hallowed
      cases htoken
      dsimp only
      rw [if_neg (by tauto), List.find?_eq_none.mpr fun token hmem => by simp [hallowed token hmem]]

theorem toLower_cons {ch : UInt8} (hch : ch < 128) (text : Text) :
    toLower (ch :: text) = lowerByte ch :: toLower text := by
  rw [toLower]
  · rintro - rfl -
    exact absurd hch (by decide)
  · rintro - rfl -
    exact absurd hch (by decide)

/-- The bytes of lower-case letters and spaces. -/
theorem lowerByte_inv {ch : UInt8}
    (hlower : lowerByte ch = 32 ∨ 97 ≤ lowerByte ch ∧ lowerByte ch ≤ 122) :
    ch < 128 ∧ ch ∉ [hyphen, slash, singleQuote, doubleQuote] := by
  simp only [List.mem_cons, List.not_mem_nil, or_false, not_or, hyphen, slash, singleQuote,
    doubleQuote]
  unfold lowerByte at hlower
  grind

/-- The start of an accepted statement, in which no quote or comment opens. -/
theorem exists_start {word : Text} (hword : ∀ ch ∈ word, ch = 32 ∨ 97 ≤ ch ∧ ch ≤ 122)
    {text : Text} (hbegins : word <+: toLower text) :
    ∃ head tail, text = head ++ tail ∧
      (∀ ch ∈ head, ch ∉ [hyphen, slash, singleQuote, doubleQuote]) ∧
      ∀ more, word <+: toLower (head ++ more) := by
  induction word generalizing text with
  | nil => exact ⟨[], text, rfl, by simp, fun more => List.nil_prefix⟩
  | cons ch word ih =>
      have hrest : ∀ other ∈ word, other = 32 ∨ 97 ≤ other ∧ other ≤ 122 :=
        fun other hother => hword other (List.mem_cons_of_mem _ hother)
      unfold toLower at hbegins
      split at hbegins
      · rename_i text
        obtain ⟨rfl, hshort⟩ := List.cons_prefix_cons.mp hbegins
        obtain ⟨head, tail, rfl, hhead, hmore⟩ := ih hrest hshort
        refine ⟨0xC4 :: 0xB0 :: head, tail, rfl, ?_, ?_⟩
        · simpa [hyphen, slash, singleQuote, doubleQuote] using hhead
        · intro more
          exact List.cons_prefix_cons.mpr ⟨rfl, hmore more⟩
      · rename_i text
        obtain ⟨rfl, hshort⟩ := List.cons_prefix_cons.mp hbegins
        obtain ⟨head, tail, rfl, hhead, hmore⟩ := ih hrest hshort
        refine ⟨0xE2 :: 0x84 :: 0xAA :: head, tail, rfl, ?_, ?_⟩
        · simpa [hyphen, slash, singleQuote, doubleQuote] using hhead
        · intro more
          exact List.cons_prefix_cons.mpr ⟨rfl, hmore more⟩
      · rename_i first text _ _
        obtain ⟨rfl, hshort⟩ := List.cons_prefix_cons.mp hbegins
        obtain ⟨head, tail, rfl, hhead, hmore⟩ := ih hrest hshort
        obtain ⟨hascii, hmark⟩ := lowerByte_inv (hword _ List.mem_cons_self)
        refine ⟨first :: head, tail, rfl, List.forall_mem_cons.mpr ⟨hmark, hhead⟩, ?_⟩
        intro more
        rw [List.cons_append, toLower_cons hascii]
        exact List.cons_prefix_cons.mpr ⟨rfl, hmore more⟩
      · cases List.prefix_nil.mp hbegins

/-! ## Forbidden words -/

/-- The word is forbidden, in any letter case. -/
def ForbiddenWord (word : Text) : Prop :=
  forbiddenSQLToken (word.map lowerByte) = true

/-- Postgres reads a forbidden word between `before` and `after`. -/
structure ForbiddenAt (sql before word after : Text) : Prop where
  text : sql = before ++ word ++ after
  token : WordAt postgres before word after
  forbidden : ForbiddenWord word

/-- Postgres reads no forbidden word in the statement. -/
def Safe (sql : Text) : Prop :=
  ∀ before word after, ¬ ForbiddenAt sql before word after

section Forbidden

variable {word : Text}

theorem isLetter_of_forbiddenWord (hforbidden : ForbiddenWord word) :
    ∀ ch ∈ word, isLetter ch := by
  have hwords : ∀ token ∈ forbiddenWords, ∀ ch ∈ token, 97 ≤ ch ∧ ch ≤ 122 := by
    decide +kernel
  intro ch hch
  have hlower := hwords _ (of_decide_eq_true hforbidden) _ (List.mem_map_of_mem hch)
  rw [lowerByte] at hlower
  split at hlower
  · rename_i hupper
    simp [isLetter, hupper]
  · simp [isLetter, hlower]

theorem toLower_of_isLetter (hword : ∀ ch ∈ word, isLetter ch) :
    toLower word = word.map lowerByte := by
  induction word with
  | nil => rfl
  | cons ch word ih =>
      have hch := hword ch (List.mem_cons_self ..)
      have hrest := ih fun other hother => hword other (List.mem_cons_of_mem _ hother)
      unfold toLower
      split
      · rename_i heq
        cases heq
        cases hch
      · rename_i heq
        cases heq
        cases hch
      · rename_i heq
        cases heq
        rw [hrest, List.map_cons]
      · rename_i heq
        cases heq

end Forbidden

theorem scan_of_outside {before rest : Text} (houtside : (run simple start before rest).outside) :
    ∃ builder tokens, Scan.init.run before rest = ⟨.outside, false, builder, tokens⟩ := by
  have hfollows := follows_init before rest
  simp only [State.outside, decide_eq_true_eq] at houtside
  rcases hscan : Scan.init.run before rest with ⟨mode, skip, builder, tokens⟩
  rw [hscan] at hfollows
  have hskip : skip = false := by
    have hzero := hfollows.skip.symm.trans houtside.2
    cases skip with
    | true => cases hzero
    | false => rfl
  have hmode : mode = .outside := by
    have hsame := hfollows.mode
    cases mode with
    | outside => rfl
    | _ =>
        simp only at hsame
        rw [hsame] at houtside
        cases houtside.1
  exact ⟨builder, tokens, by rw [hmode, hskip]⟩

/-- Where Postgres starts a token, the byte before is none the builder takes. -/
theorem builder_eq_nil {before rest : Text} (hfree : run postgres start before rest = ⟨.plain, 0⟩) :
    (Scan.init.run before rest).builder = [] := by
  by_contra hne
  rcases List.eq_nil_or_concat before with rfl | ⟨text, ch, rfl⟩
  · exact hne rfl
  · rw [List.concat_eq_append] at hfree hne
    have hlast : isTokenByte ch := isTokenByte_of_builder hne
    have hboundary := tagCont_of_run_eq_plain hfree
    rw [tagCont_of_isTokenByte hlast] at hboundary
    cases hboundary

/-- A forbidden word the scanner meets outside its quotes and comments is found. -/
theorem sqlTokens_finds {sql before word after : Text}
    (hat : ForbiddenAt sql before word after)
    (houtside : (run simple start before (word ++ after)).outside) :
    ∃ token ∈ sqlTokens sql, forbiddenSQLToken token = true := by
  obtain ⟨htext, htoken, hforbidden⟩ := hat
  have hletters := isLetter_of_forbiddenWord hforbidden
  refine ⟨toLower word, ?_, ?_⟩
  · obtain ⟨builder, tokens, hscan⟩ := scan_of_outside houtside
    have hbuilder : builder = [] := by
      have hempty := builder_eq_nil htoken.free
      rwa [hscan] at hempty
    rw [htext]
    apply toLower_mem_sqlTokens hletters htoken.nonempty
    · rw [hscan, hbuilder]
    · intro ch hch
      by_contra hends
      have htag : tagCont ch := tagCont_of_isTokenByte (by simpa using hends)
      have hcont : identCont ch := by simp [identCont, htag]
      rw [htoken.ends ch hch] at hcont
      cases hcont
  · rw [toLower_of_isLetter hletters]
    exact hforbidden

theorem scan_of_hidden {out before rest : Text} (hhidden : Hidden out before rest) :
    (Scan.init.run before rest).mode ≠ .outside ∧ (Scan.init.run before rest).skip = false := by
  have hfollows := follows_init before rest
  constructor
  · intro hmode
    have hsame := hfollows.mode
    rw [hmode] at hsame
    rw [hhidden.quoted] at hsame
    cases hsame
  · have hskip := hfollows.skip
    rw [hhidden.skip] at hskip
    by_contra hne
    rw [Bool.not_eq_false] at hne
    rw [hne] at hskip
    cases hskip

/-- Where a word starts, the scanner is not in the middle of a mark. -/
theorem skip_eq_zero (before after : Text) {word : Text} (hword : ∀ ch ∈ word, isLetter ch)
    (hnonempty : word ≠ []) : (run simple start before (word ++ after)).skip = 0 := by
  rw [(follows_init before (word ++ after)).skip]
  cases hskip : (Scan.init.run before (word ++ after)).skip with
  | false => rfl
  | true =>
      have hsecond := mem_secondBytes_of_run hskip
      cases word with
      | nil => exact absurd rfl hnonempty
      | cons ch word =>
          have hletter := hword ch List.mem_cons_self
          have hmarks : ∀ mark ∈ secondBytes, isLetter mark = false :=
            List.all_iff_forall_prop.mp (by decide)
          rw [hmarks ch hsecond] at hletter
          cases hletter

/-- A forbidden word that passes is hidden from the scanner. -/
theorem Accepted.hidden {out before word after : Text} (haccepted : Accepted out)
    (hat : ForbiddenAt out before word after) : Hidden out before (word ++ after) := by
  have hskip := skip_eq_zero before after (isLetter_of_forbiddenWord hat.forbidden)
    hat.token.nonempty
  refine ⟨by rw [hat.text, List.append_assoc], hat.token.free, hskip, ?_⟩
  by_contra hmode
  rw [Bool.not_eq_false] at hmode
  have houtside : (run simple start before (word ++ after)).outside := by
    simp [State.outside, hmode, hskip]
  obtain ⟨token, htoken, hforbidden⟩ := sqlTokens_finds hat houtside
  rw [haccepted.allowed token htoken] at hforbidden
  cases hforbidden

/-- A hidden place is not in the first word of an accepted statement. -/
theorem Accepted.starts_of_hidden {out before rest : Text} (haccepted : Accepted out)
    (hhidden : Hidden out before rest) (more : Text) :
    (ascii "select ").isPrefixOf (toLower (before ++ more)) ∨
      (ascii "with ").isPrefixOf (toLower (before ++ more)) := by
  have hlonger : ∀ word : Text, (∀ ch ∈ word, ch = 32 ∨ 97 ≤ ch ∧ ch ≤ 122) →
      word.isPrefixOf (toLower out) → word.isPrefixOf (toLower (before ++ more)) := by
    intro word hword hbegins
    obtain ⟨head, tail, hout, hhead, hmore⟩ :=
      exists_start hword (List.isPrefixOf_iff_prefix.mp hbegins)
    have hbefore : before <+: out := hhidden.text ▸ List.prefix_append ..
    have hstart : head <+: out := hout ▸ List.prefix_append ..
    rcases List.prefix_or_prefix_of_prefix hbefore hstart with hshort | ⟨body, rfl⟩
    · refine absurd (run_unmarked rfl rfl ?_) (scan_of_hidden hhidden).1
      exact fun ch hch => hhead ch (hshort.subset hch)
    · rw [List.isPrefixOf_iff_prefix, List.append_assoc]
      exact hmore _
  exact haccepted.starts.imp (hlonger _ (List.all_iff_forall_prop.mp (by decide)))
    (hlonger _ (List.all_iff_forall_prop.mp (by decide)))

/-- An accepted statement is accepted as well with a word put into a hidden place. -/
theorem Accepted.insert {out before rest : Text} (haccepted : Accepted out)
    (hhidden : Hidden out before rest) : Accepted (before ++ ascii " drop," ++ rest) := by
  obtain ⟨hmode, hskip⟩ := scan_of_hidden hhidden
  have htokens : sqlTokens (before ++ ascii " drop," ++ rest) = sqlTokens out := by
    rw [hhidden.text]
    exact sqlTokens_pass (ascii "drop,") hmode hskip (List.all_iff_forall_prop.mp (by decide))
  refine ⟨?_, ?_, ?_, ?_⟩
  · have htrimmed := haccepted.trimmed
    rw [hhidden.text, List.reverse_append] at htrimmed
    rw [List.reverse_append, List.reverse_append]
    exact bare_append rest.reverse _ ((ascii " drop").reverse ++ before.reverse) (by decide)
      htrimmed
  · rw [List.append_assoc]
    exact haccepted.starts_of_hidden hhidden _
  · rw [htokens]
    exact haccepted.first
  · rw [htokens]
    exact haccepted.allowed

theorem not_safe_insert {out before rest : Text} (hhidden : Hidden out before rest) :
    ¬ Safe (before ++ ascii " drop," ++ rest) := by
  intro hsafe
  have hfree : run postgres start before (ascii " drop," ++ rest) = ⟨.plain, 0⟩ := by
    rw [← hhidden.free]
    apply run_space tagged_start
    rw [hhidden.free]
  have hspace : run postgres start (before ++ [space]) (ascii "drop" ++ (ascii "," ++ rest)) =
      ⟨.plain, 0⟩ := by
    rw [run_append]
    change run postgres (run postgres start before (ascii " drop," ++ rest)) [space] _ = _
    rw [hfree]
    rfl
  apply hsafe (before ++ [space]) (ascii "drop") (ascii "," ++ rest)
  refine ⟨?_, ⟨hspace, by decide, by decide, List.all_eq_true.mp (by decide), ?_⟩, ?_⟩
  · rw [List.append_assoc, List.append_assoc, List.append_assoc]
    rfl
  · intro ch hch
    cases hch
    decide
  · change forbiddenSQLToken _ = true
    decide

/-- In an accepted statement Postgres reads no forbidden word, provided the scanner is outside
quotes and comments wherever Postgres may start a token.  That is so in particular when the
statement has no escape string, no dollar quote, no nested comment and no carriage return in a
line comment.  At any other place of that kind a forbidden word would pass. -/
theorem safe_of_accepted {sql out : Text} (haccepted : normalizeExtractSQL sql = .ok out) :
    ((∀ before rest, ¬ Hidden out before rest) → Safe out) ∧
    ∀ before rest, Hidden out before rest →
      normalizeExtractSQL (before ++ ascii " drop," ++ rest ++ ascii ";") =
          .ok (before ++ ascii " drop," ++ rest) ∧
        ¬ Safe (before ++ ascii " drop," ++ rest) := by
  have hout := Accepted.of_normalizeExtractSQL haccepted
  constructor
  · intro hnone before word after hat
    exact hnone before (word ++ after) (hout.hidden hat)
  · intro before rest hhidden
    exact ⟨(hout.insert hhidden).normalizeExtractSQL_eq, not_safe_insert hhidden⟩

/-- A forbidden word in a comment is no reason to reject, and does no harm. -/
theorem safe_commentedWord :
    normalizeExtractSQL (ascii "SELECT id FROM orders -- drop me") =
        .ok (ascii "SELECT id FROM orders -- drop me") ∧
      Safe (ascii "SELECT id FROM orders -- drop me") := by
  have haccepted : normalizeExtractSQL (ascii "SELECT id FROM orders -- drop me") =
      .ok (ascii "SELECT id FROM orders -- drop me") := by
    decide +kernel
  refine ⟨haccepted, (safe_of_accepted haccepted).1 ?_⟩
  intro before rest
  apply not_hidden_of_unspecial
  apply unspecial_of_bytes
  decide +kernel

/-- A quote inside a dollar quote hides the rest of the statement from the scanner. -/
theorem not_forall_safe :
    ¬ ∀ sql out, normalizeExtractSQL sql = .ok out → Safe out := by
  intro hsafe
  have haccepted : normalizeExtractSQL (ascii "SELECT $$'$$; DROP TABLE users --'") =
      .ok (ascii "SELECT $$'$$; DROP TABLE users --'") := by
    decide +kernel
  apply hsafe _ _ haccepted (ascii "SELECT $$'$$; ") (ascii "DROP") (ascii " TABLE users --'")
  refine ⟨by decide, ⟨by decide +kernel, by decide, by decide, by decide +kernel,
    by decide +kernel⟩, ?_⟩
  change forbiddenSQLToken _ = true
  decide

end Conduit.StatementFilter
