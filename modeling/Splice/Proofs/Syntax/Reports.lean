import Splice.Analysis
import Splice.Proofs.Syntax.Completeness
import Splice.Proofs.Syntax.Progress

/-!
This module contains the proof that a text is refused for a reason: there is a tree exactly if the
text is that of a program, and something is reported exactly if there is no tree.
-/

namespace Splice

def ProgramTokens (d : Dialect) (ts : List Token) : Prop :=
  ∃ b : Block, b.Within d Parser.maxNesting ∧ ts.map Token.word = b.words

theorem parseTokens_reports (d : Dialect) (ts : List Token) :
    (∃ b, parseTokens d ts = .ok b) ∨
      ∃ e, parseTokens d ts = .failed e ∧ Parser.Blames ts e := by
  let s : Parser.Setting := ⟨d, (ts.getLast?.map Token.span).getD .none⟩
  have hends : s.Ends ts := rfl
  unfold parseTokens
  obtain ⟨b, rest, hrun, _⟩ | ⟨e, hrun, hblames⟩ :=
    Parser.takes_program hends ts (List.suffix_refl ts)
  . rw [hrun]
    exact .inl ⟨b, rfl⟩
  . rw [hrun]
    exact .inr ⟨e, rfl, hblames⟩

theorem exists_parseAndReport_iff {d : Dialect} {source : String} :
    (∃ b, parseAndReport d source = (some b, [])) ↔
      (lex source).2 = [] ∧ ProgramTokens d (lex source).1 := by
  simp only [parseAndReport_eq_some]
  constructor
  . rintro ⟨b, hb, hclean, _⟩
    have hparse : parse d source = .ok b := parse_eq_ok.2 ⟨hb, hclean⟩
    exact ⟨hclean, b, legible_of_parse hparse, (words_of_parse hparse).1⟩
  . rintro ⟨hclean, b, ⟨hlegible, hnesting⟩, hwords⟩
    obtain ⟨b', hb', _⟩ := exists_parseTokens_eq hlegible hnesting hwords
    exact ⟨b', hb', hclean, trivial⟩

def reported (source : String) (own : Option SyntaxError) : List Diagnostic :=
  (lex source).2 ++ (own.map SyntaxError.diagnostic).toList

theorem parseAndReport_cases (d : Dialect) (source : String) :
    (∃ b, parseAndReport d source = (some b, [])) ∨ ∃ own,
      parseAndReport d source = (none, reported source own) ∧ reported source own ≠ [] ∧
      (parseTokens d (lex source).1).errors = own.toList ∧
      ∀ e ∈ own, Parser.Blames (lex source).1 e := by
  unfold parseAndReport reported
  dsimp only
  obtain ⟨b, hb⟩ | ⟨e, he, hblames⟩ := parseTokens_reports d (lex source).1
  . rw [hb]
    cases hfound : (lex source).2 with
    | nil => exact .inl ⟨b, rfl⟩
    | cons found others => exact .inr ⟨none, rfl, List.cons_ne_nil _ _, rfl, nofun⟩
  . rw [he]
    have hne : (lex source).2 ++ [e.diagnostic] ≠ [] :=
      List.append_ne_nil_of_right_ne_nil _ (List.cons_ne_nil _ _)
    refine .inr ⟨some e, if_neg ?_, hne, rfl, ?_⟩
    . rwa [List.isEmpty_iff]
    . rintro _ ⟨⟩
      exact hblames

theorem parse_eq_ok_iff {d : Dialect} {source : String} {b : Block} :
    parse d source = .ok b ↔ parseAndReport d source = (some b, []) := by
  simp [parse_eq_ok, parseAndReport_eq_some]

theorem parse_eq_error_iff {d : Dialect} {source : String} {ds : List Diagnostic} :
    parse d source = .error ds ↔ parseAndReport d source = (none, ds) := by
  unfold parse
  obtain ⟨_ | root, found⟩ := parseAndReport d source
  . simp
  . simp

theorem parse_ne_error_nil {d : Dialect} {source : String} : parse d source ≠ .error [] := by
  rw [Ne, parse_eq_error_iff]
  intro h
  obtain ⟨b, hb⟩ | ⟨own, hnone, hne, _⟩ := parseAndReport_cases d source
  . rw [h] at hb
    cases hb
  . rw [h] at hnone
    exact hne (Prod.mk.inj hnone).2.symm

theorem analyze_ne_error_nil {d : Dialect} {external : List String} {b : Block} :
    analyze d external b ≠ .error [] := by
  unfold analyze
  dsimp only
  split
  . nofun
  . next hfaults =>
    intro h
    exact hfaults (List.isEmpty_iff.2 (Except.error.inj h))

theorem parseAndAnalyze_ne_error_nil {d : Dialect} {external : List String} {source : String} :
    parseAndAnalyze d external source ≠ .error [] := by
  unfold parseAndAnalyze
  cases hparse : parse d source with
  | error ds =>
    rintro ⟨⟩
    exact parse_ne_error_nil hparse
  | ok b =>
    change (analyze d external b >>= fun info => pure (b, info)) ≠ .error []
    cases hanalyze : analyze d external b with
    | error ds =>
      rintro ⟨⟩
      exact analyze_ne_error_nil hanalyze
    | ok info => nofun

/--
Whatever the tokens, the parser gives a tree and reports nothing, or gives none and reports one
error, which names a place among the tokens. So parsing a text gives a tree and reports nothing, or
gives none and reports something: what the lexer found, and behind that at most one syntax error,
which is all that the parser reports. There is a tree for all texts that are those of programs and
for no others. What is reported without a tree is what parsing ends with, and reading a program,
likewise, never fails without a word.
-/
theorem parse_reports (d : Dialect) (source : String) :
    (∀ ts, (∃ b, parseTokens d ts = .ok b) ∨
      ∃ e, parseTokens d ts = .failed e ∧ Parser.Blames ts e) ∧
    ((∃ b, parseAndReport d source = (some b, [])) ∨ ∃ own,
      parseAndReport d source = (none, reported source own) ∧ reported source own ≠ [] ∧
      (parseTokens d (lex source).1).errors = own.toList ∧
      ∀ e ∈ own, Parser.Blames (lex source).1 e) ∧
    ((∃ b, parseAndReport d source = (some b, [])) ↔
      (lex source).2 = [] ∧ ProgramTokens d (lex source).1) ∧
    (∀ b, parse d source = .ok b ↔ parseAndReport d source = (some b, [])) ∧
    (∀ ds, parse d source = .error ds ↔ parseAndReport d source = (none, ds)) ∧
    ∀ external ds, parseAndAnalyze d external source = .error ds → ds ≠ [] := by
  refine ⟨parseTokens_reports d, parseAndReport_cases d source, exists_parseAndReport_iff,
    fun b => parse_eq_ok_iff, fun ds => parse_eq_error_iff, ?_⟩
  rintro external ds h rfl
  exact parseAndAnalyze_ne_error_nil h

/--
A character that starts no token and a declaration without a name: both are reported, the character
in front although it stands behind.
-/
theorem parse_reports_both : ∃ own : SyntaxError,
    parseAndReport .loose "\x7b let := ? \x7d" =
      (none, reported "\x7b let := ? \x7d" (some own)) ∧
    own.fault = .expected "a variable name" (some ":=") ∧
    (reported "\x7b let := ? \x7d" (some own)).length = 2 ∧
    Parser.Blames (lex "\x7b let := ? \x7d").1 own ∧
    parseAndAnalyze .loose ["h"] "\x7b let := ? \x7d" =
      .error (reported "\x7b let := ? \x7d" (some own)) ∧
    reported "\x7b let := ? \x7d" (some own) ≠ [] := by
  have hruns : (lex "\x7b let := ? \x7d").2.length = 1 ∧
      (parseTokens .loose (lex "\x7b let := ? \x7d").1).errors.map SyntaxError.fault =
        [.expected "a variable name" (some ":=")] := by
    decide +kernel
  obtain ⟨_, hcases, _, _, herror, hread⟩ := parse_reports .loose "\x7b let := ? \x7d"
  obtain ⟨b, hb⟩ | ⟨own, hnone, _, herrors, hblames⟩ := hcases
  . have hclean := (parseAndReport_eq_some.1 hb).2.1
    rw [hclean] at hruns
    cases hruns.1
  . rw [herrors] at hruns
    obtain _ | own := own
    . cases hruns.2
    . have hanalyze : parseAndAnalyze .loose ["h"] "\x7b let := ? \x7d" =
          .error (reported "\x7b let := ? \x7d" (some own)) := by
        unfold parseAndAnalyze
        rw [(herror _).2 hnone]
        rfl
      refine ⟨own, hnone, ?_, ?_, hblames own rfl, hanalyze, hread ["h"] _ hanalyze⟩
      . exact (List.cons.inj hruns.2).1
      . rw [reported, List.length_append, hruns.1]
        rfl

end Splice
