import Splice.Proofs.Pass.Success
import Splice.Proofs.Syntax.Placement
import Splice.Proofs.Syntax.Printing
import Splice.Proofs.Syntax.Reading

/-!
This module contains the proof that printing and parsing undo each other: the text of a tree that
was parsed has the words of its source, and it parses to that tree again.
-/

namespace Splice

namespace Printer

theorem binders_bare (xs : List Binder) : binders (xs.map Binder.bare) = binders xs := by
  unfold binders
  rw [List.map_map]
  rfl

mutual

theorem expr_bare : (e : Expr) → expr e.bare = expr e
  | .literal _ => rfl
  | .identifier _ => rfl
  | .call _ _ arguments => by
    unfold Expr.bare expr
    rw [exprs_bare arguments]
    rfl
  | .instruction _ _ arguments => by
    unfold Expr.bare expr
    rw [exprs_bare arguments]

theorem exprs_bare : (es : List Expr) → exprs (Expr.allBare es) = exprs es
  | [] => rfl
  | e :: es => by
    unfold Expr.allBare exprs
    rw [expr_bare e, exprs_bare es]

end

theorem signature_bare (f : Signature) : signature f.bare = signature f := by
  unfold signature Signature.bare
  rw [binders_bare, binders_bare, List.isEmpty_map]

theorem stackForm_bare (form : StackForm) : stackForm form.bare = stackForm form := by
  cases form <;> rfl

mutual

theorem stmt_bare (level : Nat) : (s : Stmt) → stmt level s.bare = stmt level s
  | .expression e => expr_bare e
  | .declaration _ vars none => by
    simp only [Stmt.bare, Option.map_none, stmt, binders_bare]
  | .declaration _ vars (some value) => by
    simp only [Stmt.bare, Option.map_some, stmt, binders_bare, expr_bare]
  | .assignment _ targets value => by
    simp only [Stmt.bare, stmt, expr_bare, List.map_map]
    rfl
  | .conditional _ condition body => by
    simp only [Stmt.bare, stmt, expr_bare, block_bare level body]
  | .switch _ subject arms => by
    simp only [Stmt.bare, stmt, expr_bare, cases_bare level arms]
  | .loop _ pre condition post body => by
    simp only [Stmt.bare, stmt, expr_bare, block_bare level pre, block_bare level post,
      block_bare level body]
  | .function ⟨f, body⟩ => by
    simp only [Stmt.bare, stmt, signature_bare, block_bare level body]
  | .block b => block_bare level b
  | .stack form => stackForm_bare form

theorem stmts_bare (level : Nat) : (ss : List Stmt) → stmts level (Stmt.allBare ss) = stmts level ss
  | [] => rfl
  | s :: ss => by
    unfold Stmt.allBare stmts
    rw [stmt_bare level s, stmts_bare level ss]

theorem block_bare (level : Nat) : (b : Block) → block level b.bare = block level b
  | ⟨_, ss⟩ => by
    unfold Block.bare block
    rw [stmts_bare (level + 1) ss, Stmt.allBare_eq_map, List.isEmpty_map]

theorem cases_bare (level : Nat) : (cs : List Case) → cases level (Case.allBare cs) = cases level cs
  | [] => rfl
  | ⟨_, value, body⟩ :: cs => by
    unfold Case.allBare Case.bare cases
    rw [block_bare level body, cases_bare level cs]
    cases value <;> rfl

end

end Printer

theorem Block.print_bare (b : Block) : b.bare.print = b.print :=
  Printer.block_bare 0 b

theorem Block.lex_print {b : Block} (h : ∀ w ∈ b.words, w.Lexed) :
    (lex b.print).1.map Token.word = b.words ∧ (lex b.print).2 = [] := by
  have := Printer.prints_block 0 b h [] [] Lexer.delimited_nil Lexer.holds_nil .first
  rwa [List.append_nil, List.append_nil] at this

theorem parseAndReport_eq_some {d : Dialect} {source : String} {b : Block} {ds : List Diagnostic} :
    parseAndReport d source = (some b, ds) ↔
      parseTokens d (lex source).1 = .ok b ∧ (lex source).2 = [] ∧ ds = [] := by
  unfold parseAndReport
  obtain ⟨tokens, found⟩ := lex source
  dsimp only
  obtain ⟨result?, errors⟩ := parseTokens d tokens
  cases found <;> cases errors <;> simp [Attempt.ok, eq_comm]

theorem parse_eq_ok {d : Dialect} {source : String} {b : Block} :
    parse d source = .ok b ↔ parseTokens d (lex source).1 = .ok b ∧ (lex source).2 = [] := by
  have hreport : parse d source = .ok b ↔ ∃ ds, parseAndReport d source = (some b, ds) := by
    unfold parse
    obtain ⟨_ | root, ds⟩ := parseAndReport d source
    . simp
    . simp
  simp [hreport, parseAndReport_eq_some]

theorem words_of_parse {d : Dialect} {source : String} {b : Block} (h : parse d source = .ok b) :
    (lex source).1.map Token.word = b.words ∧ ∀ w ∈ b.words, w.Lexed := by
  rw [parse_eq_ok] at h
  have hlexed := lexed_of_lex h.2
  have hwords := map_word_of_parseTokens hlexed h.1
  rw [hwords] at hlexed
  exact ⟨hwords, hlexed⟩

/--
Printing and parsing undo each other on all that is parsed.
-/
theorem parse_print {d : Dialect} {source : String} {b : Block} (h : parse d source = .ok b) :
    (lex b.print).2 = [] ∧
    (lex b.print).1.map Token.word = (lex source).1.map Token.word ∧
    ∃ b', parse d b.print = .ok b' ∧ b'.bare = b.bare ∧ b'.print = b.print := by
  obtain ⟨hwords, hlexed⟩ := words_of_parse h
  obtain ⟨hprint, hclean⟩ := b.lex_print hlexed
  have hsame : (lex source).1.map Token.word = (lex b.print).1.map Token.word := by
    rw [hwords, hprint]
  obtain ⟨b', hb', hbare⟩ := parseTokens_congr hsame (parse_eq_ok.1 h).1
  refine ⟨hclean, hsame.symm, b', parse_eq_ok.2 ⟨hb', hclean⟩, hbare, ?_⟩
  rw [← b'.print_bare, hbare, b.print_bare]

theorem parse_print_label : ∃ b, parse .loose "\x7blet a := \"x\\n\" f: \x7b\x7d\x7d" = .ok b ∧
    (lex b.print).2 = [] ∧
    (lex b.print).1.map Token.word = (lex "\x7blet a := \"x\\n\" f: \x7b\x7d\x7d").1.map Token.word ∧
    ∃ b', parse .loose b.print = .ok b' ∧ b'.bare = b.bare ∧ b'.print = b.print := by
  have hparse : (parse .loose "\x7blet a := \"x\\n\" f: \x7b\x7d\x7d").isOk = true := by decide +kernel
  obtain ⟨b, hb⟩ := exists_of_isOk hparse
  exact ⟨b, hb, parse_print hb⟩

end Splice
