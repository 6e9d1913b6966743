import Splice.Proofs.Syntax.Pieces
import Splice.Proofs.Text.Places

/-!
This module contains the proof that the lexer cuts a text into its tokens and what stands between
them, and leaves nothing out: where it finds no fault, the text is gaps and lexemes in turns.
-/

namespace Splice

/--
The text `cs`, in front of which `before` stands, is made of gaps and lexemes in turns, with one
lexeme for each of the tokens. A token has the span of its lexeme, and to lex the lexeme for itself
gives just the kind and the text of the token.
-/
inductive Partition : (before cs : List Char) → List Token → Prop
  | last {before gap : List Char} (hgap : Lexer.Gap [] gap) : Partition before gap []
  | token {before gap lexeme rest : List Char} {t : Token} {ts : List Token}
    (hgap : Lexer.Gap (lexeme ++ rest) gap) (hne : lexeme ≠ []) (htext : Lexer.Spells lexeme t.word)
    (halone : (lex (String.ofList lexeme)).1.map Token.word = [t.word] ∧
      (lex (String.ofList lexeme)).2 = [])
    (hspan : t.span = .covering (before ++ gap) lexeme)
    (hrest : Partition (before ++ gap ++ lexeme) rest ts) :
    Partition before (gap ++ (lexeme ++ rest)) (t :: ts)

theorem Partition.skip {before piece cs : List Char} {ts : List Token}
    (hpiece : Lexer.Skipped cs piece) (h : Partition (before ++ piece) cs ts) :
    Partition before (piece ++ cs) ts := by
  cases h with
  | last hgap =>
    refine .last (.cons ?_ hgap)
    rwa [List.append_nil]
  | token hgap hne htext halone hspan hrest =>
    rw [← List.append_assoc piece]
    rw [List.append_assoc before] at hspan hrest
    exact .token (.cons hpiece hgap) hne htext halone hspan hrest

namespace Lexer

theorem partition_lexFrom (before : List Char) {p : Position} (hp : p = Position.first.after before)
    (cs : List Char) (h : (lexFrom p cs).2 = []) : Partition before cs (lexFrom p cs).1 := by
  -- On the pieces: one is cut off the front, and what is behind it is lexed from its end on.
  fun_induction lexFrom p cs generalizing before with
  | case1 p => exact .last .nil
  | case2 p c cs piece others ih =>
    obtain ⟨hpiece, hothers⟩ := List.append_eq_nil_iff.1 h
    have hfindings : piece.findings = [] := List.map_eq_nil_iff.1 hpiece
    obtain ⟨taken, rest, hcs, hlength, hcut⟩ := cuts_scan c cs hfindings
    have hrest : (c :: cs).drop piece.length = rest := by
      rw [hcs, ← hlength, List.drop_left]
    have htaken : (c :: cs).take piece.length = taken := by
      rw [hcs, ← hlength, List.take_left]
    have hnext : Partition (before ++ taken) rest others.1 := by
      rw [← hrest]
      exact ih (before ++ taken) (by rw [hp, htaken, Position.after_append]) hothers
    unfold Piece.tokens
    rw [hcs]
    cases hk : piece.token? with
    | none =>
      simp only [piece, hk] at hcut
      exact .skip hcut hnext
    | some w =>
      obtain ⟨kind, text⟩ := w
      simp only [piece, hk] at hcut
      have hlexed : Word.Lexed (kind, text) := sound_scan c cs hfindings _ hk
      have hne : taken ≠ [] := by
        rintro rfl
        exact absurd hlength piece.length_pos.ne
      have hspan : spanOf p (taken ++ rest) 0 piece.length = .covering before taken := by
        rw [Span.covering_eq hne (newline_notMem_of_spells hlexed hcut), ← hp]
        unfold spanOf
        rw [← hcs, htaken]
        rfl
      have halone : (lex (String.ofList taken)).1.map Token.word = [(kind, text)] ∧
          (lex (String.ofList taken)).2 = [] := by
        unfold lex
        rw [String.toList_ofList]
        exact holds_of_spells hlexed hcut .first
      rw [← before.append_nil] at hspan hnext
      exact .token .nil hne hcut halone hspan hnext

end Lexer

/--
Where the lexer finds no fault, all of the text is white space, comments and the lexemes of the
tokens, in the order of the tokens and each at the place the token names.
-/
theorem lex_partitions {source : String} (h : (lex source).2 = []) :
    Partition [] source.toList (lex source).1 :=
  Lexer.partition_lexFrom [] rfl source.toList h

theorem lex_partitions_comments :
    (lex "/*/ a */ let x := \"\\x41\\n\" // b\n, 0xF->12/**///").1.map Token.word =
      [(.identifier, "let"), (.identifier, "x"), (.assign, ":="), (.string, "A\n"), (.comma, ","),
        (.number, "0xF"), (.arrow, "->"), (.number, "12")] ∧
    (lex "/*/ a */ let x := \"\\x41\\n\" // b\n, 0xF->12/**///").2 = [] ∧
    Partition [] "/*/ a */ let x := \"\\x41\\n\" // b\n, 0xF->12/**///".toList
      (lex "/*/ a */ let x := \"\\x41\\n\" // b\n, 0xF->12/**///").1 := by
  have h : (lex "/*/ a */ let x := \"\\x41\\n\" // b\n, 0xF->12/**///").2 = [] := by
    decide +kernel
  exact ⟨by decide +kernel, h, lex_partitions h⟩

end Splice
