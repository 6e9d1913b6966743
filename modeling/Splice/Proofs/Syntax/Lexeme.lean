import Splice.Proofs.Syntax.Words
import Splice.Syntax.Lexer

/-!
This module contains the words that a source text can hold, and that the lexer finds no others where
it finds no fault.
-/

namespace Splice

namespace Lexer

def isIdentifier : List Char → Bool
  | [] => false
  | c :: cs => isIdentifierStart c && cs.all isIdentifierPart

def isNumber : List Char → Bool
  | [] => false
  | '0' :: 'x' :: digits => !digits.isEmpty && digits.all isHexDigit
  | '0' :: 'X' :: digits => !digits.isEmpty && digits.all isHexDigit
  | c :: cs => c.isDigit && cs.all Char.isDigit

end Lexer

/--
Whether some source text holds the word. The text of a string is unrestricted since it is written
with escapes.
-/
def Word.Lexed : Word → Prop
  | (.identifier, text) => Lexer.isIdentifier text.toList = true
  | (.number, text) => Lexer.isNumber text.toList = true
  | (.string, _) => True
  | (.leftBrace, text) => text = "\x7b"
  | (.rightBrace, text) => text = "\x7d"
  | (.leftParen, text) => text = "("
  | (.rightParen, text) => text = ")"
  | (.comma, text) => text = ","
  | (.colon, text) => text = ":"
  | (.assign, text) => text = ":="
  | (.stackAssign, text) => text = "=:"
  | (.arrow, text) => text = "->"

namespace Lexer

def Piece.Sound (piece : Piece) : Prop :=
  piece.findings = [] → ∀ w, piece.token? = some w → Word.Lexed w

theorem Piece.sound_gap (n : Nat) (h : 0 < n) : (Piece.gap n h).Sound := by
  intro _ w hw
  simp [Piece.gap] at hw

theorem Piece.sound_token {kind : TokenKind} {text : String} {n : Nat} {h : 0 < n}
    (hw : Word.Lexed (kind, text)) : (Piece.token kind text n h).Sound := by
  intro _ w h
  simp only [Piece.token, Option.some.injEq] at h
  rw [← h]
  exact hw

theorem sound_hexNumber (x : Char) (hx : x = 'x' ∨ x = 'X') (cs : List Char) :
    (scan.hexNumber x (cs.takeWhile isHexDigit)).Sound := by
  intro hf w hw
  simp only [scan.hexNumber, ite_eq_right_iff, List.cons_ne_nil, imp_false, Bool.not_eq_true,
    Option.some.injEq] at hf hw
  subst hw
  have hall : (cs.takeWhile isHexDigit).all isHexDigit = true := List.all_takeWhile
  rcases hx with rfl | rfl <;> simp [Word.Lexed, isNumber, hf, hall]

theorem sound_number {c : Char} (hc : c.isDigit = true) (cs : List Char) :
    (scan.number c cs).Sound := by
  unfold scan.number
  split
  . apply sound_hexNumber
    simp
  . apply sound_hexNumber
    simp
  . have hdigits : (cs.takeWhile Char.isDigit).all Char.isDigit = true := List.all_takeWhile
    apply Piece.sound_token
    simp only [Word.Lexed, String.toList_ofList]
    unfold isNumber
    split
    . contradiction
    . next heq =>
      rw [(List.cons.inj heq).2] at hdigits
      contradiction
    . next heq =>
      rw [(List.cons.inj heq).2] at hdigits
      contradiction
    . next heq =>
      obtain ⟨rfl, rfl⟩ := List.cons.inj heq
      rw [hc, hdigits]
      rfl

theorem sound_scan (c : Char) (cs : List Char) : (scan c cs).Sound := by
  unfold scan
  split
  . apply Piece.sound_gap
  . split
    . apply Piece.sound_gap
    . split
      . apply Piece.sound_gap
      . intro hf
        simp at hf
    all_goals try (apply Piece.sound_token; rfl)
    . intro _ w hw
      simp only [Option.some.injEq] at hw
      rw [← hw]
      trivial
    . split
      . next h => exact sound_number h _
      . split
        . next h =>
          apply Piece.sound_token
          simp only [Word.Lexed, String.toList_ofList, isIdentifier, h, List.all_takeWhile,
            Bool.and_self]
        . intro hf
          simp at hf

theorem lexed_of_lexFrom (p : Position) (cs : List Char) (h : (lexFrom p cs).2 = []) :
    ∀ t ∈ (lexFrom p cs).1, t.word.Lexed := by
  fun_induction lexFrom p cs with
  | case1 => simp
  | case2 p c rest piece others ih =>
    simp only [List.append_eq_nil_iff] at h
    intro t ht
    rw [List.mem_append] at ht
    rcases ht with ht | ht
    . have hsound := sound_scan c rest
      have hf : (scan c rest).findings = [] := by
        simpa [Piece.diagnostics] using h.1
      unfold Piece.tokens at ht
      split at ht
      . next kind text hk =>
        simp only [List.mem_singleton] at ht
        rw [ht]
        exact hsound hf _ hk
      . simp at ht
    . exact ih h.2 t ht

end Lexer

theorem lexed_of_lex {source : String} (h : (lex source).2 = []) :
    ∀ w ∈ (lex source).1.map Token.word, w.Lexed := by
  intro w hw
  obtain ⟨t, ht, rfl⟩ := List.mem_map.1 hw
  exact Lexer.lexed_of_lexFrom .first source.toList h t ht

end Splice
