import Splice.Syntax.Token
import Splice.Tree.Basic

/-!
This module contains what is left of tokens and trees if their places are forgotten: the words of a
text, the words that a tree is written with, and trees without spans.
-/

namespace Splice

abbrev Word := TokenKind × String

namespace Token

def word (t : Token) : Word :=
  (t.kind, t.text)

def bare (t : Token) : Token :=
  { t with span := .none }

@[simp]
theorem kind_bare (t : Token) : t.bare.kind = t.kind := rfl

@[simp]
theorem text_bare (t : Token) : t.bare.text = t.text := rfl

@[simp]
theorem span_bare (t : Token) : t.bare.span = .none := rfl

theorem bare_eq_of_word_eq {t u : Token} (h : t.word = u.word) : t.bare = u.bare := by
  cases t
  cases u
  simp_all [word, bare]

theorem map_bare_eq_of_map_word_eq {ts us : List Token} (h : ts.map word = us.map word) :
    ts.map bare = us.map bare := by
  induction ts generalizing us with
  | nil => simp_all
  | cons t ts ih =>
    cases us with
    | nil => simp at h
    | cons u us =>
      simp only [List.map_cons, List.cons.injEq] at h ⊢
      exact ⟨bare_eq_of_word_eq h.1, ih h.2⟩

end Token

namespace Word

def ofName (text : String) : Word := (.identifier, text)

def leftBrace : Word := (.leftBrace, "\x7b")

def rightBrace : Word := (.rightBrace, "\x7d")

def leftParen : Word := (.leftParen, "(")

def rightParen : Word := (.rightParen, ")")

def comma : Word := (.comma, ",")

def colon : Word := (.colon, ":")

def assign : Word := (.assign, ":=")

def stackAssign : Word := (.stackAssign, "=:")

def arrow : Word := (.arrow, "->")

def separated : List (List Word) → List Word
  | [] => []
  | item :: items => item ++ items.flatMap (comma :: ·)

def parenthesised (ws : List Word) : List Word :=
  leftParen :: ws ++ [rightParen]

def typeSuffix : Option String → List Word
  | none => []
  | some type => [colon, ofName type]

end Word

open Word

/-! ## The words of a tree -/

def Binder.words (x : Binder) : List Word :=
  ofName x.name :: typeSuffix x.type

def LiteralKind.tokenKind : LiteralKind → TokenKind
  | number => .number
  | boolean => .identifier
  | string => .string

def Literal.words (l : Literal) : List Word :=
  (l.kind.tokenKind, l.text) :: typeSuffix l.type

mutual

def Expr.words : Expr → List Word
  | .literal l => l.words
  | .identifier i => [ofName i.name]
  | .call _ callee arguments => ofName callee.name :: parenthesised (separated (Expr.allWords arguments))
  | .instruction _ i arguments => ofName i :: parenthesised (separated (Expr.allWords arguments))

def Expr.allWords : List Expr → List (List Word)
  | [] => []
  | e :: es => e.words :: Expr.allWords es

end

def StackForm.words : StackForm → List Word
  | .label _ text => [ofName text, colon]
  | .assignment _ target => [stackAssign, ofName target.name]
  | .instruction _ i => [ofName i]

def Signature.words (f : Signature) : List Word :=
  ofName "function" :: ofName f.name :: parenthesised (separated (f.parameters.map Binder.words))
    ++ (if f.returns.isEmpty then [] else arrow :: separated (f.returns.map Binder.words))

mutual

def Stmt.words : Stmt → List Word
  | .expression e => e.words
  | .declaration _ vars none => ofName "let" :: separated (vars.map Binder.words)
  | .declaration _ vars (some value) =>
    ofName "let" :: separated (vars.map Binder.words) ++ assign :: value.words
  | .assignment _ targets value =>
    separated (targets.map fun i => [ofName i.name]) ++ assign :: value.words
  | .conditional _ condition body => ofName "if" :: condition.words ++ body.words
  | .switch _ subject arms => ofName "switch" :: subject.words ++ Case.allWords arms
  | .loop _ pre condition post body =>
    ofName "for" :: pre.words ++ condition.words ++ post.words ++ body.words
  | .function ⟨f, body⟩ => f.words ++ body.words
  | .block b => b.words
  | .stack form => form.words

def Stmt.allWords : List Stmt → List Word
  | [] => []
  | s :: ss => s.words ++ Stmt.allWords ss

def Block.words : Block → List Word
  | ⟨_, ss⟩ => leftBrace :: Stmt.allWords ss ++ [rightBrace]

def Case.words : Case → List Word
  | ⟨_, some value, body⟩ => ofName "case" :: value.words ++ body.words
  | ⟨_, none, body⟩ => ofName "default" :: body.words

def Case.allWords : List Case → List Word
  | [] => []
  | c :: cs => c.words ++ Case.allWords cs

end

/-! ## Trees without spans -/

def Binder.bare (x : Binder) : Binder :=
  { x with span := .none }

def Identifier.bare (i : Identifier) : Identifier :=
  { i with span := .none }

def Literal.bare (l : Literal) : Literal :=
  { l with span := .none }

mutual

def Expr.bare : Expr → Expr
  | .literal l => .literal l.bare
  | .identifier i => .identifier i.bare
  | .call _ callee arguments => .call .none callee.bare (Expr.allBare arguments)
  | .instruction _ i arguments => .instruction .none i (Expr.allBare arguments)

def Expr.allBare : List Expr → List Expr
  | [] => []
  | e :: es => e.bare :: Expr.allBare es

end

def StackForm.bare : StackForm → StackForm
  | .label _ text => .label .none text
  | .assignment _ target => .assignment .none target.bare
  | .instruction _ i => .instruction .none i

def Signature.bare (f : Signature) : Signature :=
  ⟨.none, f.name, f.parameters.map Binder.bare, f.returns.map Binder.bare⟩

mutual

def Stmt.bare : Stmt → Stmt
  | .expression e => .expression e.bare
  | .declaration _ vars value => .declaration .none (vars.map Binder.bare) (value.map Expr.bare)
  | .assignment _ targets value => .assignment .none (targets.map Identifier.bare) value.bare
  | .conditional _ condition body => .conditional .none condition.bare body.bare
  | .switch _ subject arms => .switch .none subject.bare (Case.allBare arms)
  | .loop _ pre condition post body => .loop .none pre.bare condition.bare post.bare body.bare
  | .function ⟨f, body⟩ => .function ⟨f.bare, body.bare⟩
  | .block b => .block b.bare
  | .stack form => .stack form.bare

def Stmt.allBare : List Stmt → List Stmt
  | [] => []
  | s :: ss => s.bare :: Stmt.allBare ss

def Block.bare : Block → Block
  | ⟨_, ss⟩ => ⟨.none, Stmt.allBare ss⟩

def Case.bare : Case → Case
  | ⟨_, value, body⟩ => ⟨.none, value.map Literal.bare, body.bare⟩

def Case.allBare : List Case → List Case
  | [] => []
  | c :: cs => c.bare :: Case.allBare cs

end

theorem Expr.allBare_eq_map (es : List Expr) : Expr.allBare es = es.map Expr.bare := by
  induction es with
  | nil => rfl
  | cons e es ih => rw [allBare, ih, List.map_cons]

theorem Expr.allWords_eq_map (es : List Expr) : Expr.allWords es = es.map Expr.words := by
  induction es with
  | nil => rfl
  | cons e es ih => rw [allWords, ih, List.map_cons]

theorem Stmt.allBare_eq_map (ss : List Stmt) : Stmt.allBare ss = ss.map Stmt.bare := by
  induction ss with
  | nil => rfl
  | cons s ss ih => rw [allBare, ih, List.map_cons]

theorem Case.allBare_eq_map (cs : List Case) : Case.allBare cs = cs.map Case.bare := by
  induction cs with
  | nil => rfl
  | cons c cs ih => rw [allBare, ih, List.map_cons]

theorem Stmt.allWords_eq_flatMap (ss : List Stmt) : Stmt.allWords ss = ss.flatMap words := by
  induction ss with
  | nil => rfl
  | cons s ss ih => rw [allWords, ih, List.flatMap_cons]

theorem Case.allWords_eq_flatMap (cs : List Case) : Case.allWords cs = cs.flatMap words := by
  induction cs with
  | nil => rfl
  | cons c cs ih => rw [allWords, ih, List.flatMap_cons]

theorem Case.allWords_append (cs ds : List Case) :
    Case.allWords (cs ++ ds) = Case.allWords cs ++ Case.allWords ds := by
  induction cs with
  | nil => rfl
  | cons c cs ih => simp [allWords, ih]

end Splice
