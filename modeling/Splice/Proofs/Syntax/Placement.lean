import Splice.Proofs.Syntax.Primitives

/-!
This module contains the proof that the parser does not look at the places of the tokens. Where the
tokens stand only decides the spans of the tree, and the span of the error if there is one.
-/

namespace Splice

def SyntaxError.bare (e : SyntaxError) : SyntaxError :=
  { e with span := .none }

@[simp]
theorem Expr.span_bare (e : Expr) : e.bare.span = .none := by
  cases e <;> rfl

@[simp]
theorem Block.span_bare (b : Block) : b.bare.span = .none := by
  cases b
  rfl

@[simp]
theorem Case.span_bare (c : Case) : c.bare.span = .none := by
  cases c
  rfl

namespace Parser

def Setting.bare (s : Setting) : Setting :=
  { s with finish := .none }

def forget {α : Type} (e : α → α) (x : Attempt (α × List Token)) : Attempt (α × List Token) :=
  ⟨x.result?.map fun r => (e r.1, r.2.map Token.bare), x.errors.map SyntaxError.bare⟩

def Unplaced {α : Type} (p q : Parse α) (e : α → α) : Prop :=
  ∀ ts, q.run (ts.map Token.bare) = forget e (p.run ts)

/-! ## First tokens -/

section

variable (ts : List Token)

@[simp]
theorem firstKind?_bare : firstKind? (ts.map Token.bare) = firstKind? ts := by
  cases ts <;> rfl

@[simp]
theorem secondKind?_bare : secondKind? (ts.map Token.bare) = secondKind? ts := by
  rcases ts with _ | ⟨_, _ | _⟩ <;> rfl

@[simp]
theorem startsWith_bare (word : String) :
    startsWith word (ts.map Token.bare) = startsWith word ts := by
  cases ts <;> rfl

@[simp]
theorem isBareInstruction_bare (d : Dialect) :
    isBareInstruction d (ts.map Token.bare) = isBareInstruction d ts := by
  rcases ts with _ | ⟨_, _ | _⟩ <;> rfl

@[simp]
theorem Form.ofTokens_bare (d : Dialect) : ofTokens d (ts.map Token.bare) = ofTokens d ts := by
  simp [Form.ofTokens]

end

namespace Unplaced

variable {α β : Type}

theorem bind {p q : Parse α} {e : α → α} {f g : α → Parse β} {e' : β → β}
    (hp : Unplaced p q e) (hf : ∀ a, Unplaced (f a) (g (e a)) e') :
    Unplaced (p >>= f) (q >>= g) e' := by
  intro ts
  rw [StateT.run_bind, StateT.run_bind, hp ts]
  obtain ⟨_ | ⟨a, mid⟩, errors⟩ := p.run ts
  . rfl
  . have hmid : (g (e a)).run (mid.map Token.bare) = forget e' ((f a).run mid) := hf a mid
    simp only [forget, Bind.bind, Attempt.bind, Option.map_some, hmid, List.map_append]

theorem ofPure (a : α) {b : α} {e : α → α} (h : b = e a) :
    Unplaced (pure a) (pure b) e := by
  intro ts
  rw [h]
  rfl

theorem ofFail (fault : SyntaxFault) {span span' : Span} {e : α → α} (h : span' = .none) :
    Unplaced (fail fault span) (fail fault span') e := by
  intro ts
  rw [h]
  rfl

theorem ofGet : Unplaced get get (List.map Token.bare) := fun _ => rfl

theorem ofIf {c : Prop} [Decidable c] {p p' q q' : Parse α} {e : α → α}
    (hp : c → Unplaced p q e) (hp' : ¬c → Unplaced p' q' e) :
    Unplaced (if c then p else p') (if c then q else q') e := by
  by_cases hc : c
  . rw [if_pos hc, if_pos hc]
    exact hp hc
  . rw [if_neg hc, if_neg hc]
    exact hp' hc

theorem ofSkip : Unplaced skip skip id := by
  intro ts
  cases ts <;> rfl

theorem ofNext : Unplaced next next Token.bare := by
  intro ts
  cases ts <;> rfl

theorem ofPeekKind : Unplaced peekKind peekKind id := by
  intro ts
  cases ts <;> rfl

theorem ofPeekWord (word : String) : Unplaced (peekWord word) (peekWord word) id := by
  intro ts
  cases ts <;> rfl

theorem ofRepeatWhile {goesOn goesOn' : Parse Bool} {p q : Parse α} {e : α → α}
    (hgoesOn : Unplaced goesOn goesOn' id) (hp : Unplaced p q e) :
    Unplaced (repeatWhile goesOn p) (repeatWhile goesOn' q) (List.map e) := by
  have hgo : ∀ rounds, Unplaced (repeatWhile.go goesOn p rounds) (repeatWhile.go goesOn' q rounds)
      (List.map e) := by
    intro rounds
    induction rounds with
    | zero => exact fun _ => rfl
    | succ rounds ih =>
      apply hgoesOn.bind
      intro found
      apply ofIf
      . intro _
        apply hp.bind
        intro a
        apply ih.bind
        intro as
        exact ofPure _ rfl
      . intro _
        exact ofPure [] rfl
  intro ts
  rw [run_repeatWhile_eq, run_repeatWhile_eq, List.length_map]
  exact hgo _ ts

end Unplaced

open Unplaced

/-! ## Tokens, names and lists -/

theorem unplaced_expect (s : Setting) (kind : TokenKind) (what : String) :
    Unplaced (expect s kind what) (expect s.bare kind what) Token.bare := by
  unfold expect
  apply ofGet.bind
  intro ts
  cases ts with
  | nil => exact ofFail _ rfl
  | cons t rest =>
    apply ofIf
    . intro _
      exact ofNext
    . intro _
      exact ofFail _ rfl

theorem unplaced_name (s : Setting) (what : String) (instructions : Bool) :
    Unplaced (name s what instructions) (name s.bare what instructions) Identifier.bare := by
  unfold name
  apply (unplaced_expect s .identifier what).bind
  intro t
  apply ofIf
  . intro _
    exact ofFail _ rfl
  . intro _
    apply ofIf
    . intro _
      exact ofFail _ rfl
    . intro _
      exact ofPure _ rfl

section

variable {α : Type} {p q : Parse α} {e : α → α} (hp : Unplaced p q e)

include hp

theorem unplaced_others :
    Unplaced (repeatWhile atComma (behindComma p)) (repeatWhile atComma (behindComma q))
      (List.map e) := by
  apply ofRepeatWhile
  . apply ofPeekKind.bind
    intro kind
    exact ofPure _ rfl
  . apply ofSkip.bind
    intro _
    exact hp

theorem unplaced_commaSeparated :
    Unplaced (commaSeparated p) (commaSeparated q) (List.map e) := by
  unfold commaSeparated
  apply hp.bind
  intro a
  apply (unplaced_others hp).bind
  intro as
  exact ofPure _ rfl

theorem unplaced_items : Unplaced (items p) (items q) (List.map e) := by
  unfold items
  apply ofPeekKind.bind
  intro _
  apply ofIf
  . intro _
    exact ofPure [] rfl
  . intro _
    exact unplaced_commaSeparated hp

end

/-! ## Variables and expressions -/

theorem unplaced_typeSuffix (s : Setting) :
    Unplaced (typeSuffix s) (typeSuffix s.bare) id := by
  unfold typeSuffix
  apply ofPeekKind.bind
  intro _
  apply ofIf
  . intro _
    apply ofSkip.bind
    intro _
    apply (unplaced_name s _ _).bind
    intro _
    exact ofPure _ rfl
  . intro _
    exact ofPure _ rfl

theorem unplaced_binder (s : Setting) : Unplaced (binder s) (binder s.bare) Binder.bare := by
  unfold binder
  apply (unplaced_name s _ _).bind
  intro _
  apply (unplaced_typeSuffix s).bind
  intro _
  exact ofPure _ rfl

theorem unplaced_literal (s : Setting) (kind : LiteralKind) :
    Unplaced (literal s kind) (literal s.bare kind) Expr.bare := by
  unfold literal
  apply ofNext.bind
  intro t
  apply (unplaced_typeSuffix s).bind
  intro _
  exact ofPure _ rfl

theorem unplaced_arguments (s : Setting) {p q : Parse Expr} (hp : Unplaced p q Expr.bare) :
    Unplaced (arguments s p) (arguments s.bare q) fun r => (Expr.allBare r.1, r.2.bare) := by
  unfold arguments
  apply (unplaced_items hp).bind
  intro es
  apply (unplaced_expect s _ _).bind
  intro close
  exact ofPure _ (by rw [Expr.allBare_eq_map])

theorem unplaced_named (s : Setting) {p q : Parse Expr} (hp : Unplaced p q Expr.bare) :
    Unplaced (named s p) (named s.bare q) Expr.bare := by
  unfold named
  apply (unplaced_name s _ _).bind
  intro i
  apply ofPeekKind.bind
  intro _
  apply ofIf
  . intro _
    apply ofSkip.bind
    intro _
    apply (unplaced_arguments s hp).bind
    intro r
    apply ofIf
    . intro _
      exact ofPure _ rfl
    . intro _
      exact ofPure _ rfl
  . intro _
    exact ofPure _ rfl

theorem unplaced_expression (s : Setting) (depth : Nat) :
    Unplaced (expression s depth) (expression s.bare depth) Expr.bare := by
  induction depth with
  | zero =>
    apply ofGet.bind
    intro ts
    apply ofFail
    cases ts <;> rfl
  | succ depth ih =>
    apply ofPeekKind.bind
    intro kind?
    rcases kind? with _ | kind
    . exact ofFail _ rfl
    cases kind
    case number => exact unplaced_literal s _
    case string => exact unplaced_literal s _
    case identifier =>
      apply (ofPeekWord _).bind
      intro _
      apply (ofPeekWord _).bind
      intro _
      apply ofIf
      . intro _
        exact unplaced_literal s _
      . intro _
        exact unplaced_named s ih
    all_goals
      apply ofNext.bind
      intro t
      exact ofFail _ rfl

/-! ## Statements -/

theorem unplaced_stackAssignment (s : Setting) :
    Unplaced (stackAssignment s) (stackAssignment s.bare) Stmt.bare := by
  unfold stackAssignment
  apply ofNext.bind
  intro start
  apply (unplaced_name s _ _).bind
  intro target
  exact ofPure _ rfl

theorem unplaced_label (s : Setting) : Unplaced (label s) (label s.bare) Stmt.bare := by
  unfold label
  apply (unplaced_name s _ _).bind
  intro i
  apply ofNext.bind
  intro colon
  exact ofPure _ rfl

theorem unplaced_instruction : Unplaced instruction instruction Stmt.bare := by
  unfold instruction
  apply ofNext.bind
  intro t
  exact ofPure _ rfl

theorem unplaced_strayCase : Unplaced strayCase strayCase Stmt.bare := by
  unfold strayCase
  apply ofNext.bind
  intro t
  exact ofFail _ rfl

theorem unplaced_declaration (s : Setting) {p q : Parse Expr} (hp : Unplaced p q Expr.bare) :
    Unplaced (declaration s p) (declaration s.bare q) Stmt.bare := by
  unfold declaration
  apply ofNext.bind
  intro start
  apply (unplaced_commaSeparated (unplaced_binder s)).bind
  intro vars
  apply ofPeekKind.bind
  intro _
  apply ofIf
  . intro _
    apply ofSkip.bind
    intro _
    apply hp.bind
    intro value
    exact ofPure _ (by simp [Stmt.bare, Span.join, Span.none])
  . intro _
    refine ofPure _ ?_
    rw [List.getLast?_map]
    cases vars.getLast? <;> simp [Stmt.bare, Span.join, Span.none, Binder.bare]

theorem unplaced_returns (s : Setting) :
    Unplaced (returns s) (returns s.bare) (List.map Binder.bare) := by
  unfold returns
  apply ofPeekKind.bind
  intro _
  apply ofIf
  . intro _
    apply ofSkip.bind
    intro _
    exact unplaced_commaSeparated (unplaced_binder s)
  . intro _
    exact ofPure _ rfl

theorem unplaced_function (s : Setting) {p q : Parse Block} (hp : Unplaced p q Block.bare) :
    Unplaced (function s p) (function s.bare q) Stmt.bare := by
  unfold function
  apply ofNext.bind
  intro start
  apply (unplaced_name s _ _).bind
  intro i
  apply (unplaced_expect s _ _).bind
  intro _
  apply (unplaced_items (unplaced_binder s)).bind
  intro parameters
  apply (unplaced_expect s _ _).bind
  intro _
  apply (unplaced_returns s).bind
  intro xs
  apply hp.bind
  intro body
  exact ofPure _ (by simp [Stmt.bare, Signature.bare, Span.join, Span.none, Identifier.bare])

section

variable {p q : Parse Block} {p' q' : Parse Expr} (hp : Unplaced p q Block.bare)
  (hp' : Unplaced p' q' Expr.bare)

include hp

theorem unplaced_defaultArm : Unplaced (defaultArm p) (defaultArm q) Case.allBare := by
  unfold defaultArm
  apply (ofPeekWord _).bind
  intro _
  apply ofIf
  . intro _
    apply ofNext.bind
    intro start
    apply hp.bind
    intro body
    exact ofPure _ (by simp [Case.allBare, Case.bare, Span.join, Span.none])
  . intro _
    exact ofPure _ rfl

include hp'

theorem unplaced_caseArm : Unplaced (caseArm p p') (caseArm q q') Case.bare := by
  unfold caseArm
  apply ofNext.bind
  intro start
  apply hp'.bind
  intro e
  cases e with
  | literal value =>
    apply hp.bind
    intro body
    exact ofPure _ (by simp [Case.bare, Span.join, Span.none])
  | _ => exact ofFail _ rfl

theorem unplaced_switch : Unplaced (switch p p') (switch q q') Stmt.bare := by
  unfold switch
  apply ofNext.bind
  intro start
  apply hp'.bind
  intro subject
  apply (ofRepeatWhile (ofPeekWord _) (unplaced_caseArm hp hp')).bind
  intro arms
  apply (unplaced_defaultArm hp).bind
  intro last
  rw [Case.allBare_eq_map, ← List.map_append, List.getLast?_map]
  cases (arms ++ last).getLast? with
  | none => exact ofFail _ rfl
  | some c =>
    exact ofPure _ (by simp [Stmt.bare, Span.join, Span.none, Case.allBare_eq_map])

theorem unplaced_conditional : Unplaced (conditional p p') (conditional q q') Stmt.bare := by
  unfold conditional
  apply ofNext.bind
  intro start
  apply hp'.bind
  intro condition
  apply hp.bind
  intro body
  exact ofPure _ (by simp [Stmt.bare, Span.join, Span.none])

theorem unplaced_loop : Unplaced (loop p p') (loop q q') Stmt.bare := by
  unfold loop
  apply ofNext.bind
  intro start
  apply hp.bind
  intro pre
  apply hp'.bind
  intro condition
  apply hp.bind
  intro post
  apply hp.bind
  intro body
  exact ofPure _ (by simp [Stmt.bare, Span.join, Span.none])

end

theorem unplaced_simple (s : Setting) {p q : Parse Expr} (hp : Unplaced p q Expr.bare) :
    Unplaced (simple s p) (simple s.bare q) Stmt.bare := by
  unfold simple
  apply hp.bind
  intro e
  apply ofPeekKind.bind
  intro _
  cases e with
  | identifier first =>
    apply ofIf
    . intro _
      apply (unplaced_others (unplaced_name s _ _)).bind
      intro others
      apply (unplaced_expect s _ _).bind
      intro _
      apply hp.bind
      intro value
      exact ofPure _ (by simp [Stmt.bare, Span.join, Span.none, Identifier.bare])
    . intro _
      exact ofPure _ rfl
  | _ => exact ofPure _ rfl

theorem unplaced_statement (s : Setting) {p q : Parse Block} {p' q' : Parse Expr}
    (hp : Unplaced p q Block.bare) (hp' : Unplaced p' q' Expr.bare) :
    Unplaced (statement s p p') (statement s.bare q q') Stmt.bare := by
  unfold statement
  apply ofGet.bind
  intro ts
  have hform : Form.ofTokens s.bare.dialect (ts.map Token.bare) = Form.ofTokens s.dialect ts :=
    Form.ofTokens_bare ts s.dialect
  rw [hform]
  cases Form.ofTokens s.dialect ts with
  | block =>
    apply hp.bind
    intro b
    exact ofPure _ rfl
  | stackAssignment => exact unplaced_stackAssignment s
  | declaration => exact unplaced_declaration s hp'
  | function => exact unplaced_function s hp
  | conditional => exact unplaced_conditional hp hp'
  | switch => exact unplaced_switch hp hp'
  | loop => exact unplaced_loop hp hp'
  | strayCase => exact unplaced_strayCase
  | label => exact unplaced_label s
  | instruction => exact unplaced_instruction
  | simple => exact unplaced_simple s hp'

/-! ## Blocks -/

theorem unplaced_inBlock (start : Span) : Unplaced (inBlock start) (inBlock .none) id := by
  unfold inBlock
  apply ofPeekKind.bind
  intro kind?
  rcases kind? with _ | kind
  . exact ofFail _ rfl
  . cases kind <;> exact ofPure _ rfl

theorem unplaced_block (s : Setting) (depth : Nat) :
    Unplaced (block s depth) (block s.bare depth) Block.bare := by
  induction depth with
  | zero =>
    apply (unplaced_expect s _ _).bind
    intro start
    exact ofFail _ rfl
  | succ depth ih =>
    apply (unplaced_expect s _ _).bind
    intro start
    have hstatement := unplaced_statement s ih (unplaced_expression s depth)
    apply (ofRepeatWhile (unplaced_inBlock start.span) hstatement).bind
    intro ss
    apply ofNext.bind
    intro close
    exact ofPure _ (by simp [Block.bare, Stmt.allBare_eq_map, Span.join, Span.none])

theorem unplaced_program (s : Setting) : Unplaced (program s) (program s.bare) Block.bare := by
  unfold program
  apply (unplaced_block s maxNesting).bind
  intro root
  apply ofGet.bind
  intro ts
  cases ts with
  | nil => exact ofPure _ rfl
  | cons t rest => exact ofFail _ rfl

end Parser

theorem parseTokens_bare (d : Dialect) (ts : List Token) :
    parseTokens d (ts.map Token.bare) =
      ⟨(parseTokens d ts).result?.map Block.bare,
        (parseTokens d ts).errors.map SyntaxError.bare⟩ := by
  have h := Parser.unplaced_program ⟨d, (ts.getLast?.map Token.span).getD .none⟩ ts
  have hs : ((ts.map Token.bare).getLast?.map Token.span).getD .none = .none := by
    rw [List.getLast?_map]
    cases ts.getLast? <;> rfl
  unfold parseTokens
  rw [hs]
  unfold Parser.Setting.bare at h
  rw [h]
  simp [Attempt.map, Parser.forget, Function.comp_def]

theorem parseTokens_bare_eq_ok {d : Dialect} {ts : List Token} {c : Block} :
    parseTokens d (ts.map Token.bare) = .ok c ↔ ∃ b, parseTokens d ts = .ok b ∧ b.bare = c := by
  rw [parseTokens_bare]
  obtain ⟨_ | b, errors⟩ := parseTokens d ts
  . simp [Attempt.ok]
  . simp only [Attempt.ok, Option.map_some, Attempt.mk.injEq, Option.some.injEq,
      List.map_eq_nil_iff]
    grind

theorem parseTokens_congr {d : Dialect} {ts us : List Token} {b : Block}
    (h : ts.map Token.word = us.map Token.word) (hb : parseTokens d ts = .ok b) :
    ∃ b', parseTokens d us = .ok b' ∧ b'.bare = b.bare := by
  have hbare := parseTokens_bare_eq_ok.2 ⟨b, hb, rfl⟩
  rw [Token.map_bare_eq_of_map_word_eq h] at hbare
  exact parseTokens_bare_eq_ok.1 hbare

end Splice
